import Watermark.Map.Delivery
import Watermark.Sequential

/-!
# Refinement — the pixels of map.cpp against sequential.cpp

Several workers mark the same photo at once, each its own rows.  What is left to do on a lane are
the pixels of the parts the worker has not popped and those of its marking loop; a photo of which
all parts have arrived has none left on any lane.
-/

namespace Watermark.Map

open Function Reasoning

variable {cfg : Config}

/-- The pixels of a part, none of them visited. -/
def Config.partWork (cfg : Config) (ii : Image) : Multiset ((ℕ × Pixel) × Visit) :=
  visits ii.P_Pointer (forPart (loadHeap cfg.copies ii.P_Pointer) ii.starting ii.total_parts)

def Worker.work : Worker → Multiset ((ℕ × Pixel) × Visit)
  | .mark _ t => t.work
  | _ => 0

namespace State

/-- What is to be done by worker `i` on the parts it has not popped. -/
def inboundWork (s : State cfg) (i : Fin cfg.threads) : Multiset ((ℕ × Pixel) × Visit) :=
  ((items (s.inbound i)).map cfg.partWork).sum

def laneWork (s : State cfg) (i : Fin cfg.threads) : Multiset ((ℕ × Pixel) × Visit) :=
  (s.workers i).work + s.inboundWork i

def work (s : State cfg) : Multiset ((ℕ × Pixel) × Visit) := ∑ i, s.laneWork i

end State

/-- What sequential.cpp makes of the photos. -/
def Config.sequential (cfg : Config) (k : ℕ) : CImg :=
  markingLoop cfg.overlay (loadHeap cfg.copies k)

/-- A worker marks the photo of the part it holds. -/
def Worker.OnPhoto : Worker → Prop
  | .mark ii t => t.photo = ii.P_Pointer
  | _ => True

structure State.BufferInv (s : State cfg) : Prop where
  photo : ∀ i, (s.workers i).OnPhoto
  memory : MemoryInv cfg.overlay (loadHeap cfg.copies) cfg.sequential
    ((allVisits (loadHeap cfg.copies) cfg.copies.length).map Prod.fst) s.memory s.work

/-! ## At the start -/

theorem sum_visits (k : ℕ) (g : ℕ → List Pixel) (n : ℕ) :
    ∑ i : Fin n, visits k (g i) = visits k ((List.range n).flatMap g) := by
  induction n with
  | zero => rfl
  | succ n ih =>
      rw [Fin.sum_univ_castSucc, List.range_succ, List.flatMap_append, visits_append]
      simp only [Fin.val_castSucc, Fin.val_last, ih, List.flatMap_cons, List.flatMap_nil,
        List.append_nil]

-- The parts of all photos on all lanes are all pixels of all photos.
theorem work_init (hn : 0 < cfg.threads) :
    (system cfg).init.work = allVisits (loadHeap cfg.copies) cfg.copies.length := by
  have hlane : ∀ i, (system cfg).init.laneWork i = ((List.range cfg.copies.length).map fun k =>
      visits k (forPart (loadHeap cfg.copies k)
        (balancedPart (loadHeap cfg.copies k).height cfg.threads i).starting
        (balancedPart (loadHeap cfg.copies k).height cfg.threads i).total_parts)).sum := by
    intro i
    have hinbound : (system cfg).init.inbound i = stream (cfg.lane i) 1 := rfl
    unfold State.laneWork State.inboundWork
    rw [hinbound, items_stream]
    unfold Config.lane Config.photos
    rw [List.map_map, List.map_map]
    exact zero_add _
  unfold State.work allVisits
  rw [Finset.sum_congr rfl fun i _ => hlane i]
  refine (sum_list_sum _ _).trans (congrArg List.sum (List.map_congr_left fun k _ => ?_))
  rw [← flatMap_forPart (loadHeap cfg.copies k) hn]
  exact sum_visits k (fun i => forPart (loadHeap cfg.copies k)
    (balancedPart (loadHeap cfg.copies k).height cfg.threads i).starting
    (balancedPart (loadHeap cfg.copies k).height cfg.threads i).total_parts) cfg.threads

theorem bufferInv_init (hn : 0 < cfg.threads) : (system cfg).init.BufferInv := by
  refine ⟨fun _ => trivial, ?_⟩
  rw [work_init hn]
  exact MemoryInv.load cfg.overlay cfg.copies

/-! ## Steps -/

theorem work_split (s : State cfg) (i : Fin cfg.threads) :
    s.work = s.laneWork i + ∑ j ∈ Finset.univ.erase i, s.laneWork j :=
  sum_split id s.laneWork i

-- A step of worker `id` that leaves the work of its own lane as it was.
theorem work_setWorker_eq {s s' : State cfg} {id : Fin cfg.threads} {w : Worker}
    (hworkers : s'.workers = s.workers) (hne : ∀ j, j ≠ id → s'.inbound j = s.inbound j)
    (h : w.work + s'.inboundWork id = s.laneWork id) : (s'.setWorker id w).work = s.work := by
  rw [work_split _ id, work_split s id]
  congr 1
  · rw [← h]
    change (update s'.workers id w id).work + s'.inboundWork id = _
    rw [update_self]
  · refine Finset.sum_congr rfl fun j hj => ?_
    have hji := Finset.ne_of_mem_erase hj
    change (update s'.workers id w j).work + s'.inboundWork j = _
    unfold State.laneWork State.inboundWork
    rw [update_of_ne hji, hworkers, hne j hji]

theorem photo_setWorker {s : State cfg} {id : Fin cfg.threads} {w : Worker}
    (h : ∀ i, (s.workers i).OnPhoto) (hw : w.OnPhoto) :
    ∀ j, ((s.setWorker id w).workers j).OnPhoto :=
  forall_update (fun _ => Worker.OnPhoto) hw fun j _ => h j

-- A step of worker `id` that touches no photo and leaves the work of its own lane as it was.
theorem bufferInv_setWorker {s s' : State cfg} {id : Fin cfg.threads} {w : Worker} (h : s.BufferInv)
    (hmemory : s'.memory = s.memory) (hworkers : s'.workers = s.workers)
    (hne : ∀ j, j ≠ id → s'.inbound j = s.inbound j) (hphoto : w.OnPhoto)
    (hwork : w.work + s'.inboundWork id = s.laneWork id) : (s'.setWorker id w).BufferInv := by
  constructor
  · apply photo_setWorker _ hphoto
    rw [hworkers]
    exact h.photo
  · rw [work_setWorker_eq hworkers hne hwork]
    change MemoryInv _ _ _ _ s'.memory _
    rw [hmemory]
    exact h.memory

-- The work of worker `id` and that of the parts it has not popped, and all other work.
theorem work_setWorker (s : State cfg) (id : Fin cfg.threads) (w : Worker) :
    (s.setWorker id w).work =
      w.work + (s.inboundWork id + ∑ j ∈ Finset.univ.erase id, s.laneWork j) := by
  rw [work_split _ id, ← add_assoc]
  congr 1
  · change (update s.workers id w id).work + s.inboundWork id = _
    rw [update_self]
  · refine Finset.sum_congr rfl fun j hj => ?_
    change (update s.workers id w j).work + s.inboundWork j = _
    rw [update_of_ne (Finset.ne_of_mem_erase hj)]
    rfl

theorem bufferInv_workerStep {s t : State cfg} {id : Fin cfg.threads} {ms : ℤ}
    (hs : (system cfg).Reachable s) (h : s.BufferInv) (hstep : WorkerStep s id ms t) :
    t.BufferInv := by
  cases hstep with
  | @popPart ii q hw hq =>
      refine bufferInv_setWorker h (by rfl) (by rfl) (fun j hj => ?_) rfl ?_
      · simp only [State.inbound, update_of_ne hj]
      · -- the part's pixels move from the queue into the loop
        have hinbound : s.inbound id = some ii :: ({ s with
            Scatter_to_worker := update s.Scatter_to_worker id q } : State cfg).inbound id := by
          simp [State.inbound, hq]
        simp only [State.laneWork, State.inboundWork, hinbound, items_some, List.map_cons,
          List.sum_cons, hw, Worker.work, work_start, Config.partWork,
          forPart_congr (dims hs ii.P_Pointer).1, zero_add]
  | @popEos q hw hq =>
      refine bufferInv_setWorker h (by rfl) (by rfl) (fun j hj => ?_) trivial ?_
      · simp only [State.inbound, update_of_ne hj]
      · have hinbound : s.inbound id = none :: ({ s with
            Scatter_to_worker := update s.Scatter_to_worker id q } : State cfg).inbound id := by
          simp [State.inbound, hq]
        simp only [State.laneWork, State.inboundWork, hinbound, items_none, hw, Worker.work]
  | @mark ii m m' memory hw hm =>
      constructor
      · apply photo_setWorker h.photo
        have hphoto := h.photo id
        rw [hw] at hphoto
        exact (Marking.step_photo hm).trans hphoto
      · have hmem := h.memory
        rw [work_split s id, State.laneWork, hw, add_assoc] at hmem
        rw [work_setWorker]
        exact hmem.step hm
  | @push ii m hw hm =>
      refine bufferInv_setWorker h (by rfl) (by rfl) (fun j hj => by rfl) trivial ?_
      simp only [State.laneWork, hw, Worker.work, Marking.work, hm]
      rfl
  | @test w hw hcase =>
      have hidle : w.work = 0 ∧ w.OnPhoto := by
        rcases hcase with rfl | rfl <;> exact ⟨rfl, trivial⟩
      refine bufferInv_setWorker h (by rfl) (by rfl) (fun j hj => by rfl) hidle.2 ?_
      rw [State.laneWork, hw, hidle.1]
      rfl
  | stamp hw =>
      refine bufferInv_setWorker h (by rfl) (by rfl) (fun j hj => by rfl) trivial ?_
      rw [State.laneWork, hw]
      rfl
  | bump hw =>
      refine bufferInv_setWorker h (by rfl) (by rfl) (fun j hj => by rfl) trivial ?_
      rw [State.laneWork, hw]
      rfl
  | pushEos hw =>
      refine bufferInv_setWorker h (by rfl) (by rfl) (fun j hj => by rfl) trivial ?_
      rw [State.laneWork, hw]
      rfl

theorem bufferInv (hn : 0 < cfg.threads) {s : State cfg} (hs : (system cfg).Reachable s) :
    s.BufferInv := by
  have hneg := number_workers_nonneg hn
  refine step_invariant (bufferInv_init hn) ?_ ?_ ?_ hs
  · intro s t hr ih h
    have hsame : t.workers = s.workers ∧ t.memory = s.memory := by
      cases h <;> exact ⟨rfl, rfl⟩
    have hwork : t.work = s.work := by
      refine Finset.sum_congr rfl fun i _ => ?_
      unfold State.laneWork State.inboundWork
      rw [inbound_scatterStep hneg hr h, hsame.1]
    exact ⟨hsame.1 ▸ ih.photo, hwork ▸ hsame.2 ▸ ih.memory⟩
  · intro s id ms t hr ih h
    exact bufferInv_workerStep hr ih h
  · intro s t _ ih h
    cases h with
    | @take i ii q hp hq => cases ii <;> exact ⟨ih.photo, ih.memory⟩
    | _ => exact ⟨ih.photo, ih.memory⟩

/-! ## Photos of which all parts have arrived -/

-- What is still on a lane belongs to photos that the lane has not delivered.
theorem le_of_mem_rest (hneg : 0 ≤ cfg.number_workers) {s : State cfg}
    (hs : (system cfg).Reachable s) {i : Fin cfg.threads} {ii : Image} (h : some ii ∈ s.rest i) :
    s.delivered i ≤ ii.P_Pointer := by
  have hlane := congrArg items (laneInv hneg hs i)
  rw [items_append, items_stream] at hlane
  obtain ⟨n, hn, hget⟩ := List.mem_iff_getElem.mp (mem_items.mpr h)
  have hlt : s.delivered i + n < cfg.copies.length := by
    have hlen := congrArg List.length hlane
    simp only [List.length_append, Config.lane, Config.photos, List.length_map,
      List.length_range] at hlen
    unfold State.delivered
    omega
  -- the element with index `delivered + n` of the lane is a part of the photo with that index
  have hindex : (cfg.lane i)[s.delivered i + n]? = some ii := by
    rw [← hlane, State.delivered, List.getElem?_append_right (Nat.le_add_right _ _),
      Nat.add_sub_cancel_left, List.getElem?_eq_getElem hn, hget]
  have hphoto : (cfg.lane i)[s.delivered i + n]? =
      some (cfg.part i ⟨photoTitle (s.delivered i + n), 0, 0, s.delivered i + n⟩) := by
    simp only [Config.lane, Config.photos, List.getElem?_map, List.getElem?_range hlt,
      Option.map_some]
  rw [hindex] at hphoto
  cases hphoto
  exact Nat.le_add_right _ _

-- So a photo that every lane has delivered is not worked on.
theorem not_mem_work (hn : 0 < cfg.threads) {s : State cfg} (hs : (system cfg).Reachable s) {k : ℕ}
    (hk : ∀ i, k < s.delivered i) : ∀ e ∈ s.work, e.1.1 ≠ k := by
  have hneg := number_workers_nonneg hn
  intro e he heq
  obtain ⟨i, _, hlane⟩ := Multiset.mem_sum.mp he
  have hsome : ∃ ii, some ii ∈ s.rest i ∧ e.1.1 = ii.P_Pointer := by
    rcases Multiset.mem_add.mp hlane with hwork | hwork
    · cases hw : s.workers i with
      | mark ii t =>
          rw [hw] at hwork
          refine ⟨ii, ?_, ?_⟩
          · simp [State.rest, hw, Worker.hand]
          · have hphoto := (bufferInv hn hs).photo i
            rw [hw] at hphoto
            exact (Marking.work_photo hwork).trans hphoto
      | _ =>
          rw [hw] at hwork
          exact absurd hwork (Multiset.notMem_zero e)
    · obtain ⟨ii, hii, hvisit⟩ := mem_sum_map.mp hwork
      refine ⟨ii, ?_, (mem_visits.mp hvisit).1⟩
      exact List.mem_append_right _ (mem_items.mp hii)
  obtain ⟨ii, hrest, hptr⟩ := hsome
  have hle := le_of_mem_rest hneg hs hrest
  have hlt := hk i
  omega

theorem delivered_of_mem_done (hn : 0 < cfg.threads) {s : State cfg}
    (hs : (system cfg).Reachable s) {ii : Image} (hd : ii ∈ s.images_done) :
    ∀ i, ii.P_Pointer < s.delivered i := by
  obtain ⟨m, hm, hdone⟩ := doneInv hn hs
  have hkey : (ii.Pho_title, ii.P_Pointer) ∈ (List.range m).map fun k => (photoTitle k, k) := by
    rw [← hdone]
    exact List.mem_map_of_mem hd
  obtain ⟨k, hk, heq⟩ := List.mem_map.mp hkey
  have hptr : k = ii.P_Pointer := congrArg Prod.snd heq
  rw [← hptr]
  exact (hm k).mp (List.mem_range.mp hk)

theorem images_done_step {s t : State cfg} {a : Action cfg.threads}
    (h : (system cfg).step s a = some t) {ii : Image} (hd : ii ∈ s.images_done) :
    ii ∈ t.images_done := by
  cases a with
  | scatter => cases scatterStep_cases h <;> exact hd
  | worker id ms => cases workerStep_cases h <;> exact hd
  | collector =>
      cases collectorStep_cases h with
      | @take i jj q hp hq =>
          cases jj with
          | none => exact hd
          | some jj =>
              change ii ∈ if (_ : ℤ) = cfg.number_workers then s.images_done ++ [jj]
                else s.images_done
              split
              · exact List.mem_append_left _ hd
              · exact hd
      | _ => exact hd

-- A photo of `images_done` is marked, each pixel in one visit.
theorem marked_of_mem_done (hn : 0 < cfg.threads) {s : State cfg} (hs : (system cfg).Reachable s)
    {ii : Image} (hd : ii ∈ s.images_done) :
    ∃ hk : ii.P_Pointer < cfg.copies.length,
      s.memory.heap ii.P_Pointer = markingLoop cfg.overlay cfg.copies[ii.P_Pointer] ∧
      ∀ p, cfg.copies[ii.P_Pointer].Inside p → s.memory.timesVisited ii.P_Pointer p = 1 := by
  have hneg := number_workers_nonneg hn
  have hdelivered := delivered_of_mem_done hn hs hd
  have hwork := not_mem_work hn hs hdelivered
  have hmem := (bufferInv hn hs).memory
  have hk : ii.P_Pointer < cfg.copies.length := by
    obtain ⟨m, hm, _⟩ := doneInv hn hs
    have hlt := (hm ii.P_Pointer).mpr hdelivered
    have hle := done_le hneg hn hs hm
    omega
  refine ⟨hk, ?_, fun p hp => ?_⟩
  · rw [← loadHeap_eq hk]
    exact hmem.heap_eq hwork
  · rw [← loadHeap_eq hk] at hp
    exact hmem.count_visited hwork
      (Multiset.mem_map.mpr ⟨((_, p), .test), mem_allVisits.mpr ⟨hk, hp, rfl⟩, rfl⟩)

/-- In every interleaving, down to single channel accesses, a photo in `images_done` is what the
loop of sequential.cpp makes of it, and stays so. -/
theorem refines_sequential (cfg : Config) (hn : 1 ≤ cfg.number_workers) {s : State cfg}
    (hs : (system cfg).Reachable s) {ii : Image} (hd : ii ∈ s.images_done) :
    (∃ hk : ii.P_Pointer < cfg.copies.length,
      s.memory.heap ii.P_Pointer = markingLoop cfg.overlay cfg.copies[ii.P_Pointer]) ∧
    (ii.Pho_title, s.memory.heap ii.P_Pointer) ∈ (Sequential.Images_Processed cfg.overlay
      (Sequential.load cfg.copies)).map Sequential.Image.result ∧
    ∀ as t, (system cfg).exec s as = some t →
      t.memory.heap ii.P_Pointer = s.memory.heap ii.P_Pointer := by
  have hpos : 0 < cfg.threads := by
    unfold Config.threads
    omega
  obtain ⟨hk, hmarked, _⟩ := marked_of_mem_done hpos hs hd
  refine ⟨⟨hk, hmarked⟩, ?_, fun as t ht => ?_⟩
  · obtain ⟨m, hm, hdone⟩ := doneInv hpos hs
    have hkey := List.mem_map_of_mem (f := fun ii : Image => (ii.Pho_title, ii.P_Pointer)) hd
    rw [hdone] at hkey
    obtain ⟨k, _, heq⟩ := List.mem_map.mp hkey
    obtain ⟨htitle, hptr⟩ := Prod.mk.inj heq
    rw [Sequential.results_eq]
    refine List.mem_map.mpr ⟨k, List.mem_range.mpr (hptr ▸ hk), ?_⟩
    rw [htitle, hmarked, hptr, loadHeap_eq hk]
  · have hd' : ii ∈ t.images_done :=
      hs.exec_keeps (fun s a t _ hp ha => images_done_step ha hp) hd ht
    obtain ⟨_, hmarked', _⟩ := marked_of_mem_done hpos (hs.exec ht) hd'
    rw [hmarked', hmarked]

theorem refines_sequential_twoWorkers :
    ∃ ii ∈ twoWorkersEnd.images_done, twoWorkersEnd.memory.heap ii.P_Pointer =
      markingLoop twoWorkers.overlay onePixelPhoto := by
  have hd : (⟨"0.jpg", 0, 1, 0⟩ : Image) ∈ twoWorkersEnd.images_done := by decide +kernel
  obtain ⟨⟨_, hmarked⟩, _⟩ :=
    refines_sequential twoWorkers (by decide) twoWorkersEnd_reachable hd
  exact ⟨_, hd, hmarked⟩

end Watermark.Map
