import Watermark.Map.Invariant
import Watermark.Reasoning.Lanes

/-!
# Delivery — map.cpp loses, doubles and reorders nothing

The collector counts parts by title.  `State.delivered` counts the parts it has popped from each
lane; since lanes keep the order of `photos`, the size of each entry of `results` is the number of
lanes that have delivered the photo, and photos become complete in order (`Reasoning.Lanes`).
-/

namespace Watermark.Map

open Function Reasoning

variable {cfg : Config}

/-- How many parts the collector has popped from lane `i`. -/
def State.delivered (s : State cfg) (i : Fin cfg.threads) : ℕ := (items (s.popped i)).length

@[simp] theorem delivered_collect (s : State cfg) (i : Fin cfg.threads) (ii : Option Image) :
    (s.collect i ii).delivered = s.delivered := by
  cases ii <;> rfl

theorem delivered_received_some (s : State cfg) (i : Fin cfg.threads) (ii : Image)
    (q : Queue (Option Image)) :
    (s.received i (some ii) q).delivered = update s.delivered i (s.delivered i + 1) := by
  funext j
  by_cases hj : j = i
  · subst hj
    simp [State.delivered, State.received]
  · simp [State.delivered, State.received, update_of_ne hj]

theorem delivered_received_none (s : State cfg) (i : Fin cfg.threads)
    (q : Queue (Option Image)) : (s.received i none q).delivered = s.delivered := by
  funext j
  by_cases hj : j = i
  · subst hj
    simp [State.delivered, State.received]
  · simp [State.delivered, State.received, update_of_ne hj]

-- The next part of a lane is a part of the next photo.
theorem next_part (hneg : 0 ≤ cfg.number_workers) {s : State cfg} (hs : (system cfg).Reachable s)
    {i : Fin cfg.threads} {ii : Image} {q : Queue (Option Image)}
    (hq : (s.worker_to_collecter i).contents = some ii :: q.contents) :
    s.delivered i < cfg.copies.length ∧ ii.Pho_title = photoTitle (s.delivered i) ∧
      ii.P_Pointer = s.delivered i := by
  have hlane := laneInv hneg hs i
  rw [rest_received hq] at hlane
  have hnext := next_item hlane
  obtain ⟨hlt, hget⟩ := List.getElem?_eq_some_iff.mp hnext
  have hlen : (items (s.popped i)).length < cfg.copies.length := by
    simpa [Config.lane, Config.photos] using hlt
  simp only [Config.lane, Config.photos, List.getElem_map, List.getElem_range] at hget
  refine ⟨hlen, ?_, ?_⟩
  · rw [← hget]
    rfl
  · rw [← hget]
    rfl

/-! ## The collector's variables -/

/-- `counter` counts the marks and `results` the parts popped so far. -/
structure State.CountInv (s : State cfg) : Prop where
  counter : s.collector.counter = ∑ i, marks (s.popped i)
  results : ∀ k < cfg.copies.length,
    (s.collector.results (photoTitle k)).length = Lanes.arrived s.delivered k
  no_other : ∀ title, (∀ k < cfg.copies.length, title ≠ photoTitle k) →
    s.collector.results title = []

theorem countInv_received_some (hneg : 0 ≤ cfg.number_workers) {s : State cfg}
    (hs : (system cfg).Reachable s) (h : s.CountInv) {i : Fin cfg.threads} {ii : Image}
    {q : Queue (Option Image)}
    (hq : (s.worker_to_collecter i).contents = some ii :: q.contents) :
    ((s.received i (some ii) q).collect i (some ii)).CountInv := by
  obtain ⟨hlt, htitle, _⟩ := next_part hneg hs hq
  refine ⟨?_, fun k hk => ?_, fun title hno => ?_⟩
  · change s.collector.counter = ∑ j, marks (update s.popped i (s.popped i ++ [some ii]) j)
    rw [h.counter, sum_update_eq marks s.popped i (s.popped i ++ [some ii]) (by simp)]
  · rw [delivered_collect, delivered_received_some]
    change (update s.collector.results ii.Pho_title (s.collector.results ii.Pho_title ++ [ii])
      (photoTitle k)).length = _
    by_cases hki : k = s.delivered i
    · rw [hki, ← htitle, update_self, List.length_append, htitle, h.results _ hlt,
        Lanes.arrived_next]
      rfl
    · have hne : photoTitle k ≠ ii.Pho_title := fun heq =>
        hki (photoTitle_injective (heq.trans htitle))
      rw [update_of_ne hne, h.results k hk, Lanes.arrived_other i hki]
  · have hne : title ≠ ii.Pho_title := fun heq => hno _ hlt (heq.trans htitle)
    change update s.collector.results ii.Pho_title (s.collector.results ii.Pho_title ++ [ii])
      title = []
    rw [update_of_ne hne]
    exact h.no_other title hno

theorem countInv_received_none {s : State cfg} (h : s.CountInv) (i : Fin cfg.threads)
    (q : Queue (Option Image)) : ((s.received i none q).collect i none).CountInv := by
  refine ⟨?_, fun k hk => ?_, h.no_other⟩
  · have hsum := sum_update marks s.popped i (s.popped i ++ [none])
    rw [marks_append, marks_none, marks_nil, ← h.counter] at hsum
    change s.collector.counter + 1 = ∑ j, marks (update s.popped i (s.popped i ++ [none]) j)
    omega
  · rw [delivered_collect, delivered_received_none]
    exact h.results k hk

theorem countInv (hneg : 0 ≤ cfg.number_workers) {s : State cfg} (hs : (system cfg).Reachable s) :
    s.CountInv := by
  refine step_invariant ?_ ?_ ?_ ?_ hs
  · refine ⟨?_, fun k _ => (Lanes.arrived_zero k).symm, fun _ _ => rfl⟩
    exact (Finset.sum_const_zero).symm
  · intro s t _ ih h
    cases h <;> exact ⟨ih.counter, ih.results, ih.no_other⟩
  · intro s id ms t _ ih h
    cases h <;> exact ⟨ih.counter, ih.results, ih.no_other⟩
  · intro s t hr ih h
    cases h with
    | skip hp hq => exact ⟨ih.counter, ih.results, ih.no_other⟩
    | found hp hq => exact ⟨ih.counter, ih.results, ih.no_other⟩
    | @take i ii q hp hq =>
        cases ii with
        | some ii => exact countInv_received_some hneg hr ih hq
        | none => exact countInv_received_none ih i q

/-! ## images_done -/

/-- The photos of `images_done` are the first `m`, in order, and these are the ones of which all
parts have arrived. -/
def State.DoneInv (s : State cfg) : Prop :=
  ∃ m, Lanes.Complete s.delivered m ∧
    s.images_done.map (fun ii => (ii.Pho_title, ii.P_Pointer)) =
      (List.range m).map fun k => (photoTitle k, k)

theorem doneInv_received_some (hn : 0 < cfg.threads) {s : State cfg}
    (hs : (system cfg).Reachable s) (h : s.DoneInv) {i : Fin cfg.threads} {ii : Image}
    {q : Queue (Option Image)}
    (hq : (s.worker_to_collecter i).contents = some ii :: q.contents) :
    ((s.received i (some ii) q).collect i (some ii)).DoneInv := by
  have hneg := number_workers_nonneg hn
  obtain ⟨hlt, htitle, hptr⟩ := next_part hneg hs hq
  obtain ⟨m, hm, hdone⟩ := h
  -- `results[ii->Pho_title].size()` after the push
  have hsize : (update s.collector.results ii.Pho_title (s.collector.results ii.Pho_title ++ [ii])
      ii.Pho_title).length =
      Lanes.arrived (update s.delivered i (s.delivered i + 1)) (s.delivered i) := by
    rw [update_self, List.length_append, htitle, (countInv hneg hs).results _ hlt,
      Lanes.arrived_next]
    rfl
  by_cases hall : Lanes.arrived (update s.delivered i (s.delivered i + 1)) (s.delivered i) =
      cfg.threads
  · obtain ⟨him, hnext⟩ := hm.next i (by rw [hall, Fintype.card_fin])
    refine ⟨m + 1, ?_, ?_⟩
    · rw [delivered_collect, delivered_received_some]
      exact hnext
    · have hpush : ((s.received i (some ii) q).collect i (some ii)).images_done =
          s.images_done ++ [ii] := by
        change (if (_ : ℤ) = cfg.number_workers then s.images_done ++ [ii] else s.images_done) = _
        rw [if_pos]
        rw [number_workers_eq hn]
        exact congrArg Nat.cast (hsize.trans hall)
      rw [hpush, List.map_append, hdone, List.range_succ, List.map_append]
      simp only [List.map_cons, List.map_nil, htitle, hptr, him]
  · have hsame := hm.same i (by rwa [Fintype.card_fin])
    refine ⟨m, ?_, ?_⟩
    · rw [delivered_collect, delivered_received_some]
      exact hsame
    · have hkeep : ((s.received i (some ii) q).collect i (some ii)).images_done =
          s.images_done := by
        change (if (_ : ℤ) = cfg.number_workers then s.images_done ++ [ii] else s.images_done) = _
        rw [if_neg]
        intro heq
        rw [number_workers_eq hn] at heq
        exact hall (hsize.symm.trans (Int.ofNat_inj.mp heq))
      rw [hkeep]
      exact hdone

theorem doneInv (hn : 0 < cfg.threads) {s : State cfg} (hs : (system cfg).Reachable s) :
    s.DoneInv := by
  have : Nonempty (Fin cfg.threads) := ⟨⟨0, hn⟩⟩
  refine step_invariant ?_ ?_ ?_ ?_ hs
  · exact ⟨0, Lanes.complete_zero, rfl⟩
  · intro s t _ ih h
    cases h <;> exact ih
  · intro s id ms t _ ih h
    cases h <;> exact ih
  · intro s t hr ih h
    cases h with
    | skip hp hq => exact ih
    | found hp hq => exact ih
    | @take i ii q hp hq =>
        cases ii with
        | some ii => exact doneInv_received_some hn hr ih hq
        | none =>
            obtain ⟨m, hm, hdone⟩ := ih
            refine ⟨m, ?_, hdone⟩
            rw [delivered_collect, delivered_received_none]
            exact hm

/-! ## The loop of the collector -/

theorem Poll.whileTest_eq_returned {n counter : ℕ} (h : Poll.whileTest n counter = .returned) :
    n ≤ counter := by
  unfold whileTest at h
  split at h
  · cases h
  · omega

theorem Poll.next_eq_returned {n counter : ℕ} {i : Fin n} (h : Poll.next counter i = .returned) :
    n ≤ counter := by
  unfold next at h
  split at h
  · cases h
  · exact whileTest_eq_returned h

theorem Poll.next_ne_pop {n counter : ℕ} {i j : Fin n} : Poll.next counter i ≠ .pop j := by
  unfold next whileTest
  split
  · simp
  · split <;> simp

/-- The collector leaves its loop by the test of `counter`, and a queue it has found non-empty
stays so until it pops. -/
structure State.PollInv (s : State cfg) : Prop where
  pop : ∀ i, s.collector.poll = .pop i → (s.worker_to_collecter i).contents ≠ []
  returned : s.collector.poll = .returned → cfg.threads ≤ s.collector.counter

theorem forward_ne_nil {s : State cfg} {i j : Fin cfg.threads} (ii : Option Image)
    (h : (s.worker_to_collecter i).contents ≠ []) :
    ((s.forward j ii).worker_to_collecter i).contents ≠ [] := by
  change (update s.worker_to_collecter j _ i).contents ≠ []
  by_cases hij : i = j
  · subst hij
    rw [update_self, Queue.contents_push]
    exact List.append_ne_nil_of_right_ne_nil _ (List.cons_ne_nil _ _)
  · rwa [update_of_ne hij]

theorem pollInv {s : State cfg} (hs : (system cfg).Reachable s) : s.PollInv := by
  refine step_invariant ?_ ?_ ?_ ?_ hs
  · refine ⟨fun i hp => ?_, Poll.whileTest_eq_returned⟩
    change Poll.whileTest cfg.threads 0 = .pop i at hp
    unfold Poll.whileTest at hp
    split at hp <;> cases hp
  · intro s t _ ih h
    cases h <;> exact ⟨ih.pop, ih.returned⟩
  · intro s id ms t _ ih h
    cases h with
    | push hw ht => exact ⟨fun i hp => forward_ne_nil _ (ih.pop i hp), ih.returned⟩
    | pushEos hw => exact ⟨fun i hp => forward_ne_nil _ (ih.pop i hp), ih.returned⟩
    | _ => exact ⟨ih.pop, ih.returned⟩
  · intro s t _ ih h
    cases h with
    | skip hp hq => exact ⟨fun i hp => absurd hp Poll.next_ne_pop, Poll.next_eq_returned⟩
    | @found i hp hq =>
        refine ⟨fun j hp => ?_, fun hp => by cases hp⟩
        cases hp
        exact hq
    | @take i ii q hp hq =>
        cases ii with
        | some ii => exact ⟨fun j hp => absurd hp Poll.next_ne_pop, Poll.next_eq_returned⟩
        | none => exact ⟨fun j hp => absurd hp Poll.next_ne_pop, Poll.next_eq_returned⟩

/-! ## When the collector has its marks -/

theorem counter_le (hneg : 0 ≤ cfg.number_workers) {s : State cfg}
    (hs : (system cfg).Reachable s) : s.collector.counter ≤ cfg.threads := by
  have hbound : ∑ j, marks (s.popped j) ≤ ∑ _j : Fin cfg.threads, 1 :=
    Finset.sum_le_sum fun j _ => marks_popped_le hneg hs j
  rw [Finset.sum_const, Finset.card_univ, smul_eq_mul, mul_one, Fintype.card_fin] at hbound
  rwa [(countInv hneg hs).counter]

-- With as many marks as workers, there is one from each lane.
theorem marks_of_counter (hneg : 0 ≤ cfg.number_workers) {s : State cfg}
    (hs : (system cfg).Reachable s) (hc : cfg.threads ≤ s.collector.counter)
    (i : Fin cfg.threads) : marks (s.popped i) = 1 := by
  have hsum : ∑ j, marks (s.popped j) = Fintype.card (Fin cfg.threads) := by
    rw [Fintype.card_fin, ← (countInv hneg hs).counter]
    exact (counter_le hneg hs).antisymm hc
  exact eq_one_of_sum_eq_card _ (marks_popped_le hneg hs) hsum i

theorem rest_of_counter (hneg : 0 ≤ cfg.number_workers) {s : State cfg}
    (hs : (system cfg).Reachable s) (hc : cfg.threads ≤ s.collector.counter)
    (i : Fin cfg.threads) : s.rest i = [] :=
  (rest_eq_nil_iff hneg hs i).mpr (marks_of_counter hneg hs hc i)

theorem queues_of_rest {s : State cfg} {i : Fin cfg.threads} (h : s.rest i = []) :
    (s.Scatter_to_worker i).contents = [] ∧ (s.worker_to_collecter i).contents = [] := by
  simp only [State.rest, State.inbound, List.append_eq_nil_iff] at h
  exact ⟨h.2.1, h.1.1⟩

-- An empty lane has delivered a part of every photo.
theorem delivered_of_rest (hneg : 0 ≤ cfg.number_workers) {s : State cfg}
    (hs : (system cfg).Reachable s) {i : Fin cfg.threads} (hr : s.rest i = []) :
    s.delivered i = cfg.copies.length := by
  have hlane := congrArg items (laneInv hneg hs i)
  rw [hr, List.append_nil, items_stream] at hlane
  unfold State.delivered
  rw [hlane]
  simp [Config.lane, Config.photos]

theorem titles_photos (cfg : Config) :
    cfg.photos.map Image.Pho_title = (List.range cfg.copies.length).map photoTitle := by
  simp only [Config.photos, List.map_map]
  rfl

theorem titles_done {s : State cfg} {m : ℕ}
    (h : s.images_done.map (fun ii => (ii.Pho_title, ii.P_Pointer)) =
      (List.range m).map fun k => (photoTitle k, k)) :
    s.images_done.map Image.Pho_title = (List.range m).map photoTitle := by
  have htitles := congrArg (List.map Prod.fst) h
  simpa only [List.map_map, comp_def] using htitles

-- No photo becomes complete that is not there.
theorem done_le (hneg : 0 ≤ cfg.number_workers) (hn : 0 < cfg.threads) {s : State cfg}
    (hs : (system cfg).Reachable s) {m : ℕ} (hm : Lanes.Complete s.delivered m) :
    m ≤ cfg.copies.length := by
  have hlane := congrArg items (laneInv hneg hs ⟨0, hn⟩)
  rw [items_append, items_stream] at hlane
  have hlen : s.delivered ⟨0, hn⟩ ≤ cfg.copies.length := by
    have := congrArg List.length hlane
    rw [List.length_append] at this
    simp only [Config.lane, Config.photos, List.length_map, List.length_range] at this
    unfold State.delivered
    omega
  by_contra hlt
  have := (hm cfg.copies.length).mp (by omega) ⟨0, hn⟩
  omega

-- When the collector has returned, `images_done` is all photos in order.
theorem done_of_returned (hn : 0 < cfg.threads) {s : State cfg} (hs : (system cfg).Reachable s)
    (hret : s.collector.poll = .returned) :
    s.images_done.map (fun ii => (ii.Pho_title, ii.P_Pointer)) =
      (List.range cfg.copies.length).map fun k => (photoTitle k, k) := by
  have : Nonempty (Fin cfg.threads) := ⟨⟨0, hn⟩⟩
  have hneg := number_workers_nonneg hn
  have hrest := rest_of_counter hneg hs ((pollInv hs).returned hret)
  obtain ⟨m, hm, hdone⟩ := doneInv hn hs
  rw [hdone, hm.of_const fun i => delivered_of_rest hneg hs (hrest i)]

/-- In every interleaving `images_done` is a prefix of `photos`, and when the collector returns
it is all of them, each with its parts, and nothing is left in any queue. -/
theorem keeps_all_in_order (cfg : Config) (hn : 1 ≤ cfg.number_workers) {s : State cfg}
    (hs : (system cfg).Reachable s) :
    s.images_done.map Image.Pho_title <+: cfg.photos.map Image.Pho_title ∧
    (s.collector.poll = .returned →
      s.images_done.map Image.Pho_title = cfg.photos.map Image.Pho_title ∧
      (s.images_done.map Image.Pho_title).Nodup ∧
      (∀ ii ∈ cfg.photos,
        ((s.collector.results ii.Pho_title).length : ℤ) = cfg.number_workers) ∧
      (∀ title, title ∉ cfg.photos.map Image.Pho_title → s.collector.results title = []) ∧
      ∀ i, (s.Scatter_to_worker i).contents = [] ∧ (s.worker_to_collecter i).contents = []) := by
  have hneg : 0 ≤ cfg.number_workers := by omega
  have hpos : 0 < cfg.threads := by
    unfold Config.threads
    omega
  refine ⟨?_, fun hret => ?_⟩
  · obtain ⟨m, hm, hdone⟩ := doneInv hpos hs
    obtain ⟨missing, hlen⟩ := Nat.exists_eq_add_of_le (done_le hneg hpos hs hm)
    rw [titles_done hdone, titles_photos, hlen, List.range_add, List.map_append]
    exact List.prefix_append _ _
  · have hrest := rest_of_counter hneg hs ((pollInv hs).returned hret)
    have htitles := titles_done (done_of_returned hpos hs hret)
    refine ⟨?_, ?_, fun ii hii => ?_, fun title hno => ?_, fun i => queues_of_rest (hrest i)⟩
    · rw [htitles, titles_photos]
    · rw [htitles]
      exact List.nodup_range.map photoTitle_injective
    · obtain ⟨k, hk, rfl⟩ := List.mem_map.mp hii
      have hlt := List.mem_range.mp hk
      have harrived : Lanes.arrived s.delivered k = cfg.threads := by
        rw [(Lanes.arrived_eq_card_iff _ _).mpr fun i => by
          rw [delivered_of_rest hneg hs (hrest i)]; exact hlt, Fintype.card_fin]
      rw [(countInv hneg hs).results k hlt, harrived]
      exact (number_workers_eq hpos).symm
    · refine (countInv hneg hs).no_other title fun k hk heq => hno ?_
      rw [titles_photos, heq]
      exact List.mem_map_of_mem (List.mem_range.mpr hk)

/-! ## A complete run -/

/-- One photo of one row and two workers, of which the second gets an empty part. -/
def twoWorkers : Config where
  number_workers := 2
  overlay := onePixelOverlay
  copies := [onePixelPhoto]

def twoWorkersRun : List (Action twoWorkers.threads) :=
  List.replicate 7 .scatter ++ List.replicate 16 (.worker ⟨0, by decide⟩ 0) ++
    List.replicate 5 (.worker ⟨1, by decide⟩ 0) ++ List.replicate 8 .collector

def twoWorkersEnd : State twoWorkers :=
  ((system twoWorkers).exec (system twoWorkers).init twoWorkersRun).get (by decide +kernel)

theorem twoWorkersEnd_reachable : (system twoWorkers).Reachable twoWorkersEnd :=
  System.reachable_get _

theorem keeps_all_in_order_twoWorkers :
    twoWorkersEnd.collector.poll = .returned ∧
      twoWorkersEnd.images_done.map Image.Pho_title = ["0.jpg"] := by
  have hret : twoWorkersEnd.collector.poll = .returned := by decide +kernel
  have h := (keeps_all_in_order twoWorkers (by decide) twoWorkersEnd_reachable).2 hret
  exact ⟨hret, h.1.trans (by decide +kernel)⟩

end Watermark.Map
