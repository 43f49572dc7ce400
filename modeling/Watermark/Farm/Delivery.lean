import Watermark.Farm.Invariant
import Watermark.Sequential

/-!
# Delivery — farm.cpp processes every photo once
-/

namespace Watermark.Farm

open Function Reasoning

variable {cfg : Config}

theorem nodup_photos (cfg : Config) : cfg.photos.Nodup := by
  unfold Config.photos
  exact List.nodup_range.map fun i j h => (Image.mk.inj h).2

theorem length_photos (cfg : Config) : cfg.photos.length = cfg.copies.length := by
  unfold Config.photos
  rw [List.length_map, List.length_range]

/-- How often a photo stands in any place: with the emitter, in `original_photos`, in the hands of
the workers, in `marked_photos` and in `Photos_Done`. -/
def State.occurrences (s : State cfg) (q : Image) : ℕ :=
  s.emitter.photos.count q + (items s.original_photos.contents).count q +
    ∑ i, (s.workers i).hand.held.count q + (items s.marked_photos.contents).count q +
    s.Photos_Done.count q

theorem occurrences_eq_one {s : State cfg} (hs : (system cfg).Reachable s) {q : Image}
    (hq : q ∈ cfg.photos) : s.occurrences q = 1 := by
  have hcons := (pipelineInv hs).conserved q
  rw [List.count_eq_one_of_mem (nodup_photos cfg) hq] at hcons
  simp only [State.pipeline, State.unsent, Pipeline.delivered, items_append, items_map_some,
    items_replicate, List.append_nil, List.count_append] at hcons
  unfold State.occurrences
  omega

/-! ## When all threads have returned -/

theorem pipeline_returned {s : State cfg} (hr : s.AllReturned) :
    Fintype.card (Fin cfg.threads) ≤ s.pipeline.count := by
  rw [Fintype.card_fin]
  exact Nat.le_of_not_lt fun hlt => hr.2.2 (lt_threads.mpr hlt)

theorem work_returned {s : State cfg} (hr : s.AllReturned) (hrest : s.pipeline.rest = []) :
    s.work = 0 := by
  have hworkers : ∀ i, (s.workers i).work (loadHeap cfg.copies) = 0 := by
    intro i
    rw [hr.2.1 i]
    rfl
  simp only [State.work, State.queuedWork, hrest, items_nil, List.map_nil, List.sum_nil, hworkers,
    Finset.sum_const_zero, add_zero]

-- A photo on which nothing is left to do is marked, each pixel in one visit.
theorem marked_once {s : State cfg} (hs : (system cfg).Reachable s) (hwork : s.work = 0) {k : ℕ}
    (hk : k < cfg.copies.length) :
    s.memory.heap k = markingLoop cfg.overlay cfg.copies[k] ∧
      ∀ p, cfg.copies[k].Inside p → s.memory.timesVisited k p = 1 := by
  have hmem := bufferInv hs
  unfold State.BufferInv at hmem
  rw [hwork] at hmem
  have hcopy := loadHeap_eq hk
  constructor
  · rw [← hcopy]
    exact hmem.heap_eq fun e he => absurd he (Multiset.notMem_zero e)
  · intro p hp
    rw [← hcopy] at hp
    have hcell : (k, p) ∈ (allVisits (loadHeap cfg.copies) cfg.copies.length).map Prod.fst :=
      Multiset.mem_map.mpr ⟨((k, p), .test), mem_allVisits.mpr ⟨hk, hp, rfl⟩, rfl⟩
    exact hmem.count_visited (fun e he => absurd he (Multiset.notMem_zero e)) hcell

/-- What the farm leaves of the photos in `Photos_Done`. -/
def State.results (s : State cfg) : List (String × CImg) :=
  s.Photos_Done.map fun q => (q.Photo_title, s.memory.heap q.P_pointer)

theorem results_perm {s : State cfg} (hs : (system cfg).Reachable s) (hwork : s.work = 0)
    (hdone : s.Photos_Done.Perm cfg.photos) :
    s.results.Perm ((Sequential.Images_Processed cfg.overlay
      (Sequential.load cfg.copies)).map Sequential.Image.result) := by
  have hphotos : cfg.photos.map (fun q => (q.Photo_title, s.memory.heap q.P_pointer)) =
      (Sequential.Images_Processed cfg.overlay
        (Sequential.load cfg.copies)).map Sequential.Image.result := by
    rw [Sequential.results_eq]
    unfold Config.photos
    rw [List.map_map]
    apply List.map_congr_left
    intro k hk
    have hlt := List.mem_range.mp hk
    change (photoTitle k, s.memory.heap k) = _
    rw [(marked_once hs hwork hlt).1, loadHeap_eq hlt]
  unfold State.results
  rw [← hphotos]
  exact hdone.map _

-- What is left when all threads have returned, with at least one worker.
theorem returned_clean (hn : 0 < cfg.threads) {s : State cfg} (hs : (system cfg).Reachable s)
    (hr : s.AllReturned) :
    s.original_photos.contents = [] ∧ s.marked_photos.contents = [] ∧ s.work = 0 ∧
      s.Photos_Done.Perm cfg.photos := by
  have : Nonempty (Fin cfg.threads) := ⟨⟨0, hn⟩⟩
  obtain ⟨hrest, houtput, _, hdone⟩ := (pipelineInv hs).finished (pipeline_returned hr)
  exact ⟨(List.append_eq_nil_iff.mp hrest).1, houtput, work_returned hr hrest, hdone⟩

/-- In every interleaving each photo is in one place at any time, and when all threads have
returned everything has arrived, marked the way sequential.cpp marks it. -/
theorem every_photo_once (cfg : Config) (hn : 1 ≤ cfg.number_of_workers) {s : State cfg}
    (hs : (system cfg).Reachable s) :
    (∀ q ∈ cfg.photos, s.occurrences q = 1) ∧
    (s.AllReturned →
      s.Photos_Done.Perm cfg.photos ∧
      s.original_photos.contents = [] ∧ s.marked_photos.contents = [] ∧
      (∀ i, (items (s.taken i)).Sublist cfg.photos ∧
        (items (s.taken i)).Sublist s.Photos_Done) ∧
      (∀ k (hk : k < cfg.copies.length),
        s.memory.heap k = markingLoop cfg.overlay cfg.copies[k] ∧
        ∀ p, cfg.copies[k].Inside p → s.memory.timesVisited k p = 1) ∧
      s.results.Perm ((Sequential.Images_Processed cfg.overlay
        (Sequential.load cfg.copies)).map Sequential.Image.result)) := by
  refine ⟨fun q hq => occurrences_eq_one hs hq, fun hr => ?_⟩
  have hpos : 0 < cfg.threads := by
    unfold Config.threads
    omega
  have hinv := pipelineInv hs
  obtain ⟨hqueue, houtput, hwork, hdone⟩ := returned_clean hpos hs hr
  have hgone : ∀ i, s.pipeline.hands i = .gone := hinv.all_gone (pipeline_returned hr)
  refine ⟨hdone, hqueue, houtput, fun i => ?_, fun k hk => ?_, ?_⟩
  · exact ⟨(hinv.order i).1, (hinv.order i).2 (hgone i) houtput⟩
  · exact marked_once hs hwork hk
  · exact results_perm hs hwork hdone

/-! ## A complete run -/

instance (s : State cfg) : Decidable s.AllReturned :=
  inferInstanceAs (Decidable ((_ ∧ ¬_) ∧ _ ∧ ¬_))

/-- One photo of one pixel and two workers, of which the second gets a mark only. -/
def twoWorkers : Config where
  number_of_workers := 2
  overlay := onePixelOverlay
  copies := [onePixelPhoto]

def twoWorkersRun : List (Action twoWorkers.threads) :=
  List.replicate 3 .emitter ++ List.replicate 17 (.worker ⟨0, by decide⟩ 0) ++
    List.replicate 2 (.worker ⟨1, by decide⟩ 0) ++ List.replicate 3 (.collector 0)

def twoWorkersEnd : State twoWorkers :=
  ((system twoWorkers).exec (system twoWorkers).init twoWorkersRun).get (by decide +kernel)

theorem twoWorkersEnd_reachable : (system twoWorkers).Reachable twoWorkersEnd :=
  System.reachable_get _

theorem every_photo_once_twoWorkers :
    twoWorkersEnd.AllReturned ∧ twoWorkersEnd.Photos_Done.Perm twoWorkers.photos ∧
      twoWorkersEnd.memory.heap 0 =
        markingLoop twoWorkers.overlay onePixelPhoto := by
  have hr : twoWorkersEnd.AllReturned := by decide +kernel
  have h := (every_photo_once twoWorkers (by decide) twoWorkersEnd_reachable).2 hr
  exact ⟨hr, h.1, (h.2.2.2.2.1 0 (by decide)).1⟩

end Watermark.Farm
