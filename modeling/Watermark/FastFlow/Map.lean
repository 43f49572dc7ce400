import Watermark.FastFlow.Invariant
import Watermark.Marking.Parts
import Watermark.Reasoning.Tally

/-!
# Map — the nodes of fastflow_map.cpp

The tasks are the parts of the photos.  With on-demand scheduling they arrive at the collector in
any order, and a photo is completed by whichever of its parts comes last.
-/

namespace Watermark.FastFlow.Map

open Function Reasoning

structure Image where
  Pho_title : String
  total_parts : ℤ
  starting : ℤ
  P_Pointer : ℕ
deriving DecidableEq

/-- `new Image(ph->P_Pointer, chunk, chunk_assigned, ph->Pho_title)` -/
def Image.part (ph : Image) (p : Part) : Image :=
  ⟨ph.Pho_title, p.total_parts, p.starting, ph.P_Pointer⟩

def Image.key (ii : Image) : String × ℕ := (ii.Pho_title, ii.P_Pointer)

/-- `photos.push_back(new Image(app, 0,0, title))` -/
def photos (cfg : Config) : List Image :=
  cfg.keys.map fun (title, i) => ⟨title, 0, 0, i⟩

/-- `firstStage::svc`: the loop it is in. -/
inductive Emitter where
  -- at the head of the outer loop
  | photos (left : List Image)
  -- at the head of the inner loop for `ph`
  | parts (ph : Image) (left : List Image) (v : PartLoop)
deriving DecidableEq

/-- `firstStage::svc`; it runs only if there are workers, so it does not divide by zero. -/
def firstStage (number_of_workers : ℤ) (heap : ℕ → CImg) :
    Emitter → Option (Option Image × Emitter)
  | .photos [] => none
  | .photos (ph :: left) =>
    let height := (heap ph.P_Pointer).height
    some (none, .parts ph left (PartLoop.enter height number_of_workers))
  | .parts ph left v =>
    if (v.i : ℤ) < number_of_workers then
      let (part, v') := v.body
      some (some (ph.part part), .parts ph left v')
    else some (none, .photos left)

/-- `Worker::svc` -/
def worker (heap : ℕ → CImg) (ii : Image) : Marking :=
  Marking.start ii.P_Pointer (forPart (heap ii.P_Pointer) ii.starting ii.total_parts)

structure Collector where
  results : String → List Image
  photos_completed : List Image

/-- `lastStage::svc` -/
def lastStage (number_of_workers : ℤ) (c : Collector) (ph : Image) : Collector :=
  let results := update c.results ph.Pho_title (c.results ph.Pho_title ++ [ph])
  { results
    photos_completed := if ((results ph.Pho_title).length : ℤ) = number_of_workers then
      c.photos_completed ++ [ph] else c.photos_completed }

def program (cfg : Config) : Program Image Emitter Collector where
  threads := cfg.threads
  overlay := cfg.overlay
  copies := cfg.copies
  emitter := .photos (photos cfg)
  collector := ⟨fun _ => [], []⟩
  emit := firstStage cfg.number_of_workers
  svc := worker
  stamp _ ms := ms
  collect := lastStage cfg.number_of_workers

variable {cfg : Config}

/-! ## The emitter -/

/-- The parts of a photo, in the order in which they are sent. -/
def parts (cfg : Config) (ph : Image) : List Image :=
  (partsOf (loadHeap cfg.copies ph.P_Pointer).height cfg.number_of_workers).map ph.part

/-- The parts the emitter has not sent. -/
def future (cfg : Config) : Emitter → List Image
  | .photos left => left.flatMap (parts cfg)
  | .parts ph left v =>
    (PartLoop.run (cfg.threads - v.i) v).map ph.part ++ left.flatMap (parts cfg)

/-- The rounds of the outer loop, and the leaving of the inner one. -/
def fuel : Emitter → ℕ
  | .photos left => 2 * left.length
  | .parts _ left _ => 2 * left.length + 1

theorem firstStage_skip {heap : ℕ → CImg} (hdims : SameDims cfg.copies heap) {e e' : Emitter}
    (h : firstStage cfg.number_of_workers heap e = some (none, e')) :
    future cfg e' = future cfg e ∧ fuel e' < fuel e := by
  unfold firstStage at h
  split at h
  · cases h
  · rename_i ph left
    cases h
    refine ⟨?_, ?_⟩
    · simp only [future, List.flatMap_cons, parts, partsOf, (hdims ph.P_Pointer).2.1]
      rfl
    · simp only [fuel, List.length_cons]
      omega
  · rename_i ph left v
    split at h
    · cases h
    · rename_i hv
      cases h
      -- the inner loop has run through all workers
      have hzero : cfg.threads - v.i = 0 := by
        unfold Config.threads
        omega
      refine ⟨?_, ?_⟩
      · simp only [future, hzero, PartLoop.run, List.map_nil, List.nil_append]
      · simp only [fuel]
        omega

theorem firstStage_send {heap : ℕ → CImg} {e e' : Emitter} {ii : Image}
    (h : firstStage cfg.number_of_workers heap e = some (some ii, e')) :
    future cfg e = ii :: future cfg e' ∧ fuel e' ≤ fuel e := by
  unfold firstStage at h
  split at h
  · cases h
  · cases h
  · rename_i ph left v
    split at h
    · rename_i hv
      cases h
      have hsucc : cfg.threads - v.i = (cfg.threads - (v.i + 1)) + 1 := by
        unfold Config.threads
        omega
      refine ⟨?_, Nat.le_refl _⟩
      simp only [future, hsucc, PartLoop.run, List.map_cons, List.cons_append]
      rfl
    · cases h

theorem firstStage_stop {heap : ℕ → CImg} {e : Emitter}
    (h : firstStage cfg.number_of_workers heap e = none) : future cfg e = [] := by
  unfold firstStage at h
  split at h
  · rfl
  · cases h
  · split at h <;> cases h

theorem parts_eq (hn : 0 < cfg.threads) (ph : Image) :
    parts cfg ph = (List.range cfg.threads).map fun i =>
      ph.part (balancedPart (loadHeap cfg.copies ph.P_Pointer).height cfg.threads i) := by
  have hcast : cfg.number_of_workers = (cfg.threads : ℤ) := by
    unfold Config.threads at hn ⊢
    omega
  unfold parts
  rw [hcast, partsOf_eq, List.map_map]
  rfl

-- The parts of a photo visit each of its pixels.
theorem work_parts (hn : 0 < cfg.threads) (ph : Image) :
    ((parts cfg ph).map fun ii => (worker (loadHeap cfg.copies) ii).work).sum =
      visits ph.P_Pointer (forXY (loadHeap cfg.copies ph.P_Pointer)) := by
  rw [parts_eq hn, List.map_map, ← flatMap_forPart _ hn, visits_flatMap]
  apply congrArg List.sum
  apply List.map_congr_left
  intro i _
  exact work_start _ _

theorem work_flatMap_parts (hn : 0 < cfg.threads) (l : List Image) :
    ((l.flatMap (parts cfg)).map fun ii => (worker (loadHeap cfg.copies) ii).work).sum =
      (l.map fun ph => visits ph.P_Pointer (forXY (loadHeap cfg.copies ph.P_Pointer))).sum := by
  induction l with
  | nil => rfl
  | cons ph l ih =>
      rw [List.flatMap_cons, List.map_append, List.sum_append, ih, work_parts hn,
        List.map_cons, List.sum_cons]

theorem lawful (hn : 0 < cfg.threads) : (program cfg).Lawful (future cfg) fuel where
  skip _ _ _ hdims h := firstStage_skip hdims h
  send _ _ _ _ _ h := firstStage_send h
  stop _ _ h := firstStage_stop h
  svc_congr heap ii hdims := by
    change worker heap ii = worker (loadHeap cfg.copies) ii
    unfold worker
    rw [forPart_congr (hdims ii.P_Pointer).1]
    rfl
  covers := by
    change (((photos cfg).flatMap (parts cfg)).map fun ii =>
      (worker (loadHeap cfg.copies) ii).work).sum = _
    have hpointers : (photos cfg).map Image.P_Pointer = List.range cfg.copies.length := by
      rw [← Config.map_snd_keys]
      unfold photos
      rw [List.map_map]
      rfl
    rw [work_flatMap_parts hn]
    unfold allVisits
    change _ = ((List.range cfg.copies.length).map fun k =>
      visits k (forXY (loadHeap cfg.copies k))).sum
    rw [← hpointers, List.map_map]
    rfl

/-! ## The collector -/

-- `results` and `photos_completed` are a tally of the parts by title.
theorem foldl_lastStage (hn : 0 < cfg.threads) (l : List Image) :
    l.foldl (lastStage cfg.number_of_workers) ⟨fun _ => [], []⟩ =
      ⟨(Tally.of Image.Pho_title cfg.threads l).results,
        (Tally.of Image.Pho_title cfg.threads l).completed⟩ := by
  have hfull : ∀ m : ℕ, (m : ℤ) = cfg.number_of_workers ↔ m = cfg.threads := by
    intro m
    unfold Config.threads at hn ⊢
    omega
  induction l using List.reverseRecOn with
  | nil => rfl
  | append_singleton l ph ih =>
      rw [List.foldl_append, ih, Tally.of_concat]
      simp only [List.foldl_cons, List.foldl_nil, lastStage, Tally.add, update_self, hfull]

theorem photos_completed_eq (hn : 0 < cfg.threads) {s : State (program cfg)}
    (hs : (system (program cfg)).Reachable s) : s.collector.photos_completed =
      (Tally.of Image.Pho_title cfg.threads s.collected).completed := by
  have hfold := (collector_eq hs).trans (foldl_lastStage hn s.collected)
  rw [hfold]

theorem count_flatMap_parts (hn : 0 < cfg.threads) (title : String) (l : List Image) :
    ((l.flatMap (parts cfg)).map Image.Pho_title).count title =
      cfg.threads * (l.map Image.Pho_title).count title := by
  -- a photo has one part for each worker, all of its title
  have hparts : ∀ ph, (parts cfg ph).map Image.Pho_title =
      List.replicate cfg.threads ph.Pho_title := by
    intro ph
    rw [parts_eq hn, List.map_map]
    refine List.map_const'.trans ?_
    rw [List.length_range]
  induction l with
  | nil => rfl
  | cons ph l ih =>
      rw [List.flatMap_cons, List.map_append, List.count_append, ih, hparts, List.map_cons,
        List.count_replicate, List.count_cons]
      split
      · rw [Nat.mul_add, Nat.mul_one, Nat.add_comm]
      · rw [Nat.zero_add, Nat.add_zero]

-- There are as many tasks of a title as there are workers, for each photo with that title.
theorem count_tasks (hn : 0 < cfg.threads) (title : String) :
    ((future cfg (.photos (photos cfg))).map Image.Pho_title).count title =
      cfg.threads * (cfg.originals.map Prod.fst).count title := by
  have htitles : (photos cfg).map Image.Pho_title = cfg.originals.map Prod.fst := by
    rw [← Config.map_fst_keys, photos, List.map_map]
    rfl
  rw [← htitles]
  exact count_flatMap_parts hn title _

-- A task has the title and the pointer of a photo.
theorem key_mem_keys (hn : 0 < cfg.threads) {ii : Image}
    (h : ii ∈ future cfg (.photos (photos cfg))) : ii.key ∈ cfg.keys := by
  obtain ⟨ph, hph, hii⟩ := List.mem_flatMap.mp h
  rw [parts_eq hn] at hii
  obtain ⟨i, _, rfl⟩ := List.mem_map.mp hii
  obtain ⟨key, hkey, rfl⟩ := List.mem_map.mp hph
  exact hkey

-- Pending and collected parts of a title.
theorem count_pending (hn : 0 < cfg.threads) {s : State (program cfg)}
    (hs : (system (program cfg)).Reachable s) (title : String) :
    ((s.pending (future cfg)).map Image.Pho_title).count title +
        (s.collected.map Image.Pho_title).count title =
      cfg.threads * (cfg.originals.map Prod.fst).count title := by
  have htasks := congrArg (fun m => (m.map Image.Pho_title).count title)
    (pending_add_collected (lawful hn) hs)
  rw [← count_tasks hn title, ← Multiset.coe_count, ← Multiset.coe_count, ← Multiset.map_coe,
    ← Multiset.map_coe, ← Multiset.count_add, ← Multiset.map_add]
  exact htasks

-- A title is in `photos_completed` once all its parts have arrived, and once only.
theorem count_completed (hn : 0 < cfg.threads) (htitles : (cfg.originals.map Prod.fst).Nodup)
    {s : State (program cfg)} (hs : (system (program cfg)).Reachable s) (title : String) :
    (s.collector.photos_completed.map Image.Pho_title).count title =
      if (s.collected.map Image.Pho_title).count title = cfg.threads then 1 else 0 := by
  rw [photos_completed_eq hn hs]
  apply Tally.count_completed _ hn
  intro title
  have hpending := count_pending hn hs title
  have honce := List.nodup_iff_count_le_one.mp htitles title
  have hle := Nat.mul_le_mul_left cfg.threads honce
  omega

theorem mem_future_of_completed (hn : 0 < cfg.threads) {s : State (program cfg)}
    (hs : (system (program cfg)).Reachable s) {ii : Image}
    (hd : ii ∈ s.collector.photos_completed) : ii ∈ future cfg (.photos (photos cfg)) := by
  rw [photos_completed_eq hn hs] at hd
  have hcollected := Tally.mem_of_mem_completed _ _ hd
  have htasks := pending_add_collected (lawful hn) hs
  have hmem : ii ∈ (↑(future cfg (program cfg).emitter) : Multiset Image) := by
    rw [← htasks]
    exact Multiset.mem_add.mpr (Or.inr hcollected)
  exact Multiset.mem_coe.mp hmem

-- No part of a completed photo is pending.
theorem not_pending (hn : 0 < cfg.threads) (htitles : (cfg.originals.map Prod.fst).Nodup)
    {s : State (program cfg)} (hs : (system (program cfg)).Reachable s) {ii task : Image}
    (hd : ii ∈ s.collector.photos_completed) (htask : task ∈ s.pending (future cfg)) :
    task.Pho_title ≠ ii.Pho_title := by
  intro heq
  have hone : 0 < (s.collector.photos_completed.map Image.Pho_title).count ii.Pho_title :=
    List.count_pos_iff.mpr (List.mem_map_of_mem hd)
  rw [count_completed hn htitles hs] at hone
  have hfull : (s.collected.map Image.Pho_title).count ii.Pho_title = cfg.threads := by
    by_contra hne
    rw [if_neg hne] at hone
    exact Nat.lt_irrefl 0 hone
  have hpos : 0 < ((s.pending (future cfg)).map Image.Pho_title).count ii.Pho_title := by
    apply Multiset.count_pos.mpr
    rw [← heq]
    exact Multiset.mem_map_of_mem _ htask
  have hpending := count_pending hn hs ii.Pho_title
  have honce := List.nodup_iff_count_le_one.mp htitles ii.Pho_title
  have hle := Nat.mul_le_mul_left cfg.threads honce
  omega

theorem keys_unique {title title' : String} {k : ℕ} (h : (title, k) ∈ cfg.keys)
    (h' : (title', k) ∈ cfg.keys) : title = title' := by
  obtain ⟨⟨original, i⟩, hmem, heq⟩ := List.mem_map.mp h
  obtain ⟨⟨original', i'⟩, hmem', heq'⟩ := List.mem_map.mp h'
  cases heq
  cases heq'
  have hget := (List.mem_zipIdx_iff_getElem?).mp hmem
  have hget' := (List.mem_zipIdx_iff_getElem?).mp hmem'
  rw [hget] at hget'
  cases hget'
  rfl

theorem pointer_lt (hn : 0 < cfg.threads) {s : State (program cfg)}
    (hs : (system (program cfg)).Reachable s) {ii : Image}
    (hd : ii ∈ s.collector.photos_completed) : ii.P_Pointer < cfg.copies.length := by
  have hkey := key_mem_keys hn (mem_future_of_completed hn hs hd)
  apply List.mem_range.mp
  rw [← Config.map_snd_keys]
  exact List.mem_map_of_mem hkey

-- A photo enters `photos_completed` when each of its pixels has been visited once, and its buffer
-- stays what sequential.cpp makes of it.
theorem marked_of_completed (hn : 0 < cfg.threads)
    (htitles : (cfg.originals.map Prod.fst).Nodup) {s : State (program cfg)}
    (hs : (system (program cfg)).Reachable s) {ii : Image}
    (hd : ii ∈ s.collector.photos_completed) :
    s.memory.heap ii.P_Pointer = (program cfg).sequential ii.P_Pointer ∧
      ∀ p, (loadHeap cfg.copies ii.P_Pointer).Inside p →
        s.memory.timesVisited ii.P_Pointer p = 1 := by
  have hmem := (inv (lawful hn) hs).memory
  have hkey := key_mem_keys hn (mem_future_of_completed hn hs hd)
  have hwork : ∀ e ∈ s.work (future cfg), e.1.1 ≠ ii.P_Pointer := by
    intro e he heq
    obtain ⟨task, htask, hphoto⟩ := photo_of_mem_work (lawful hn) hs he
    have hfuture : task ∈ future cfg (.photos (photos cfg)) := by
      apply Multiset.mem_coe.mp
      change task ∈ (↑(future cfg (program cfg).emitter) : Multiset Image)
      rw [← pending_add_collected (lawful hn) hs]
      exact Multiset.mem_add.mpr (Or.inl htask)
    have hptr : task.P_Pointer = ii.P_Pointer := hphoto.symm.trans heq
    have htaskKey : (task.Pho_title, ii.P_Pointer) ∈ cfg.keys := hptr ▸ key_mem_keys hn hfuture
    exact not_pending hn htitles hs hd htask (keys_unique htaskKey hkey)
  refine ⟨hmem.heap_eq hwork, fun p hp => hmem.count_visited hwork ?_⟩
  exact Multiset.mem_map.mpr
    ⟨((_, p), .test), mem_allVisits.mpr ⟨pointer_lt hn hs hd, hp, rfl⟩, rfl⟩

/-! ## The end -/

-- At the end `photos_completed` has the titles of the photos,
theorem titles_perm (hn : 0 < cfg.threads) (htitles : (cfg.originals.map Prod.fst).Nodup)
    {s : State (program cfg)} (hs : (system (program cfg)).Reachable s) (h : s.Finished) :
    (s.collector.photos_completed.map Image.Pho_title).Perm (cfg.originals.map Prod.fst) := by
  apply List.perm_iff_count.mpr
  intro title
  have hcollected := ((collected_of_finished (lawful hn) hs h).map Image.Pho_title).count_eq title
  have htasks : ((future cfg (.photos (photos cfg))).map Image.Pho_title).count title = _ :=
    count_tasks hn title
  have honce := List.nodup_iff_count_le_one.mp htitles title
  rw [count_completed hn htitles hs, hcollected]
  change (if ((future cfg (.photos (photos cfg))).map Image.Pho_title).count title = cfg.threads
    then 1 else 0) = _
  rw [htasks]
  generalize (cfg.originals.map Prod.fst).count title = c at honce ⊢
  -- a title is not there or is there once
  obtain rfl | rfl : c = 0 ∨ c = 1 := by omega
  · rw [Nat.mul_zero, if_neg (Nat.ne_of_lt hn)]
  · rw [Nat.mul_one, if_pos rfl]

-- and each with its pointer.
theorem keys_perm (hn : 0 < cfg.threads) (htitles : (cfg.originals.map Prod.fst).Nodup)
    {s : State (program cfg)} (hs : (system (program cfg)).Reachable s) (h : s.Finished) :
    (s.collector.photos_completed.map Image.key).Perm cfg.keys := by
  have hperm := titles_perm hn htitles hs h
  have hfst : (s.collector.photos_completed.map Image.key).map Prod.fst =
      s.collector.photos_completed.map Image.Pho_title := by
    rw [List.map_map]
    rfl
  have hnodup : (s.collector.photos_completed.map Image.key).Nodup := by
    apply List.Nodup.of_map Prod.fst
    rw [hfst]
    exact hperm.nodup_iff.mpr htitles
  have hsub : s.collector.photos_completed.map Image.key ⊆ cfg.keys := by
    intro key hkey
    obtain ⟨ii, hii, rfl⟩ := List.mem_map.mp hkey
    exact key_mem_keys hn (mem_future_of_completed hn hs hii)
  have hlength : cfg.keys.length ≤ (s.collector.photos_completed.map Image.key).length := by
    have hlen := hperm.length_eq
    rw [← Config.map_fst_keys, List.length_map, List.length_map] at hlen
    rw [List.length_map]
    exact hlen.ge
  exact (List.subperm_of_subset hnodup hsub).perm_of_length_le hlength

/-- What the program leaves of the photos in `photos_completed`. -/
def results (s : State (program cfg)) : List (String × CImg) :=
  s.collector.photos_completed.map fun ii => (ii.Pho_title, s.memory.heap ii.P_Pointer)

end Watermark.FastFlow.Map
