import Watermark.FastFlow.Invariant

/-!
# Farm — the nodes of fastflow_farm.cpp

The tasks are whole photos.
-/

namespace Watermark.FastFlow.Farm

open Reasoning

structure Image where
  P_pointer : ℕ
  title : String
deriving DecidableEq

/-- `photos.push_back(new Image(app, title))` -/
def photos (cfg : Config) : List Image :=
  cfg.keys.map fun (title, i) => ⟨i, title⟩

/-- `firstStage::svc` at the head of its loop, with counter `i`. -/
def firstStage (photos : List Image) (i : ℕ) : Option (Option Image × ℕ) :=
  if h : i < photos.length then some (some photos[i], i + 1) else none

/-- `Worker::svc` -/
def worker (heap : ℕ → CImg) (q : Image) : Marking :=
  Marking.start q.P_pointer (forXY (heap q.P_pointer))

/-- `lastStage::svc` -/
def lastStage (images_done : List Image) (ph : Image) : List Image := images_done ++ [ph]

def program (cfg : Config) : Program Image ℕ (List Image) where
  threads := cfg.threads
  overlay := cfg.overlay
  copies := cfg.copies
  emitter := 0
  collector := []
  emit _ := firstStage (photos cfg)
  svc := worker
  stamp ideal_service_time_worker ms := ideal_service_time_worker + ms
  collect := lastStage

variable {cfg : Config}

/-- The photos the emitter has not sent when its counter is `i`. -/
def future (cfg : Config) (i : ℕ) : List Image := (photos cfg).drop i

theorem lawful (cfg : Config) : (program cfg).Lawful (future cfg) (fun _ => 0) where
  skip heap i e' _ h := by
    change firstStage (photos cfg) i = _ at h
    unfold firstStage at h
    split at h <;> simp at h
  send heap i task e' _ h := by
    change firstStage (photos cfg) i = _ at h
    unfold firstStage at h
    split at h
    · rename_i hi
      cases h
      exact ⟨List.drop_eq_getElem_cons hi, Nat.le_refl _⟩
    · cases h
  stop heap i h := by
    change firstStage (photos cfg) i = _ at h
    unfold firstStage at h
    split at h
    · cases h
    · rename_i hi
      exact List.drop_eq_nil_of_le (Nat.le_of_not_lt hi)
  svc_congr heap q hdims := by
    change worker heap q = worker (loadHeap cfg.copies) q
    unfold worker
    rw [forXY_congr (hdims q.P_pointer).1 (hdims q.P_pointer).2.1]
    rfl
  covers := by
    have hpointers : (photos cfg).map Image.P_pointer = List.range cfg.copies.length := by
      rw [← Config.map_snd_keys]
      unfold photos
      rw [List.map_map]
      rfl
    have hwork : ∀ q : Image, (worker (loadHeap cfg.copies) q).work =
        visits q.P_pointer (forXY (loadHeap cfg.copies q.P_pointer)) := fun q => work_start _ _
    change ((photos cfg).map fun q => (worker (loadHeap cfg.copies) q).work).sum = _
    unfold allVisits
    change _ = ((List.range cfg.copies.length).map fun k =>
      visits k (forXY (loadHeap cfg.copies k))).sum
    rw [← hpointers, List.map_map]
    simp only [hwork]
    rfl

theorem images_done_eq {s : State (program cfg)} (hs : (system (program cfg)).Reachable s) :
    s.collector = s.collected := by
  have hfold : ∀ l done : List Image, l.foldl lastStage done = done ++ l := by
    intro l
    induction l with
    | nil => exact fun done => (List.append_nil done).symm
    | cons ph l ih =>
        intro done
        rw [List.foldl_cons, ih, lastStage, List.append_assoc]
        rfl
  exact (collector_eq hs).trans (hfold s.collected [])

-- At the end `images_done` holds every photo once.
theorem images_done_perm {s : State (program cfg)} (hs : (system (program cfg)).Reachable s)
    (h : s.Finished) : s.collector.Perm (photos cfg) := by
  rw [images_done_eq hs]
  exact collected_of_finished (lawful cfg) hs h

/-- What the program leaves of the photos in `images_done`. -/
def results (s : State (program cfg)) : List (String × CImg) :=
  s.collector.map fun q => (q.title, s.memory.heap q.P_pointer)

end Watermark.FastFlow.Farm
