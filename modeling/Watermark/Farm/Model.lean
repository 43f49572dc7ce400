import Watermark.Marking.Thread
import Watermark.Reasoning.System
import Watermark.Reasoning.Threads
import Watermark.Util.Queue
import Watermark.Util.Title

/-!
# Model — farm.cpp: emitter, workers and collector over two shared queues

The threads share `original_photos` and `marked_photos`, two unprotected counters and the photos
themselves.  Each queue operation, each access to a photo and each read or increment of
`counter_worker` is one atomic step.  What a thread does between two of these is local to it and
belongs to the step before.  Of the clock only the stamps that end up in a reported number are
kept; what they show is chosen by the environment.
-/

namespace Watermark.Farm

open Function Reasoning

structure Image where
  Photo_title : String
  P_pointer : ℕ
deriving DecidableEq

/-- The globals as `main` leaves them before it starts the threads; `copies` are the buffers of
`photos`. -/
structure Config where
  number_of_workers : ℤ
  overlay : Overlay
  copies : List CImg

namespace Config

variable (cfg : Config)

/-- `photos.push_back(new Image(app, std::to_string(i) + ".jpg"))` -/
def photos : List Image := (List.range cfg.copies.length).map fun i => ⟨photoTitle i, i⟩

/-- The rounds of `for (int i = 0; i < number_of_workers; i++)`, which spawn a worker each. -/
abbrev threads : ℕ := cfg.number_of_workers.toNat

end Config

/-- `Emitter_Farm`: the photos its first loop has left and the counter of its second. -/
structure Emitter where
  photos : List Image
  i : ℕ
deriving DecidableEq

/-- `Worker_Farm`: the statement the thread is about to execute. -/
inductive Worker where
  -- `Image *q = original_photos.pop()`
  | pop
  -- `counter_worker++` before the loop
  | count (q : Image)
  -- inside the loop, or at `marked_photos.push(q)` when no pixel is left
  | mark (q : Image) (t : Marking)
  -- `if (counter_worker == 1)`
  | test
  -- `ideal_service_time_worker = ...`
  | stamp
  -- `counter_worker++` in the branch
  | bump
  -- `marked_photos.push(EOS)`
  | pushEos
  | returned
deriving DecidableEq

/-- The locals of `Collector_Farm` and the `total_parallel` it sets. -/
structure Collector where
  first_end_of_stream : ℕ
  count : ℕ
  total_parallel : Option ℤ
deriving DecidableEq

structure State (cfg : Config) where
  memory : Memory
  original_photos : Queue (Option Image)
  marked_photos : Queue (Option Image)
  Photos_Done : List Image
  counter_emitter : ℕ
  counter_worker : ℤ
  ideal_service_time_worker : ℤ
  emitter : Emitter
  workers : Fin cfg.threads → Worker
  collector : Collector
  -- history: what each worker has popped
  taken : Fin cfg.threads → List (Option Image)
  -- history: how often the branch `counter_worker == 1` has been taken
  stamps : ℕ

/-- A step of one thread; `ms` is the time span it measures if it looks at the clock. -/
inductive Action (n : ℕ) where
  | emitter
  | worker (i : Fin n) (ms : ℤ)
  | collector (ms : ℤ)
deriving DecidableEq

variable {cfg : Config}

namespace State

def setWorker (s : State cfg) (i : Fin cfg.threads) (w : Worker) : State cfg :=
  { s with workers := update s.workers i w }

/-- `Emitter_Farm` -/
def emitterStep (s : State cfg) : Option (State cfg) :=
  match s.emitter.photos with
  | point :: rest => some { s with
      counter_emitter := if s.counter_emitter = 0 then 1 else s.counter_emitter
      original_photos := s.original_photos.push (some point)
      emitter := { s.emitter with photos := rest } }
  | [] =>
    if (s.emitter.i : ℤ) < cfg.number_of_workers then some { s with
      original_photos := s.original_photos.push none
      emitter := { s.emitter with i := s.emitter.i + 1 } }
    else none

/-- `Worker_Farm` -/
def workerStep (s : State cfg) (i : Fin cfg.threads) (ms : ℤ) : Option (State cfg) :=
  match s.workers i with
  | .pop =>
    match s.original_photos.pop with
    | none => none
    | some (q, original_photos) =>
      let s := { s with original_photos, taken := update s.taken i (s.taken i ++ [q]) }
      match q with
      | some q => some (s.setWorker i (.count q))
      | none => some (s.setWorker i .pushEos)
  | .count q =>
    let t := Marking.start q.P_pointer (forXY (s.memory.heap q.P_pointer))
    some ({ s with counter_worker := s.counter_worker + 1 }.setWorker i (.mark q t))
  | .mark q t =>
    match t.step cfg.overlay s.memory with
    | some (memory, t') => some ({ s with memory }.setWorker i (.mark q t'))
    | none =>
      some ({ s with marked_photos := s.marked_photos.push (some q) }.setWorker i .test)
  | .test => some (s.setWorker i (if s.counter_worker = 1 then .stamp else .pop))
  | .stamp =>
    some ({ s with ideal_service_time_worker := ms, stamps := s.stamps + 1 }.setWorker i .bump)
  | .bump => some ({ s with counter_worker := s.counter_worker + 1 }.setWorker i .pop)
  | .pushEos =>
    some ({ s with marked_photos := s.marked_photos.push none }.setWorker i .returned)
  | .returned => none

/-- `Collector_Farm` -/
def collectorStep (s : State cfg) (ms : ℤ) : Option (State cfg) :=
  if (s.collector.count : ℤ) < cfg.number_of_workers then
    match s.marked_photos.pop with
    | none => none
    | some (none, marked_photos) => some { s with
        marked_photos
        collector := {
          first_end_of_stream := s.collector.first_end_of_stream + 1
          count := s.collector.count + 1
          total_parallel := if s.collector.first_end_of_stream + 1 = 1 then some ms
            else s.collector.total_parallel } }
    | some (some point, marked_photos) => some { s with
        marked_photos
        Photos_Done := s.Photos_Done ++ [point] }
  else none

def step (s : State cfg) : Action cfg.threads → Option (State cfg)
  | .emitter => s.emitterStep
  | .worker i ms => s.workerStep i ms
  | .collector ms => s.collectorStep ms

/-- `Emitter_Farm` has returned. -/
def EmitterReturned (s : State cfg) : Prop :=
  s.emitter.photos = [] ∧ ¬(s.emitter.i : ℤ) < cfg.number_of_workers

/-- `Collector_Farm` has returned. -/
def CollectorReturned (s : State cfg) : Prop :=
  ¬(s.collector.count : ℤ) < cfg.number_of_workers

/-- `main` gets past its joins. -/
def AllReturned (s : State cfg) : Prop :=
  s.EmitterReturned ∧ (∀ i, s.workers i = .returned) ∧ s.CollectorReturned

end State

/-- The threads as `main` starts them. -/
def system (cfg : Config) : System (State cfg) (Action cfg.threads) where
  init := {
    memory := ⟨loadHeap cfg.copies, []⟩
    original_photos := ⟨[]⟩
    marked_photos := ⟨[]⟩
    Photos_Done := []
    counter_emitter := 0
    counter_worker := 0
    ideal_service_time_worker := 0
    emitter := ⟨cfg.photos, 0⟩
    workers := fun _ => .pop
    collector := ⟨0, 0, none⟩
    taken := fun _ => []
    stamps := 0 }
  step := State.step

/-! ## What a step can do -/

/-- The steps of `Emitter_Farm`. -/
inductive EmitterStep (s : State cfg) : State cfg → Prop where
  | photo {point : Image} {rest : List Image} (hp : s.emitter.photos = point :: rest) :
      EmitterStep s { s with
        counter_emitter := if s.counter_emitter = 0 then 1 else s.counter_emitter
        original_photos := s.original_photos.push (some point)
        emitter := { s.emitter with photos := rest } }
  | eos (hp : s.emitter.photos = []) (hi : s.emitter.i < cfg.threads) :
      EmitterStep s { s with
        original_photos := s.original_photos.push none
        emitter := { s.emitter with i := s.emitter.i + 1 } }

/-- The steps of `Worker_Farm` in thread `i`. -/
inductive WorkerStep (s : State cfg) (i : Fin cfg.threads) (ms : ℤ) : State cfg → Prop where
  | popPhoto {q : Image} {original_photos : Queue (Option Image)} (hw : s.workers i = .pop)
      (hq : s.original_photos.contents = some q :: original_photos.contents) :
      WorkerStep s i ms ({ s with
        original_photos, taken := update s.taken i (s.taken i ++ [some q]) }.setWorker i (.count q))
  | popEos {original_photos : Queue (Option Image)} (hw : s.workers i = .pop)
      (hq : s.original_photos.contents = none :: original_photos.contents) :
      WorkerStep s i ms ({ s with
        original_photos, taken := update s.taken i (s.taken i ++ [none]) }.setWorker i .pushEos)
  | count {q : Image} (hw : s.workers i = .count q) :
      WorkerStep s i ms ({ s with counter_worker := s.counter_worker + 1 }.setWorker i
        (.mark q (Marking.start q.P_pointer (forXY (s.memory.heap q.P_pointer)))))
  | mark {q : Image} {t t' : Marking} {memory : Memory} (hw : s.workers i = .mark q t)
      (ht : t.step cfg.overlay s.memory = some (memory, t')) :
      WorkerStep s i ms ({ s with memory }.setWorker i (.mark q t'))
  | push {q : Image} {t : Marking} (hw : s.workers i = .mark q t) (ht : t.todo = []) :
      WorkerStep s i ms
        ({ s with marked_photos := s.marked_photos.push (some q) }.setWorker i .test)
  | testStamp (hw : s.workers i = .test) (hc : s.counter_worker = 1) :
      WorkerStep s i ms (s.setWorker i .stamp)
  | testPop (hw : s.workers i = .test) (hc : s.counter_worker ≠ 1) :
      WorkerStep s i ms (s.setWorker i .pop)
  | stamp (hw : s.workers i = .stamp) :
      WorkerStep s i ms
        ({ s with ideal_service_time_worker := ms, stamps := s.stamps + 1 }.setWorker i .bump)
  | bump (hw : s.workers i = .bump) :
      WorkerStep s i ms ({ s with counter_worker := s.counter_worker + 1 }.setWorker i .pop)
  | pushEos (hw : s.workers i = .pushEos) :
      WorkerStep s i ms
        ({ s with marked_photos := s.marked_photos.push none }.setWorker i .returned)

/-- The steps of `Collector_Farm`. -/
inductive CollectorStep (s : State cfg) (ms : ℤ) : State cfg → Prop where
  | photo {point : Image} {marked_photos : Queue (Option Image)}
      (hc : s.collector.count < cfg.threads)
      (hq : s.marked_photos.contents = some point :: marked_photos.contents) :
      CollectorStep s ms { s with marked_photos, Photos_Done := s.Photos_Done ++ [point] }
  | eos {marked_photos : Queue (Option Image)} (hc : s.collector.count < cfg.threads)
      (hq : s.marked_photos.contents = none :: marked_photos.contents) :
      CollectorStep s ms { s with
        marked_photos
        collector := {
          first_end_of_stream := s.collector.first_end_of_stream + 1
          count := s.collector.count + 1
          total_parallel := if s.collector.first_end_of_stream + 1 = 1 then some ms
            else s.collector.total_parallel } }

theorem lt_threads {n : ℕ} : (n : ℤ) < cfg.number_of_workers ↔ n < cfg.threads :=
  Int.lt_toNat.symm

theorem emitterStep_cases {s t : State cfg} (h : s.emitterStep = some t) : EmitterStep s t := by
  unfold State.emitterStep at h
  split at h
  · rename_i point rest hp
    cases h
    exact .photo hp
  · rename_i hp
    simp only [Option.ite_none_right_eq_some, Option.some.injEq] at h
    obtain ⟨hi, rfl⟩ := h
    exact .eos hp (lt_threads.mp hi)

theorem workerStep_cases {s t : State cfg} {i : Fin cfg.threads} {ms : ℤ}
    (h : s.workerStep i ms = some t) : WorkerStep s i ms t := by
  unfold State.workerStep at h
  cases hw : s.workers i with
  | pop =>
      cases hq : s.original_photos.pop with
      | none => simp [hw, hq] at h
      | some r =>
          obtain ⟨q, original_photos⟩ := r
          have hcons := Queue.contents_of_pop hq
          cases q with
          | none =>
              simp only [hw, hq, Option.some.injEq] at h
              subst h
              exact .popEos hw hcons
          | some q =>
              simp only [hw, hq, Option.some.injEq] at h
              subst h
              exact .popPhoto hw hcons
  | count q =>
      simp only [hw, Option.some.injEq] at h
      subst h
      exact .count hw
  | mark q m =>
      cases ht : m.step cfg.overlay s.memory with
      | none =>
          simp only [hw, ht, Option.some.injEq] at h
          subst h
          exact .push hw (Marking.step_eq_none_iff.mp ht)
      | some r =>
          simp only [hw, ht, Option.some.injEq] at h
          subst h
          exact .mark hw ht
  | test =>
      simp only [hw, Option.some.injEq] at h
      subst h
      split
      · exact .testStamp hw ‹_›
      · exact .testPop hw ‹_›
  | stamp =>
      simp only [hw, Option.some.injEq] at h
      subst h
      exact .stamp hw
  | bump =>
      simp only [hw, Option.some.injEq] at h
      subst h
      exact .bump hw
  | pushEos =>
      simp only [hw, Option.some.injEq] at h
      subst h
      exact .pushEos hw
  | returned => simp [hw] at h

theorem workers_of_workerStep {s t : State cfg} {i : Fin cfg.threads} {ms : ℤ}
    (h : WorkerStep s i ms t) : ∃ w, t.workers = update s.workers i w := by
  cases h <;> exact ⟨_, rfl⟩

theorem collectorStep_cases {s t : State cfg} {ms : ℤ} (h : s.collectorStep ms = some t) :
    CollectorStep s ms t := by
  unfold State.collectorStep at h
  simp only [Option.ite_none_right_eq_some] at h
  obtain ⟨hc, h⟩ := h
  have hlt := lt_threads.mp hc
  cases hq : s.marked_photos.pop with
  | none => simp [hq] at h
  | some r =>
      obtain ⟨point, marked_photos⟩ := r
      have hcons := Queue.contents_of_pop hq
      cases point with
      | none =>
          simp only [hq, Option.some.injEq] at h
          subst h
          exact .eos hlt hcons
      | some point =>
          simp only [hq, Option.some.injEq] at h
          subst h
          exact .photo hlt hcons

/-! ## When a thread can step -/

theorem emitter_enabled {s : State cfg} (h : ¬s.EmitterReturned) :
    (system cfg).Enabled s .emitter := by
  change (s.emitterStep).isSome
  unfold State.emitterStep
  cases hp : s.emitter.photos with
  | nil =>
      have hi : (s.emitter.i : ℤ) < cfg.number_of_workers := by
        by_contra hi
        exact h ⟨hp, hi⟩
      simp [hi]
  | cons point rest => rfl

-- Only a worker at `pop` before an empty queue waits.
theorem worker_enabled {s : State cfg} {i : Fin cfg.threads} (ms : ℤ)
    (hr : s.workers i ≠ .returned)
    (hp : s.workers i = .pop → s.original_photos.contents ≠ []) :
    (system cfg).Enabled s (.worker i ms) := by
  change (s.workerStep i ms).isSome
  unfold State.workerStep
  cases hw : s.workers i with
  | pop =>
      obtain ⟨⟨q, rest⟩, hq⟩ := Queue.exists_pop (hp hw)
      cases q <;> simp [hq]
  | mark q m => cases ht : m.step cfg.overlay s.memory <;> simp [ht]
  | returned => exact absurd hw hr
  | _ => simp

theorem collector_enabled {s : State cfg} (ms : ℤ) (hr : ¬s.CollectorReturned)
    (hq : s.marked_photos.contents ≠ []) : (system cfg).Enabled s (.collector ms) := by
  change (s.collectorStep ms).isSome
  have hc : (s.collector.count : ℤ) < cfg.number_of_workers := not_not.mp hr
  obtain ⟨⟨point, rest⟩, hpop⟩ := Queue.exists_pop hq
  unfold State.collectorStep
  cases point <;> simp [hc, hpop]

end Watermark.Farm
