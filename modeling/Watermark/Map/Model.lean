import Watermark.Marking.Parts
import Watermark.Marking.Thread
import Watermark.Reasoning.System
import Watermark.Reasoning.Threads
import Watermark.Util.Queue
import Watermark.Util.Title

/-!
# Model — map.cpp: scatter, workers and collector over a pair of queues for each worker

Each photo is cut into as many parts as there are workers; part `i` travels through
`Scatter_to_worker[i]`, worker `i` and `worker_to_collecter[i]`.  The collector polls the queues
in turn and takes a photo for done when it has as many parts of its title as there are workers.
As in the farm, each queue operation, `isEmpty` included, each access to a photo and each access
to `counter_worker` is one atomic step.
-/

namespace Watermark.Map

open Function Reasoning

/-- A photo or a part of one. -/
structure Image where
  Pho_title : String
  total_parts : ℤ
  starting : ℤ
  P_Pointer : ℕ
deriving DecidableEq

/-- `new Image(ii->P_Pointer, partitions, allocation, ii->Pho_title)` -/
def Image.part (ii : Image) (p : Part) : Image :=
  ⟨ii.Pho_title, p.total_parts, p.starting, ii.P_Pointer⟩

/-- The globals as `main` leaves them before it starts the threads. -/
structure Config where
  number_workers : ℤ
  overlay : Overlay
  copies : List CImg

namespace Config

variable (cfg : Config)

/-- `photos.push_back(new Image(copy_pointer,0,0, std::to_string(i)+".jpg"))` -/
def photos : List Image :=
  (List.range cfg.copies.length).map fun i => ⟨photoTitle i, 0, 0, i⟩

/-- The number of worker threads, and the size of both vectors of queues. -/
abbrev threads : ℕ := cfg.number_workers.toNat

end Config

/-- `scatter`: the loop it is in. -/
inductive Scatter where
  -- at the head of the outer loop
  | photos (left : List Image)
  -- at the head of the inner loop for `ii`
  | parts (ii : Image) (left : List Image) (v : PartLoop)
  -- at the head of the second loop
  | eos (i : ℕ)
  -- stopped by a division by zero
  | divided
deriving DecidableEq

/-- `worker`: the statement the thread is about to execute. -/
inductive Worker where
  | pop
  -- inside the loops, or at `worker_to_collecter[id].push(ii)` when no pixel is left
  | mark (ii : Image) (t : Marking)
  -- `if(counter_worker==0)`
  | test
  | stamp
  | bump
  | pushEos
  | returned
deriving DecidableEq

/-- `collector`: the statement the thread is about to execute. -/
inductive Poll (n : ℕ) where
  | isEmpty (i : Fin n)
  | pop (i : Fin n)
  | returned
deriving DecidableEq

structure Collector (n : ℕ) where
  counter : ℕ
  results : String → List Image
  poll : Poll n

structure State (cfg : Config) where
  memory : Memory
  Scatter_to_worker : Fin cfg.threads → Queue (Option Image)
  worker_to_collecter : Fin cfg.threads → Queue (Option Image)
  images_done : List Image
  counter_worker : ℤ
  ideal_service_worker : ℤ
  scatter : Scatter
  workers : Fin cfg.threads → Worker
  collector : Collector cfg.threads
  -- history: what the collector has popped from each queue
  popped : Fin cfg.threads → List (Option Image)

/-- A step of one thread; `ms` is the time span it measures if it looks at the clock. -/
inductive Action (n : ℕ) where
  | scatter
  | worker (i : Fin n) (ms : ℤ)
  | collector
deriving DecidableEq

/-- `while(counter < number_workers)`, and into the first round of the `for` loop. -/
def Poll.whileTest (n counter : ℕ) : Poll n :=
  if h : counter < n then .isEmpty ⟨0, Nat.zero_lt_of_lt h⟩ else .returned

/-- The next round of the `for` loop, or the `while` test after the last one. -/
def Poll.next {n : ℕ} (counter : ℕ) (i : Fin n) : Poll n :=
  if h : i + 1 < n then .isEmpty ⟨i + 1, h⟩ else whileTest n counter

variable {cfg : Config}

namespace State

def setWorker (s : State cfg) (i : Fin cfg.threads) (w : Worker) : State cfg :=
  { s with workers := update s.workers i w }

def setScatter (s : State cfg) (scatter : Scatter) : State cfg := { s with scatter }

/-- `Scatter_to_worker[i].push(point)` -/
def send (s : State cfg) (i : Fin cfg.threads) (point : Option Image) : State cfg :=
  { s with Scatter_to_worker := update s.Scatter_to_worker i ((s.Scatter_to_worker i).push point) }

/-- `worker_to_collecter[id].push(ii)` -/
def forward (s : State cfg) (i : Fin cfg.threads) (ii : Option Image) : State cfg :=
  { s with
    worker_to_collecter := update s.worker_to_collecter i ((s.worker_to_collecter i).push ii) }

/-- `worker_to_collecter[i].pop()` returned `ii`. -/
def received (s : State cfg) (i : Fin cfg.threads) (ii : Option Image)
    (q : Queue (Option Image)) : State cfg :=
  { s with
    worker_to_collecter := update s.worker_to_collecter i q
    popped := update s.popped i (s.popped i ++ [ii]) }

/-- `scatter` -/
def scatterStep (s : State cfg) : Option (State cfg) :=
  match s.scatter with
  | .photos [] => some (s.setScatter (.eos 0))
  | .photos (ii :: left) =>
    if cfg.number_workers = 0 then some (s.setScatter .divided)
    else
      let height := (s.memory.heap ii.P_Pointer).height
      some (s.setScatter (.parts ii left (PartLoop.enter height cfg.number_workers)))
  | .parts ii left v =>
    if h : v.i < cfg.threads then
      let (part, v') := v.body
      some ((s.send ⟨v.i, h⟩ (some (ii.part part))).setScatter (.parts ii left v'))
    else some (s.setScatter (.photos left))
  | .eos i =>
    if h : i < cfg.threads then some ((s.send ⟨i, h⟩ none).setScatter (.eos (i + 1)))
    else none
  | .divided => none

/-- `worker` -/
def workerStep (s : State cfg) (id : Fin cfg.threads) (ms : ℤ) : Option (State cfg) :=
  match s.workers id with
  | .pop =>
    match (s.Scatter_to_worker id).pop with
    | none => none
    | some (ii, q) =>
      let s := { s with Scatter_to_worker := update s.Scatter_to_worker id q }
      match ii with
      | some ii =>
        let pixels := forPart (s.memory.heap ii.P_Pointer) ii.starting ii.total_parts
        some (s.setWorker id (.mark ii (Marking.start ii.P_Pointer pixels)))
      | none => some (s.setWorker id .pushEos)
  | .mark ii t =>
    match t.step cfg.overlay s.memory with
    | some (memory, t') => some ({ s with memory }.setWorker id (.mark ii t'))
    | none => some ((s.forward id (some ii)).setWorker id .test)
  | .test => some (s.setWorker id (if s.counter_worker = 0 then .stamp else .pop))
  | .stamp => some ({ s with ideal_service_worker := ms }.setWorker id .bump)
  | .bump => some ({ s with counter_worker := s.counter_worker + 1 }.setWorker id .pop)
  | .pushEos => some ((s.forward id none).setWorker id .returned)
  | .returned => none

/-- `collector` after `pop` has returned `ii` in round `i`. -/
def collect (s : State cfg) (i : Fin cfg.threads) : Option Image → State cfg
  | some ii =>
    let results := update s.collector.results ii.Pho_title
      (s.collector.results ii.Pho_title ++ [ii])
    { s with
      images_done := if ((results ii.Pho_title).length : ℤ) = cfg.number_workers then
        s.images_done ++ [ii] else s.images_done
      collector := ⟨s.collector.counter, results, Poll.next s.collector.counter i⟩ }
  | none =>
    let counter := s.collector.counter + 1
    { s with collector := ⟨counter, s.collector.results, Poll.next counter i⟩ }

/-- `collector` -/
def collectorStep (s : State cfg) : Option (State cfg) :=
  match s.collector.poll with
  | .isEmpty i =>
    let poll := if (s.worker_to_collecter i).isEmpty then Poll.next s.collector.counter i
      else .pop i
    some { s with collector := { s.collector with poll } }
  | .pop i =>
    match (s.worker_to_collecter i).pop with
    | none => none
    | some (ii, q) => some ((s.received i ii q).collect i ii)
  | .returned => none

def step (s : State cfg) : Action cfg.threads → Option (State cfg)
  | .scatter => s.scatterStep
  | .worker i ms => s.workerStep i ms
  | .collector => s.collectorStep

/-- `scatter` has returned. -/
def ScatterReturned (s : State cfg) : Prop := ∃ i, cfg.threads ≤ i ∧ s.scatter = .eos i

/-- `main` gets past its joins. -/
def AllReturned (s : State cfg) : Prop :=
  s.ScatterReturned ∧ (∀ i, s.workers i = .returned) ∧ s.collector.poll = .returned

end State

/-- The threads as `main` starts them. -/
def system (cfg : Config) : System (State cfg) (Action cfg.threads) where
  init := {
    memory := ⟨loadHeap cfg.copies, []⟩
    Scatter_to_worker := fun _ => ⟨[]⟩
    worker_to_collecter := fun _ => ⟨[]⟩
    images_done := []
    counter_worker := 0
    ideal_service_worker := 0
    scatter := .photos cfg.photos
    workers := fun _ => .pop
    collector := ⟨0, fun _ => [], Poll.whileTest cfg.threads 0⟩
    popped := fun _ => [] }
  step := State.step

/-! ## What a step can do -/

/-- The steps of `scatter`. -/
inductive ScatterStep (s : State cfg) : State cfg → Prop where
  | last (hs : s.scatter = .photos []) : ScatterStep s (s.setScatter (.eos 0))
  | divide {ii : Image} {left : List Image} (hs : s.scatter = .photos (ii :: left))
      (hn : cfg.number_workers = 0) : ScatterStep s (s.setScatter .divided)
  | enter {ii : Image} {left : List Image} (hs : s.scatter = .photos (ii :: left))
      (hn : cfg.number_workers ≠ 0) :
      ScatterStep s (s.setScatter (.parts ii left
        (PartLoop.enter (s.memory.heap ii.P_Pointer).height cfg.number_workers)))
  | part {ii : Image} {left : List Image} {v : PartLoop} (hs : s.scatter = .parts ii left v)
      (h : v.i < cfg.threads) :
      ScatterStep s ((s.send ⟨v.i, h⟩ (some (ii.part v.body.1))).setScatter
        (.parts ii left v.body.2))
  | leave {ii : Image} {left : List Image} {v : PartLoop} (hs : s.scatter = .parts ii left v)
      (h : ¬v.i < cfg.threads) : ScatterStep s (s.setScatter (.photos left))
  | eos {i : ℕ} (hs : s.scatter = .eos i) (h : i < cfg.threads) :
      ScatterStep s ((s.send ⟨i, h⟩ none).setScatter (.eos (i + 1)))

/-- The steps of `worker` in thread `id`. -/
inductive WorkerStep (s : State cfg) (id : Fin cfg.threads) (ms : ℤ) : State cfg → Prop where
  | popPart {ii : Image} {q : Queue (Option Image)} (hw : s.workers id = .pop)
      (hq : (s.Scatter_to_worker id).contents = some ii :: q.contents) :
      WorkerStep s id ms ({ s with
        Scatter_to_worker := update s.Scatter_to_worker id q }.setWorker id
          (.mark ii (Marking.start ii.P_Pointer
            (forPart (s.memory.heap ii.P_Pointer) ii.starting ii.total_parts))))
  | popEos {q : Queue (Option Image)} (hw : s.workers id = .pop)
      (hq : (s.Scatter_to_worker id).contents = none :: q.contents) :
      WorkerStep s id ms ({ s with
        Scatter_to_worker := update s.Scatter_to_worker id q }.setWorker id .pushEos)
  | mark {ii : Image} {t t' : Marking} {memory : Memory} (hw : s.workers id = .mark ii t)
      (ht : t.step cfg.overlay s.memory = some (memory, t')) :
      WorkerStep s id ms ({ s with memory }.setWorker id (.mark ii t'))
  | push {ii : Image} {t : Marking} (hw : s.workers id = .mark ii t) (ht : t.todo = []) :
      WorkerStep s id ms ((s.forward id (some ii)).setWorker id .test)
  | test {w : Worker} (hw : s.workers id = .test) (h : w = .stamp ∨ w = .pop) :
      WorkerStep s id ms (s.setWorker id w)
  | stamp (hw : s.workers id = .stamp) :
      WorkerStep s id ms ({ s with ideal_service_worker := ms }.setWorker id .bump)
  | bump (hw : s.workers id = .bump) :
      WorkerStep s id ms ({ s with counter_worker := s.counter_worker + 1 }.setWorker id .pop)
  | pushEos (hw : s.workers id = .pushEos) :
      WorkerStep s id ms ((s.forward id none).setWorker id .returned)

/-- The steps of `collector`. -/
inductive CollectorStep (s : State cfg) : State cfg → Prop where
  | skip {i : Fin cfg.threads} (hp : s.collector.poll = .isEmpty i)
      (hq : (s.worker_to_collecter i).contents = []) :
      CollectorStep s
        { s with collector := { s.collector with poll := Poll.next s.collector.counter i } }
  | found {i : Fin cfg.threads} (hp : s.collector.poll = .isEmpty i)
      (hq : (s.worker_to_collecter i).contents ≠ []) :
      CollectorStep s { s with collector := { s.collector with poll := .pop i } }
  | take {i : Fin cfg.threads} {ii : Option Image} {q : Queue (Option Image)}
      (hp : s.collector.poll = .pop i)
      (hq : (s.worker_to_collecter i).contents = ii :: q.contents) :
      CollectorStep s ((s.received i ii q).collect i ii)

theorem scatterStep_cases {s t : State cfg} (h : s.scatterStep = some t) : ScatterStep s t := by
  unfold State.scatterStep at h
  split at h
  · rename_i hs
    cases h
    exact .last hs
  · rename_i ii left hs
    split at h
    · rename_i hn
      cases h
      exact .divide hs hn
    · rename_i hn
      cases h
      exact .enter hs hn
  · rename_i ii left v hs
    split at h
    · rename_i hv
      cases h
      exact .part hs hv
    · rename_i hv
      cases h
      exact .leave hs hv
  · rename_i i hs
    split at h
    · rename_i hi
      cases h
      exact .eos hs hi
    · cases h
  · cases h

theorem workerStep_cases {s t : State cfg} {id : Fin cfg.threads} {ms : ℤ}
    (h : s.workerStep id ms = some t) : WorkerStep s id ms t := by
  unfold State.workerStep at h
  cases hw : s.workers id with
  | pop =>
      cases hq : (s.Scatter_to_worker id).pop with
      | none => simp [hw, hq] at h
      | some r =>
          obtain ⟨ii, q⟩ := r
          have hcons := Queue.contents_of_pop hq
          cases ii with
          | none =>
              simp only [hw, hq, Option.some.injEq] at h
              subst h
              exact .popEos hw hcons
          | some ii =>
              simp only [hw, hq, Option.some.injEq] at h
              subst h
              exact .popPart hw hcons
  | mark ii m =>
      cases ht : m.step cfg.overlay s.memory with
      | none =>
          simp only [hw, ht, Option.some.injEq] at h
          subst h
          exact .push hw (Marking.step_eq_none_iff.mp ht)
      | some r =>
          simp only [hw, ht, Option.some.injEq] at h
          subst h
          exact .mark hw ht
  | test =>
      simp only [hw, Option.some.injEq] at h
      subst h
      refine .test hw ?_
      split
      · exact Or.inl rfl
      · exact Or.inr rfl
  | stamp =>
      simp only [hw, Option.some.injEq] at h
      subst h
      exact .stamp hw
  | bump =>
      simp only [hw, Option.some.injEq] at h
      subst h
      exact .bump hw
  | pushEos =>
      simp only [hw, Option.some.injEq] at h
      subst h
      exact .pushEos hw
  | returned => simp [hw] at h

theorem collectorStep_cases {s t : State cfg} (h : s.collectorStep = some t) :
    CollectorStep s t := by
  unfold State.collectorStep at h
  split at h
  · rename_i i hp
    simp only [Option.some.injEq] at h
    subst h
    by_cases hq : (s.worker_to_collecter i).contents = []
    · rw [if_pos (Queue.isEmpty_iff.mpr hq)]
      exact .skip hp hq
    · rw [if_neg (fun h => hq (Queue.isEmpty_iff.mp h))]
      exact .found hp hq
  · rename_i i hp
    cases hq : (s.worker_to_collecter i).pop with
    | none => simp [hq] at h
    | some r =>
        obtain ⟨ii, q⟩ := r
        simp only [hq, Option.some.injEq] at h
        subst h
        exact .take hp (Queue.contents_of_pop hq)
  · cases h

/-! ## When a thread can step -/

theorem scatter_enabled {s : State cfg} (hd : s.scatter ≠ .divided) (hr : ¬s.ScatterReturned) :
    (system cfg).Enabled s .scatter := by
  change (s.scatterStep).isSome
  unfold State.scatterStep
  cases hs : s.scatter with
  | photos left =>
      cases left with
      | nil => rfl
      | cons ii left => simp only; split <;> rfl
  | parts ii left v => simp only; split <;> rfl
  | eos i =>
      have hi : i < cfg.threads := Nat.lt_of_not_le fun h => hr ⟨i, h, hs⟩
      simp [hi]
  | divided => exact absurd hs hd

theorem worker_enabled {s : State cfg} {id : Fin cfg.threads} (ms : ℤ)
    (hr : s.workers id ≠ .returned)
    (hp : s.workers id = .pop → (s.Scatter_to_worker id).contents ≠ []) :
    (system cfg).Enabled s (.worker id ms) := by
  change (s.workerStep id ms).isSome
  unfold State.workerStep
  cases hw : s.workers id with
  | pop =>
      obtain ⟨⟨ii, q⟩, hq⟩ := Queue.exists_pop (hp hw)
      cases ii <;> simp [hq]
  | mark ii m => cases ht : m.step cfg.overlay s.memory <;> simp [ht]
  | returned => exact absurd hw hr
  | _ => simp

theorem collector_enabled {s : State cfg} (hr : s.collector.poll ≠ .returned)
    (hp : ∀ i, s.collector.poll = .pop i → (s.worker_to_collecter i).contents ≠ []) :
    (system cfg).Enabled s .collector := by
  change (s.collectorStep).isSome
  unfold State.collectorStep
  cases hc : s.collector.poll with
  | isEmpty i => rfl
  | pop i =>
      obtain ⟨⟨ii, q⟩, hq⟩ := Queue.exists_pop (hp i hc)
      simp [hq]
  | returned => exact absurd hc hr

end Watermark.Map
