import Mathlib.Logic.Function.Basic
import Watermark.FastFlow.Skeleton

/-!
# Network — the threads and queues of ff_Farm

The load balancer of ff/lb.hpp runs the emitter, the threads of ff/node.hpp run the workers and the
gatherer of ff/gt.hpp runs the collector.  After `set_scheduling_ondemand` the queue into a worker
has one place, and the queue out of it has no bound.  A put or a get takes effect at once, and a
thread that finds a queue full or empty loses some time and tries again.
-/

namespace Watermark.FastFlow.Network

open Function Reasoning

/-- What the queues carry: a task, or `FF_EOS`. -/
inductive Message (τ : Type) where
  | task (task : τ)
  | eos

/-- `ff_loadbalancer::svc`, with the variables of the emitter while it runs. -/
inductive LoadBalancer (n : ℕ) (τ ε : Type) where
  -- inside `filter->svc`
  | svc (emitter : ε)
  -- inside `ff_send_out`, which is `schedule_task`
  | schedule (task : τ) (emitter : ε)
  -- in `broadcast_task`, at worker `i` of the first loop; the back of `retry` comes first
  | broadcast (i : ℕ) (retry : List (Fin n))
  -- in `broadcast_task`, at `while(retry.size())`
  | again (retry : List (Fin n))
  | ended

/-- `thWorker::svc` -/
inductive Worker (τ : Type) where
  -- at `pop(&task)`
  | pop
  -- inside `filter->svc(task)`
  | svc (c : Call τ)
  -- at `push(ret)`, or at `push(task)` when that is `FF_EOS`
  | push (m : Message τ)
  | ended

/-- `ff_gatherer::svc` -/
inductive Gatherer (τ : Type) where
  -- in `gather_task`
  | gather
  -- at `filter->svc(task)`
  | svc (task : τ)
  | ended

variable {τ ε γ : Type}

/-- `while(neos<running)` -/
def whileRunning (neos n : ℕ) : Gatherer τ := if neos < n then .gather else .ended

structure State (P : Program τ ε γ) where
  memory : Memory
  counter_worker : ℤ
  ideal_service_worker : ℤ
  lb : LoadBalancer P.threads τ ε
  -- the worker tried last, `none` being -1
  nextw : Option (Fin P.threads)
  inq : Fin P.threads → List (Message τ)
  worker : Fin P.threads → Worker τ
  outq : Fin P.threads → List (Message τ)
  gatherer : Gatherer τ
  nextr : Option (Fin P.threads)
  offline : Fin P.threads → Bool
  neos : ℕ
  collector : γ
  -- history: what `lastStage::svc` has been called with
  collected : List τ

/-- A step of a thread; `ms` is the time span the worker measures. -/
inductive Action (n : ℕ) where
  | lb
  | worker (i : Fin n) (ms : ℤ)
  | gatherer
deriving DecidableEq

/-- What `set_scheduling_ondemand` makes of the size of the queues into the workers. -/
def ondemand : ℕ := 1

/-- `++nextw % running`, and `(nextr+1) % running`; a farm without workers is refused. -/
def following {n : ℕ} (last : Option (Fin n)) : Option (Fin n) :=
  let k := (last.elim 0 fun w => w.1 + 1) % n
  if h : k < n then some ⟨k, h⟩ else none

variable {P : Program τ ε γ}

namespace State

/-- `workers[w]->put`, which succeeds while there is room; `none` is `false`. -/
def put (s : State P) (w : Fin P.threads) (m : Message τ) : Option (State P) :=
  if (s.inq w).length < ondemand then some { s with inq := update s.inq w (s.inq w ++ [m]) }
  else none

def setWorker (s : State P) (i : Fin P.threads) (w : Worker τ) : State P :=
  { s with worker := update s.worker i w }

/-- `ff_loadbalancer::svc` -/
def lbStep (s : State P) : Option (State P) :=
  match s.lb with
  | .svc emitter =>
    match P.emit s.memory.heap emitter with
    | none => some { s with lb := .broadcast 0 [] }
    | some (none, emitter) => some { s with lb := .svc emitter }
    | some (some task, emitter) => some { s with lb := .schedule task emitter }
  | .schedule task emitter =>
    match following s.nextw with
    | none => none
    | some w =>
      match s.put w (.task task) with
      | some s' => some { s' with nextw := some w, lb := .svc emitter }
      | none => some { s with nextw := some w }
  | .broadcast i retry =>
    if h : i < P.threads then
      match s.put ⟨i, h⟩ .eos with
      | some s' => some { s' with lb := .broadcast (i + 1) retry }
      | none => some { s with lb := .broadcast (i + 1) (⟨i, h⟩ :: retry) }
    else some { s with lb := .again retry }
  | .again [] => some { s with lb := .ended }
  | .again (w :: retry) =>
    match s.put w .eos with
    | some s' => some { s' with lb := .again retry }
    | none => some s
  | .ended => none

/-- `thWorker::svc`, with `Worker::svc` as its filter -/
def workerStep (s : State P) (i : Fin P.threads) (ms : ℤ) : Option (State P) :=
  match s.worker i with
  | .pop =>
    match s.inq i with
    | [] => some s
    | .eos :: q => some ({ s with inq := update s.inq i q }.setWorker i (.push .eos))
    | .task task :: q =>
      some ({ s with inq := update s.inq i q }.setWorker i
        (.svc (.mark task (P.svc s.memory.heap task))))
  | .svc (.mark task t) =>
    match t.step P.overlay s.memory with
    | some (memory, t') => some ({ s with memory }.setWorker i (.svc (.mark task t')))
    | none =>
      if s.counter_worker = 0 then some (s.setWorker i (.svc (.stamp task)))
      else some (s.setWorker i (.push (.task task)))
  | .svc (.stamp task) =>
    some ({ s with
      ideal_service_worker := P.stamp s.ideal_service_worker ms }.setWorker i (.svc (.bump task)))
  | .svc (.bump task) =>
    some ({ s with counter_worker := s.counter_worker + 1 }.setWorker i (.push (.task task)))
  | .push (.task task) =>
    some ({ s with outq := update s.outq i (s.outq i ++ [Message.task task]) }.setWorker i .pop)
  | .push .eos =>
    some ({ s with outq := update s.outq i (s.outq i ++ [Message.eos]) }.setWorker i .ended)
  | .ended => none

/-- `ff_gatherer::svc` -/
def gathererStep (s : State P) : Option (State P) :=
  match s.gatherer with
  | .gather =>
    match following s.nextr with
    | none => none
    | some w =>
      if s.offline w then some { s with nextr := some w }
      else match s.outq w with
        | [] => some { s with nextr := some w }
        | .eos :: q => some { s with
            nextr := some w
            outq := update s.outq w q
            offline := update s.offline w true
            neos := s.neos + 1
            gatherer := whileRunning (s.neos + 1) P.threads }
        | .task task :: q => some { s with
            nextr := some w
            outq := update s.outq w q
            gatherer := .svc task }
  | .svc task => some { s with
      collector := P.collect s.collector task
      collected := s.collected ++ [task]
      gatherer := whileRunning s.neos P.threads }
  | .ended => none

def step (s : State P) : Action P.threads → Option (State P)
  | .lb => s.lbStep
  | .worker i ms => s.workerStep i ms
  | .gatherer => s.gathererStep

/-- `wait` returns: every thread has ended. -/
structure Ended (s : State P) : Prop where
  lb : s.lb = .ended
  worker : ∀ i, s.worker i = .ended
  gatherer : s.gatherer = .ended

end State

/-- The farm as `run_and_wait_end` starts it. -/
def system (P : Program τ ε γ) : System (State P) (Action P.threads) where
  init := {
    memory := ⟨loadHeap P.copies, []⟩
    counter_worker := 0
    ideal_service_worker := 0
    lb := .svc P.emitter
    nextw := none
    inq := fun _ => []
    worker := fun _ => .pop
    outq := fun _ => []
    gatherer := .gather
    nextr := none
    offline := fun _ => false
    neos := 0
    collector := P.collector
    collected := [] }
  step := State.step

end Watermark.FastFlow.Network
