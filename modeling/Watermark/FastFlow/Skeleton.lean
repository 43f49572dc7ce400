import Watermark.Marking.Thread
import Watermark.Reasoning.System

/-!
# Skeleton — what fastflow_map.cpp and fastflow_farm.cpp take from ff_Farm

Both programs give an emitter, a worker and a collector to the same skeleton.  Of the skeleton
only this is assumed: a task given to `ff_send_out` goes to one worker, which calls `svc` once on
it, what `svc` returns reaches the collector once, and the calls of the collector do not overlap.
Which worker gets a task, when a call begins and in which order the collector receives the results
is up to the environment.  Calls are allowed to overlap even on one worker.
-/

namespace Watermark.FastFlow

open Reasoning

/-- The globals as `main` leaves them before `run_and_wait_end`; `originals` are the titles and
the buffers of `photos`. -/
structure Config where
  number_of_workers : ℤ
  overlay : Overlay
  originals : List (String × CImg)

namespace Config

variable (cfg : Config)

/-- The rounds of `for(int i = 0; i<number_of_workers; ++i)`, which make a worker each. -/
abbrev threads : ℕ := cfg.number_of_workers.toNat

def copies : List CImg := cfg.originals.map Prod.snd

/-- The titles and pointers of `photos`. -/
def keys : List (String × ℕ) := cfg.originals.zipIdx.map fun (original, i) => (original.1, i)

theorem map_fst_keys : cfg.keys.map Prod.fst = cfg.originals.map Prod.fst :=
  calc cfg.keys.map Prod.fst = (cfg.originals.zipIdx.map Prod.fst).map Prod.fst := by
        rw [keys, List.map_map, List.map_map]
        rfl
    _ = cfg.originals.map Prod.fst := by rw [List.zipIdx_map_fst]

theorem map_snd_keys : cfg.keys.map Prod.snd = List.range cfg.copies.length :=
  calc cfg.keys.map Prod.snd = cfg.originals.zipIdx.map Prod.snd := by
        rw [keys, List.map_map]
        rfl
    _ = List.range cfg.copies.length := by
        rw [List.zipIdx_map_snd, copies, List.length_map, List.range_eq_range']

end Config

/-- The nodes of a program: tasks are of type `τ`, `ε` are the variables of the emitter and `γ`
those of the collector. -/
structure Program (τ ε γ : Type) where
  threads : ℕ
  overlay : Overlay
  copies : List CImg
  emitter : ε
  collector : γ
  -- `firstStage::svc`: up to its next `ff_send_out` or loop head; `none` returns `EOS`
  emit : (ℕ → CImg) → ε → Option (Option τ × ε)
  -- `Worker::svc`: the loop over the pixels
  svc : (ℕ → CImg) → τ → Marking
  -- `Worker::svc`: what it makes of the ideal service time and a measured time span
  stamp : ℤ → ℤ → ℤ
  -- `lastStage::svc`
  collect : γ → τ → γ

/-- A call of `Worker::svc`: the statement it is about to execute. -/
inductive Call (τ : Type) where
  -- inside the loop, or at `if(counter_worker==0)` when no pixel is left
  | mark (task : τ) (t : Marking)
  -- before the ideal service time is set
  | stamp (task : τ)
  -- `counter_worker++`, then `return`
  | bump (task : τ)
deriving DecidableEq

variable {τ ε γ : Type}

structure State (P : Program τ ε γ) where
  memory : Memory
  emitter : ε
  -- sent to a worker that has not called `svc` on it yet
  assigned : List (Fin P.threads × τ)
  calls : List (Fin P.threads × Call τ)
  -- returned by `svc`, on the way to the collector
  returned : List τ
  collector : γ
  counter_worker : ℤ
  ideal_service_worker : ℤ
  -- history: what `lastStage::svc` has been called with
  collected : List τ

/-- A step, with what the environment chooses for it: the worker that gets a task, the position of
the task, call or result that comes next, the time span a worker measures. -/
inductive Action (n : ℕ) where
  | emit (i : Fin n)
  | call (k : ℕ)
  | work (k : ℕ) (ms : ℤ)
  | collect (k : ℕ)
deriving DecidableEq

variable {P : Program τ ε γ}

namespace State

def setCall (s : State P) (k : ℕ) (i : Fin P.threads) (c : Call τ) : State P :=
  { s with calls := s.calls.set k (i, c) }

/-- `return ii` -/
def finish (s : State P) (k : ℕ) (task : τ) : State P :=
  { s with calls := s.calls.eraseIdx k, returned := s.returned ++ [task] }

def emitStep (s : State P) (i : Fin P.threads) : Option (State P) :=
  match P.emit s.memory.heap s.emitter with
  | none => none
  | some (none, emitter) => some { s with emitter }
  | some (some task, emitter) => some { s with emitter, assigned := s.assigned ++ [(i, task)] }

/-- A worker begins a call on one of its tasks. -/
def callStep (s : State P) (k : ℕ) : Option (State P) :=
  match s.assigned[k]? with
  | none => none
  | some (i, task) =>
    some { s with
      assigned := s.assigned.eraseIdx k
      calls := s.calls ++ [(i, .mark task (P.svc s.memory.heap task))] }

/-- `Worker::svc` -/
def workStep (s : State P) (k : ℕ) (ms : ℤ) : Option (State P) :=
  match s.calls[k]? with
  | none => none
  | some (i, .mark task t) =>
    match t.step P.overlay s.memory with
    | some (memory, t') => some ({ s with memory }.setCall k i (.mark task t'))
    | none =>
      if s.counter_worker = 0 then some (s.setCall k i (.stamp task)) else some (s.finish k task)
  | some (i, .stamp task) =>
    some ({ s with
      ideal_service_worker := P.stamp s.ideal_service_worker ms }.setCall k i (.bump task))
  | some (_, .bump task) =>
    some ({ s with counter_worker := s.counter_worker + 1 }.finish k task)

/-- `lastStage::svc` is called on one of the results. -/
def collectStep (s : State P) (k : ℕ) : Option (State P) :=
  match s.returned[k]? with
  | none => none
  | some task =>
    some { s with
      returned := s.returned.eraseIdx k
      collector := P.collect s.collector task
      collected := s.collected ++ [task] }

def step (s : State P) : Action P.threads → Option (State P)
  | .emit i => s.emitStep i
  | .call k => s.callStep k
  | .work k ms => s.workStep k ms
  | .collect k => s.collectStep k

/-- `run_and_wait_end` returns: the emitter has returned `EOS` and nothing is on its way. -/
def Finished (s : State P) : Prop :=
  P.emit s.memory.heap s.emitter = none ∧ s.assigned = [] ∧ s.calls = [] ∧ s.returned = []

end State

/-- The skeleton as `main` starts it. -/
def system (P : Program τ ε γ) : System (State P) (Action P.threads) where
  init := {
    memory := ⟨loadHeap P.copies, []⟩
    emitter := P.emitter
    assigned := []
    calls := []
    returned := []
    collector := P.collector
    counter_worker := 0
    ideal_service_worker := 0
    collected := [] }
  step := State.step

/-! ## What a step can do -/

inductive Step (s : State P) : State P → Prop where
  | skip {emitter : ε} (he : P.emit s.memory.heap s.emitter = some (none, emitter)) :
      Step s { s with emitter }
  | send {i : Fin P.threads} {task : τ} {emitter : ε}
      (he : P.emit s.memory.heap s.emitter = some (some task, emitter)) :
      Step s { s with emitter, assigned := s.assigned ++ [(i, task)] }
  | call {k : ℕ} {i : Fin P.threads} {task : τ} (hk : s.assigned[k]? = some (i, task)) :
      Step s { s with
        assigned := s.assigned.eraseIdx k
        calls := s.calls ++ [(i, .mark task (P.svc s.memory.heap task))] }
  | mark {k : ℕ} {i : Fin P.threads} {task : τ} {t t' : Marking} {memory : Memory}
      (hk : s.calls[k]? = some (i, .mark task t))
      (ht : t.step P.overlay s.memory = some (memory, t')) :
      Step s ({ s with memory }.setCall k i (.mark task t'))
  | testStamp {k : ℕ} {i : Fin P.threads} {task : τ} {t : Marking}
      (hk : s.calls[k]? = some (i, .mark task t)) (ht : t.todo = []) (hc : s.counter_worker = 0) :
      Step s (s.setCall k i (.stamp task))
  | testReturn {k : ℕ} {i : Fin P.threads} {task : τ} {t : Marking}
      (hk : s.calls[k]? = some (i, .mark task t)) (ht : t.todo = []) (hc : s.counter_worker ≠ 0) :
      Step s (s.finish k task)
  | stamp {k : ℕ} {i : Fin P.threads} {task : τ} {ms : ℤ}
      (hk : s.calls[k]? = some (i, .stamp task)) :
      Step s ({ s with
        ideal_service_worker := P.stamp s.ideal_service_worker ms }.setCall k i (.bump task))
  | bump {k : ℕ} {i : Fin P.threads} {task : τ} (hk : s.calls[k]? = some (i, .bump task)) :
      Step s ({ s with counter_worker := s.counter_worker + 1 }.finish k task)
  | collect {k : ℕ} {task : τ} (hk : s.returned[k]? = some task) :
      Step s { s with
        returned := s.returned.eraseIdx k
        collector := P.collect s.collector task
        collected := s.collected ++ [task] }

/-- A step of `Worker::svc` in call `k`, which measures `ms` if it is the one that measures. -/
inductive Work (s : State P) (k : ℕ) (ms : ℤ) : State P → Prop where
  | mark {i : Fin P.threads} {task : τ} {t t' : Marking} {memory : Memory}
      (hk : s.calls[k]? = some (i, .mark task t))
      (ht : t.step P.overlay s.memory = some (memory, t')) :
      Work s k ms ({ s with memory }.setCall k i (.mark task t'))
  | testStamp {i : Fin P.threads} {task : τ} {t : Marking}
      (hk : s.calls[k]? = some (i, .mark task t)) (ht : t.todo = []) (hc : s.counter_worker = 0) :
      Work s k ms (s.setCall k i (.stamp task))
  | testReturn {i : Fin P.threads} {task : τ} {t : Marking}
      (hk : s.calls[k]? = some (i, .mark task t)) (ht : t.todo = []) (hc : s.counter_worker ≠ 0) :
      Work s k ms (s.finish k task)
  | stamp {i : Fin P.threads} {task : τ} (hk : s.calls[k]? = some (i, .stamp task)) :
      Work s k ms ({ s with
        ideal_service_worker := P.stamp s.ideal_service_worker ms }.setCall k i (.bump task))
  | bump {i : Fin P.threads} {task : τ} (hk : s.calls[k]? = some (i, .bump task)) :
      Work s k ms ({ s with counter_worker := s.counter_worker + 1 }.finish k task)

theorem work_cases {s t : State P} {k : ℕ} {ms : ℤ} (h : s.workStep k ms = some t) :
    Work s k ms t := by
  unfold State.workStep at h
  split at h
  · cases h
  · rename_i i task m hk
    cases hm : m.step P.overlay s.memory with
    | some r =>
        simp only [hm, Option.some.injEq] at h
        subst h
        exact .mark hk hm
    | none =>
        have htodo := Marking.step_eq_none_iff.mp hm
        simp only [hm] at h
        split at h
        · rename_i hc
          cases h
          exact .testStamp hk htodo hc
        · rename_i hc
          cases h
          exact .testReturn hk htodo hc
  · rename_i i task hk
    cases h
    exact .stamp hk
  · rename_i i task hk
    cases h
    exact .bump hk

theorem workStep_cases {s t : State P} {k : ℕ} {ms : ℤ} (h : s.workStep k ms = some t) :
    Step s t := by
  cases work_cases h with
  | mark hk ht => exact .mark hk ht
  | testStamp hk ht hc => exact .testStamp hk ht hc
  | testReturn hk ht hc => exact .testReturn hk ht hc
  | stamp hk => exact .stamp hk
  | bump hk => exact .bump hk

theorem step_cases {s t : State P} {a : Action P.threads} (h : (system P).step s a = some t) :
    Step s t := by
  change s.step a = some t at h
  cases a with
  | emit i =>
      simp only [State.step, State.emitStep] at h
      split at h
      · cases h
      · rename_i emitter he
        cases h
        exact .skip he
      · rename_i task emitter he
        cases h
        exact .send he
  | call k =>
      simp only [State.step, State.callStep] at h
      split at h
      · cases h
      · rename_i i task hk
        cases h
        exact .call hk
  | work k ms => exact workStep_cases h
  | collect k =>
      simp only [State.step, State.collectStep] at h
      split at h
      · cases h
      · rename_i task hk
        cases h
        exact .collect hk

theorem step_invariant {I : State P → Prop} (h0 : I (system P).init)
    (hstep : ∀ s t, I s → Step s t → I t) {s : State P} (hs : (system P).Reachable s) : I s := by
  apply hs.invariant h0
  intro s a t _ ih ha
  exact hstep s t ih (step_cases ha)

/-! ## Some step is possible until all is done -/

-- A call can always go on.
theorem work_enabled {s : State P} (hc : s.calls ≠ []) :
    (system P).Enabled s (.work 0 0) := by
  obtain ⟨⟨i, c⟩, rest, hc⟩ := List.exists_cons_of_ne_nil hc
  change (s.workStep 0 0).isSome
  cases c with
  | mark task t =>
      cases ht : t.step P.overlay s.memory with
      | some r => simp [State.workStep, hc, ht]
      | none => simp only [State.workStep, hc, List.getElem?_cons_zero, ht]; split <;> rfl
  | stamp task => simp [State.workStep, hc]
  | bump task => simp [State.workStep, hc]

theorem call_enabled {s : State P} (ha : s.assigned ≠ []) : (system P).Enabled s (.call 0) := by
  obtain ⟨a, rest, ha⟩ := List.exists_cons_of_ne_nil ha
  change (s.callStep 0).isSome
  simp [State.callStep, ha]

theorem collect_enabled {s : State P} (hr : s.returned ≠ []) :
    (system P).Enabled s (.collect 0) := by
  obtain ⟨task, rest, hr⟩ := List.exists_cons_of_ne_nil hr
  change (s.collectStep 0).isSome
  simp [State.collectStep, hr]

theorem emit_enabled {s : State P} (he : P.emit s.memory.heap s.emitter ≠ none)
    (i : Fin P.threads) : (system P).Enabled s (.emit i) := by
  change (s.emitStep i).isSome
  unfold State.emitStep
  split
  · contradiction
  · rfl
  · rfl

theorem progress (hn : 0 < P.threads) {s : State P} (hs : ¬s.Finished) :
    ∃ a, (system P).Enabled s a := by
  by_cases he : P.emit s.memory.heap s.emitter = none
  · by_cases ha : s.assigned = []
    · by_cases hc : s.calls = []
      · by_cases hr : s.returned = []
        · exact absurd ⟨he, ha, hc, hr⟩ hs
        · exact ⟨.collect 0, collect_enabled hr⟩
      · exact ⟨.work 0 0, work_enabled hc⟩
    · exact ⟨.call 0, call_enabled ha⟩
  · exact ⟨.emit ⟨0, hn⟩, emit_enabled he ⟨0, hn⟩⟩

end Watermark.FastFlow
