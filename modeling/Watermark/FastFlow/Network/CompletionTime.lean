import Watermark.FastFlow.Network.Progress
import Watermark.Reasoning.Timed
import Watermark.Util.ActiveDelay

/-!
# CompletionTime — how long both farms take at least

The emitter calls `active_delay` before each `ff_send_out`, and `main` prints the time
`run_and_wait_end` takes.
-/

namespace Watermark.FastFlow.Network

open Function Reasoning

variable {τ ε γ : Type} {P : Program τ ε γ}

/-- The farm between the two readings of `main`. -/
structure Clocked (P : Program τ ε γ) where
  net : State P
  -- in `active_delay`, or at the `ff_send_out` behind it
  delay : Option Delay
  start_parallel : ℤ
  Total_parallel : Option ℤ

inductive Move (n : ℕ) where
  | net (a : Action n)
  | main
deriving DecidableEq

def LoadBalancer.hasEnded {n : ℕ} : LoadBalancer n τ ε → Bool
  | .ended => true
  | _ => false

def Worker.hasEnded : Worker τ → Bool
  | .ended => true
  | _ => false

namespace State

/-- The emitter is about to send a task. -/
def sends (s : State P) : Bool :=
  match s.lb with
  | .svc emitter => (P.emit s.memory.heap emitter).any fun r => r.1.isSome
  | _ => false

/-- `wait` returns. -/
def waited (s : State P) : Bool :=
  s.lb.hasEnded && decide (∀ i, (s.worker i).hasEnded = true) && s.gatherer.hasEnded

end State

namespace Clocked

/-- `ff_loadbalancer::svc`, with the delays of the emitter -/
def lbStep (msecs now : ℤ) (s : Clocked P) : Option (Clocked P) :=
  if s.net.sends then
    match s.delay with
    | none => some { s with delay := some .called }
    | some d =>
      match d.read msecs now with
      | some d => some { s with delay := some d }
      | none => s.net.lbStep.map fun net => { s with net, delay := none }
  else s.net.lbStep.map fun net => { s with net }

/-- `main` behind `run_and_wait_end` -/
def mainStep (now : ℤ) (s : Clocked P) : Option (Clocked P) :=
  if s.net.waited && s.Total_parallel.isNone then
    some { s with Total_parallel := some (milliseconds (now - s.start_parallel)) }
  else none

def step (msecs now : ℤ) (s : Clocked P) : Move P.threads → Option (Clocked P)
  | .net .lb => s.lbStep msecs now
  | .net a => (s.net.step a).map fun net => { s with net }
  | .main => s.mainStep now

end Clocked

/-- The farm when `main` has read `start`. -/
def clocked (P : Program τ ε γ) (msecs start : ℤ) :
    System (Clocked P × ℤ) (Move P.threads × ℤ) :=
  System.timed ⟨(system P).init, none, start, none⟩ start (Clocked.step msecs)

/-! ## What the steps do to the tasks that are left -/

/-- The tasks for which the emitter has not waited. -/
def LoadBalancer.undelayed {n : ℕ} (future : ε → List τ) : LoadBalancer n τ ε → List τ
  | .svc e => future e
  | .schedule _ e => future e
  | _ => []

variable {future : ε → List τ} {fuel : ε → ℕ} {s t : State P}

theorem lb_of_workerStep {i : Fin P.threads} {ms : ℤ} (h : s.workerStep i ms = some t) :
    t.lb = s.lb := by
  unfold State.workerStep at h
  repeat' split at h
  all_goals cases h
  all_goals rfl

theorem lb_of_gathererStep (h : s.gathererStep = some t) : t.lb = s.lb := by
  unfold State.gathererStep at h
  repeat' split at h
  all_goals cases h
  all_goals rfl

-- `active_delay` is called once for each task,
theorem undelayed_of_sends (L : P.Lawful future fuel) (hdims : SameDims P.copies s.memory.heap)
    (hsends : s.sends = true) (h : s.lbStep = some t) :
    (t.lb.undelayed future).length + 1 = (s.lb.undelayed future).length := by
  unfold State.sends at hsends
  unfold State.lbStep at h
  split at hsends
  · rename_i e hl
    simp only [hl] at h
    split at h
    · rename_i he
      simp [he] at hsends
    · rename_i e' he
      simp [he] at hsends
    · rename_i task e' he
      cases h
      have hfuture := (L.send _ _ _ _ hdims he).1
      rw [hl]
      simp only [LoadBalancer.undelayed, hfuture, List.length_cons]
  · cases hsends

-- and never for anything else.
theorem undelayed_of_not_sends (L : P.Lawful future fuel)
    (hdims : SameDims P.copies s.memory.heap) (hsends : s.sends = false) (h : s.lbStep = some t) :
    t.lb.undelayed future = s.lb.undelayed future := by
  unfold State.sends at hsends
  have hstep := lbStep_cases h
  generalize s.transfers .lb = es at hstep
  cases hstep with
  | skip hl he =>
      rw [hl]
      exact (L.skip _ _ _ hdims he).1
  | hold hl he =>
      rw [hl] at hsends
      simp [he] at hsends
  | close hl he =>
      rw [hl]
      exact (L.stop _ _ he).symm
  | send w hl hq => rw [hl]; rfl
  | notify hi hl hq => rw [hl]; rfl
  | postpone hi hl => rw [hl]; rfl
  | tryAgain hi hl => rw [hl]; rfl
  | notifyAgain hl hq => rw [hl]; rfl
  | closed hl => rw [hl]; rfl
  | _ => rfl

namespace Clocked

/-- The time before which the tasks sent so far cannot have been. -/
def due (future : ε → List τ) (msecs : ℤ) (s : Clocked P) : ℤ :=
  s.start_parallel + (((future P.emitter).length - (s.net.lb.undelayed future).length : ℕ) : ℤ) *
    (msecs + 1) * 1000000

/-- The emitter is not ahead of its delays. -/
structure Paced (future : ε → List τ) (msecs now : ℤ) (s : Clocked P) : Prop where
  start_le : s.start_parallel ≤ now
  left_le : (s.net.lb.undelayed future).length ≤ (future P.emitter).length
  due : s.due future msecs ≤ now
  delay : ∀ d, s.delay = some d → d.CalledFrom (s.due future msecs) msecs now
  -- `main` goes on when the farm has ended
  total : ∀ tp, s.Total_parallel = some tp →
    s.net.Ended ∧ (future P.emitter).length * (msecs + 1) ≤ tp

variable {s t : Clocked P} {msecs now later : ℤ}

theorem Paced.wait (h : s.Paced future msecs now) (hle : now ≤ later) :
    s.Paced future msecs later where
  start_le := h.start_le.trans hle
  left_le := h.left_le
  due := h.due.trans hle
  delay d he := (h.delay d he).wait hle
  total := h.total

theorem due_same {net : State P} (hsame : net.lb.undelayed future = s.net.lb.undelayed future) :
    ({ s with net } : Clocked P).due future msecs = s.due future msecs := by
  unfold due
  rw [hsame]

-- Each task comes one delay later.
theorem due_sends {net : State P} {delay : Option Delay}
    (hle : (s.net.lb.undelayed future).length ≤ (future P.emitter).length)
    (hleft : (net.lb.undelayed future).length + 1 = (s.net.lb.undelayed future).length) :
    ({ s with net, delay } : Clocked P).due future msecs =
      s.due future msecs + (msecs + 1) * 1000000 := by
  have hsent : (future P.emitter).length - (net.lb.undelayed future).length =
      ((future P.emitter).length - (s.net.lb.undelayed future).length) + 1 := by omega
  unfold due
  rw [hsent]
  push_cast
  ring

theorem Paced.start_of_step (h : s.Paced future msecs now) {a : Action P.threads}
    (ha : (s.net.step a).isSome = true) : s.Total_parallel = none := by
  rw [Option.eq_none_iff_forall_ne_some]
  intro tp htp
  have hstuck : s.net.step a = none := stuck_of_ended (h.total tp htp).1 a
  rw [hstuck] at ha
  cases ha

-- While the emitter waits, nothing has been printed.
theorem Paced.start_of_sends (h : s.Paced future msecs now) (hsends : s.net.sends = true) :
    s.Total_parallel = none := by
  rw [Option.eq_none_iff_forall_ne_some]
  intro tp htp
  unfold State.sends at hsends
  rw [(h.total tp htp).1.lb] at hsends
  cases hsends

theorem paced_of_net {net : State P} (h : s.Paced future msecs now)
    (hsame : net.lb.undelayed future = s.net.lb.undelayed future)
    (hnone : s.Total_parallel = none) : ({ s with net } : Clocked P).Paced future msecs now := by
  have hdue : ({ s with net } : Clocked P).due future msecs = s.due future msecs := due_same hsame
  exact {
    start_le := h.start_le
    left_le := by
      show (net.lb.undelayed future).length ≤ _
      rw [hsame]
      exact h.left_le
    due := hdue.trans_le h.due
    delay := fun d hd => hdue ▸ h.delay d hd
    total := fun tp htp => (by cases hnone.symm.trans htp) }

theorem paced_lbStep (L : P.Lawful future fuel) (hdims : SameDims P.copies s.net.memory.heap)
    (h : s.Paced future msecs now) (ha : s.lbStep msecs now = some t) :
    t.Paced future msecs now := by
  unfold lbStep at ha
  split at ha
  · rename_i hsends
    have hnone := h.start_of_sends hsends
    split at ha
    · cases ha
      exact { h with delay := fun d hd => (by cases hd; exact h.due) }
    · rename_i d hd
      have hcalled := h.delay d hd
      split at ha
      · rename_i d' hread
        cases ha
        exact { h with delay := fun d'' hd'' => (by cases hd''; exact hcalled.read hread) }
      · rename_i hread
        obtain ⟨net, hm, rfl⟩ := Option.map_eq_some_iff.mp ha
        rw [Delay.eq_returned_of_read hread] at hcalled
        have hleft := undelayed_of_sends L hdims hsends hm
        have hle := h.left_le
        exact {
          start_le := h.start_le
          left_le := by
            show (net.lb.undelayed future).length ≤ _
            omega
          due := by
            rw [due_sends hle hleft]
            exact hcalled.2
          delay := fun d hd => (by cases hd)
          total := fun tp htp => (by cases hnone.symm.trans htp) }
  · rename_i hsends
    obtain ⟨net, hm, rfl⟩ := Option.map_eq_some_iff.mp ha
    have hsame := undelayed_of_not_sends L hdims (Bool.eq_false_iff.mpr hsends) hm
    have hnone := h.start_of_step (a := .lb) (by rw [State.step, hm]; rfl)
    exact paced_of_net h hsame hnone

theorem ended_of_waited {s : State P} (h : s.waited = true) : s.Ended := by
  unfold State.waited at h
  rw [Bool.and_eq_true, Bool.and_eq_true, decide_eq_true_iff] at h
  obtain ⟨⟨hlb, hworker⟩, hgatherer⟩ := h
  refine ⟨?_, fun i => ?_, gatherer_ended hgatherer⟩
  · cases hl : s.lb with
    | ended => rfl
    | _ => rw [hl] at hlb; cases hlb
  · have hi := hworker i
    cases hw : s.worker i with
    | ended => rfl
    | _ => rw [hw] at hi; cases hi

theorem paced_step (L : P.Lawful future fuel) (hdims : SameDims P.copies s.net.memory.heap)
    (h : s.Paced future msecs now) {a : Move P.threads} (ha : s.step msecs now a = some t) :
    t.Paced future msecs now := by
  cases a with
  | net a =>
      cases a with
      | lb => exact paced_lbStep L hdims h ha
      | worker i ms =>
          obtain ⟨net, hm, rfl⟩ := Option.map_eq_some_iff.mp ha
          have hnone := h.start_of_step (a := .worker i ms) (by rw [hm]; rfl)
          exact paced_of_net h (congrArg _ (lb_of_workerStep hm)) hnone
      | gatherer =>
          obtain ⟨net, hm, rfl⟩ := Option.map_eq_some_iff.mp ha
          have hnone := h.start_of_step (a := .gatherer) (by rw [hm]; rfl)
          exact paced_of_net h (congrArg _ (lb_of_gathererStep hm)) hnone
  | main =>
      simp only [step, mainStep] at ha
      split at ha
      · rename_i hwaited
        cases ha
        have hended := ended_of_waited (Bool.and_eq_true _ _ ▸ hwaited).1
        refine { h with total := fun tp htp => ?_ }
        cases htp
        refine ⟨hended, ?_⟩
        have hdue := h.due
        have hstart := h.start_le
        unfold due at hdue
        rw [hended.lb] at hdue
        exact le_milliseconds (by omega) (by simp [LoadBalancer.undelayed] at hdue; omega)
      · cases ha

-- The delays and `main` do not show in the farm.
theorem net_step {a : Move P.threads} (ha : s.step msecs now a = some t) :
    t.net = s.net ∨ ∃ b, (system P).step s.net b = some t.net := by
  cases a with
  | net a =>
      cases a with
      | lb =>
          simp only [step, lbStep] at ha
          split at ha
          · split at ha
            · cases ha
              exact Or.inl rfl
            · split at ha
              · cases ha
                exact Or.inl rfl
              · obtain ⟨net, hm, rfl⟩ := Option.map_eq_some_iff.mp ha
                exact Or.inr ⟨.lb, hm⟩
          · obtain ⟨net, hm, rfl⟩ := Option.map_eq_some_iff.mp ha
            exact Or.inr ⟨.lb, hm⟩
      | worker i ms =>
          obtain ⟨net, hm, rfl⟩ := Option.map_eq_some_iff.mp ha
          exact Or.inr ⟨.worker i ms, hm⟩
      | gatherer =>
          obtain ⟨net, hm, rfl⟩ := Option.map_eq_some_iff.mp ha
          exact Or.inr ⟨.gatherer, hm⟩
  | main =>
      simp only [step, mainStep] at ha
      split at ha
      · cases ha
        exact Or.inl rfl
      · cases ha

end Clocked

section Runs

variable {msecs start : ℤ} {p : Clocked P × ℤ}

theorem reachable_net (hp : (clocked P msecs start).Reachable p) : (system P).Reachable p.1.net :=
  hp.untimed (f := Clocked.net) rfl fun _ _ _ _ h => Clocked.net_step h

theorem paced (L : P.Lawful future fuel) (hsteady : P.Steady) (hn : 0 < P.threads)
    (hp : (clocked P msecs start).Reachable p) : p.1.Paced future msecs p.2 := by
  apply hp.timed_invariant (P := fun now s => s.Paced future msecs now)
  · have hdue : (⟨(system P).init, none, start, none⟩ : Clocked P).due future msecs = start := by
      show start + (((future P.emitter).length - (future P.emitter).length : ℕ) : ℤ) * _ * _ = _
      simp
    exact {
      start_le := le_refl start
      left_le := Nat.le_refl _
      due := hdue.le
      delay := fun _ hd => (by cases hd)
      total := fun _ htp => (by cases htp) }
  · exact fun _ _ _ hle h => h.wait hle
  · exact fun _ s _ _ ⟨_, hs⟩ h ha =>
      Clocked.paced_step L (dims L hsteady hn (reachable_net hs)) h ha

end Runs

/-- `main` stops the clock when all threads have ended, and no sooner than the delays allow: one for
each photo in fastflow_farm.cpp and one for each part in fastflow_map.cpp. -/
theorem total_parallel_ge (cfg : Config) (inserted_delay start : ℤ)
    (hn : 1 ≤ cfg.number_of_workers) :
    (∀ p, (clocked (Farm.program cfg) inserted_delay start).Reachable p → ∀ tp,
      p.1.Total_parallel = some tp → p.1.net.Ended ∧
        cfg.originals.length * (inserted_delay + 1) ≤ tp) ∧
    (∀ p, (clocked (Map.program cfg) inserted_delay start).Reachable p → ∀ tp,
      p.1.Total_parallel = some tp → p.1.net.Ended ∧
        cfg.originals.length * cfg.number_of_workers * (inserted_delay + 1) ≤ tp) := by
  have hpos : 0 < cfg.threads := by
    unfold Config.threads
    omega
  refine ⟨fun p hp tp htp => ?_, fun p hp tp htp => ?_⟩
  · have hpaced := paced (Farm.lawful cfg) (Farm.steady cfg) hpos hp
    obtain ⟨hended, hbound⟩ := hpaced.total tp htp
    have hlen : (Farm.future cfg (Farm.program cfg).emitter).length = cfg.originals.length := by
      show ((Farm.photos cfg).drop 0).length = _
      simp [Farm.photos, Config.keys]
    rw [hlen] at hbound
    exact ⟨hended, hbound⟩
  · have hpaced := paced (Map.lawful hpos) (Map.steady cfg) hpos hp
    obtain ⟨hended, hbound⟩ := hpaced.total tp htp
    have hlen : ((Map.future cfg (Map.program cfg).emitter).length : ℤ) =
        cfg.originals.length * cfg.number_of_workers := by
      show (((Map.photos cfg).flatMap (Map.parts cfg)).length : ℤ) = _
      have hcast : cfg.number_of_workers = (cfg.threads : ℤ) := by
        unfold Config.threads
        omega
      have hparts : ∀ ph, (Map.parts cfg ph).length = cfg.threads := by
        intro ph
        rw [Map.parts_eq hpos, List.length_map, List.length_range]
      have hphotos : (Map.photos cfg).length = cfg.originals.length := by
        simp [Map.photos, Config.keys]
      rw [List.length_flatMap, hcast]
      simp only [hparts, List.map_const', List.sum_replicate, smul_eq_mul, hphotos, Nat.cast_mul]
    rw [hlen] at hbound
    exact ⟨hended, hbound⟩

/-- One photo, and so one delay in fastflow_farm.cpp, -/
def clockedFarmRun : List (Move 2 × ℤ) :=
  (List.flatten [[(.net .lb, 1), (.net .lb, 2), (.net .lb, 8)],
    twoRowsFarmRun.map fun a => (.net a, 9), [(.main, 10)]]).map fun e => (e.1, e.2 * 1000000)

def clockedFarmEnd : Clocked (Farm.program twoRows) × ℤ :=
  ((clocked (Farm.program twoRows) 5 0).exec (clocked (Farm.program twoRows) 5 0).init
    clockedFarmRun).get (by decide +kernel)

/-- and two parts, and so two delays in fastflow_map.cpp. -/
def clockedMapRun : List (Move 2 × ℤ) :=
  (List.flatten [List.replicate 2 (.net .lb, 1), [(.net .lb, 2)], List.replicate 4 (.net .lb, 8),
    [(.net .lb, 9)], List.replicate 9 (.net .lb, 15),
    (twoRowsMapRun.drop 11).map fun a => (.net a, 16), [(.main, 17)]]).map fun e =>
      (e.1, e.2 * 1000000)

def clockedMapEnd : Clocked (Map.program twoRows) × ℤ :=
  ((clocked (Map.program twoRows) 5 0).exec (clocked (Map.program twoRows) 5 0).init
    clockedMapRun).get (by decide +kernel)

theorem total_parallel_ge_twoRows :
    (clockedFarmEnd.1.net.Ended ∧ 1 * (5 + 1) ≤ (10 : ℤ)) ∧
      clockedMapEnd.1.net.Ended ∧ 1 * 2 * (5 + 1) ≤ (17 : ℤ) := by
  obtain ⟨hfarm, hmap⟩ := total_parallel_ge twoRows 5 0 (by decide)
  refine ⟨hfarm clockedFarmEnd (System.reachable_get _) 10 ?_,
    hmap clockedMapEnd (System.reachable_get _) 17 ?_⟩
  · decide +kernel
  · decide +kernel

end Watermark.FastFlow.Network
