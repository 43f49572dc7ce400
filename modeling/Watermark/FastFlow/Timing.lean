import Mathlib.Algebra.Order.BigOperators.Group.List
import Watermark.FastFlow.Invariant
import Watermark.Reasoning.Runs

/-!
# Timing — the time spans that go into the ideal service time

`Worker::svc` tests `counter_worker==0`, makes its time span part of `ideal_service_worker` and then
increments the counter.  Every call that reads the counter before the first increment does so, and
one span is all there is when no two calls are between the test and the increment at once.
-/

namespace Watermark.FastFlow

open Reasoning

variable {τ ε γ : Type} {P : Program τ ε γ}

/-! ## Workers that are threads, and what they measure -/

namespace State

/-- Worker `i` is not inside a call. -/
def idle (s : State P) (i : Fin P.threads) : Bool := s.calls.all fun c => c.1 ≠ i

/-- A worker is one thread: it does not call `svc` before it has returned from it. -/
def oneCallAWorker (s : State P) : Action P.threads → Bool
  | .call k => (s.assigned[k]?).all fun a => s.idle a.1
  | _ => true

/-- The time span a step of `Worker::svc` puts into the ideal service time. -/
def measured (s : State P) : Action P.threads → List ℤ
  | .work k ms =>
    match s.calls[k]? with
    | some (_, .stamp _) => [ms]
    | _ => []
  | _ => []

end State

/-- The skeleton with workers that are threads. -/
abbrev serial (P : Program τ ε γ) : System (State P) (Action P.threads) :=
  (system P).restrict State.oneCallAWorker

/-- The same, with the spans that go into the ideal service time written down. -/
abbrev timed (P : Program τ ε γ) : System (State P × List ℤ) (Action P.threads) :=
  (serial P).record State.measured

/-- The ideal service time is what one call has measured. -/
def ServiceTimeOfOneCall (p : State P × List ℤ) : Prop := p.2 = [p.1.ideal_service_worker]

theorem timed_step {p q : State P × List ℤ} {a : Action P.threads}
    (ha : (timed P).step p a = some q) :
    (system P).step p.1 a = some q.1 ∧ q.2 = p.2 ++ p.1.measured a := by
  obtain ⟨hserial, hspans⟩ := System.record_step.mp ha
  exact ⟨(System.restrict_step.mp hserial).2, hspans⟩

theorem reachable_of_timed {p : State P × List ℤ} (hp : (timed P).Reachable p) :
    (system P).Reachable p.1 :=
  hp.of_record.of_restrict

/-! ## The branch -/

namespace Call

/-- In the branch, before the span is added. -/
def stamping : Call τ → ℕ
  | .stamp _ => 1
  | _ => 0

/-- In the branch, after the span is added. -/
def bumping : Call τ → ℕ
  | .bump _ => 1
  | _ => 0

/-- Between the test and `counter_worker++`. -/
def inBranch (c : Call τ) : ℕ := c.stamping + c.bumping

end Call

namespace State

/-- The sum of a quantity over the calls. -/
def tally (s : State P) (f : Call τ → ℕ) : ℕ := (s.calls.map fun c => f c.2).sum

/-- A call reads 0 from `counter_worker` and takes the branch. -/
def TakesBranch (s : State P) : Action P.threads → Prop
  | .work k _ => s.counter_worker = 0 ∧
      ∃ i task t, s.calls[k]? = some (i, .mark task t) ∧ t.todo = []
  | _ => False

/-- A call takes the branch while another is in it. -/
def Overlaps (s : State P) (a : Action P.threads) : Prop :=
  s.TakesBranch a ∧ ∃ c ∈ s.calls, c.2.inBranch = 1

/-- The photos that have been returned. -/
def delivered (s : State P) : ℕ := s.returned.length + s.collected.length

end State

/-- How often the branch has been taken. -/
def branches (p : State P × List ℤ) : ℕ := p.2.length + p.1.tally Call.stamping

theorem le_tally {s : State P} (f : Call τ → ℕ) {c : Fin P.threads × Call τ} (hc : c ∈ s.calls) :
    f c.2 ≤ s.tally f :=
  List.le_sum_of_mem (List.mem_map_of_mem hc)

theorem tally_eq_zero {s : State P} {f : Call τ → ℕ} (h : ∀ c ∈ s.calls, f c.2 = 0) :
    s.tally f = 0 := by
  unfold State.tally
  apply List.sum_eq_zero
  intro n hn
  obtain ⟨c, hc, rfl⟩ := List.mem_map.mp hn
  exact h c hc

theorem tally_inBranch (s : State P) :
    s.tally Call.inBranch = s.tally Call.stamping + s.tally Call.bumping := by
  unfold State.tally Call.inBranch
  exact List.sum_map_add

section Tally

variable {s : State P} {k : ℕ} {i : Fin P.threads} {c : Call τ}

theorem tally_setCall (f : Call τ → ℕ) (hk : s.calls[k]? = some (i, c)) (d : Call τ) :
    (s.setCall k i d).tally f + f c = s.tally f + f d :=
  sum_map_set (fun c : Fin P.threads × Call τ => f c.2) hk (i, d)

theorem tally_finish (f : Call τ → ℕ) (hk : s.calls[k]? = some (i, c)) (task : τ) :
    (s.finish k task).tally f + f c = s.tally f :=
  sum_map_eraseIdx (fun c : Fin P.threads × Call τ => f c.2) hk

end Tally

/-- What a step does about the ideal service time. -/
inductive Timing (s : State P) (a : Action P.threads) (t : State P) : Prop where
  | other (hno : ¬s.TakesBranch a) (hspan : s.measured a = [])
      (hideal : t.ideal_service_worker = s.ideal_service_worker)
      (hcounter : t.counter_worker = s.counter_worker)
      (hstamping : t.tally Call.stamping = s.tally Call.stamping)
      (hbumping : t.tally Call.bumping = s.tally Call.bumping)
      (hdelivered : s.counter_worker = 0 → t.delivered = s.delivered)
  | test (hyes : s.TakesBranch a) (hspan : s.measured a = [])
      (hideal : t.ideal_service_worker = s.ideal_service_worker)
      (hcounter : t.counter_worker = s.counter_worker)
      (hstamping : t.tally Call.stamping = s.tally Call.stamping + 1)
      (hbumping : t.tally Call.bumping = s.tally Call.bumping)
      (hdelivered : t.delivered = s.delivered)
  | stamp (ms : ℤ) (hno : ¬s.TakesBranch a) (hspan : s.measured a = [ms])
      (hideal : t.ideal_service_worker = P.stamp s.ideal_service_worker ms)
      (hcounter : t.counter_worker = s.counter_worker)
      (hstamping : t.tally Call.stamping + 1 = s.tally Call.stamping)
      (hbumping : t.tally Call.bumping = s.tally Call.bumping + 1)
      (hdelivered : t.delivered = s.delivered)
  | bump (hno : ¬s.TakesBranch a) (hspan : s.measured a = [])
      (hideal : t.ideal_service_worker = s.ideal_service_worker)
      (hcounter : t.counter_worker = s.counter_worker + 1)
      (hstamping : t.tally Call.stamping = s.tally Call.stamping)
      (hbumping : t.tally Call.bumping + 1 = s.tally Call.bumping)

theorem timing_work {s t : State P} {k : ℕ} {ms : ℤ} (h : s.workStep k ms = some t) :
    Timing s (.work k ms) t := by
  cases work_cases h with
  | @mark i task m m' memory hk hm =>
      apply Timing.other
      · rintro ⟨_, i', task', t', hk', htodo⟩
        rw [hk] at hk'
        cases hk'
        rw [Marking.step_eq_none_iff.mpr htodo] at hm
        cases hm
      · simp only [State.measured, hk]
      · rfl
      · rfl
      · exact tally_setCall Call.stamping hk (.mark task m')
      · exact tally_setCall Call.bumping hk (.mark task m')
      · exact fun _ => rfl
  | @testStamp i task m hk htodo hc =>
      apply Timing.test
      · exact ⟨hc, i, task, m, hk, htodo⟩
      · simp only [State.measured, hk]
      · rfl
      · rfl
      · exact tally_setCall Call.stamping hk (.stamp task)
      · exact tally_setCall Call.bumping hk (.stamp task)
      · rfl
  | @testReturn i task m hk htodo hc =>
      apply Timing.other
      · exact fun hyes => hc hyes.1
      · simp only [State.measured, hk]
      · rfl
      · rfl
      · exact tally_finish Call.stamping hk task
      · exact tally_finish Call.bumping hk task
      · exact fun hzero => absurd hzero hc
  | @stamp i task hk =>
      apply Timing.stamp ms
      · rintro ⟨_, i', task', t', hk', _⟩
        rw [hk] at hk'
        cases hk'
      · simp only [State.measured, hk]
      · rfl
      · rfl
      · exact tally_setCall Call.stamping hk (.bump task)
      · exact tally_setCall Call.bumping hk (.bump task)
      · rfl
  | @bump i task hk =>
      apply Timing.bump
      · rintro ⟨_, i', task', t', hk', _⟩
        rw [hk] at hk'
        cases hk'
      · simp only [State.measured, hk]
      · rfl
      · rfl
      · exact tally_finish Call.stamping hk task
      · exact tally_finish Call.bumping hk task

theorem timing {s t : State P} {a : Action P.threads} (ha : (system P).step s a = some t) :
    Timing s a t := by
  change s.step a = some t at ha
  cases a with
  | work k ms => exact timing_work ha
  | emit i =>
      simp only [State.step, State.emitStep] at ha
      split at ha
      · cases ha
      · cases ha
        exact .other id rfl rfl rfl rfl rfl fun _ => rfl
      · cases ha
        exact .other id rfl rfl rfl rfl rfl fun _ => rfl
  | call k =>
      simp only [State.step, State.callStep] at ha
      split at ha
      · cases ha
      · cases ha
        refine .other id rfl rfl rfl ?_ ?_ fun _ => rfl
        · unfold State.tally
          rw [List.map_append, List.sum_append]
          rfl
        · unfold State.tally
          rw [List.map_append, List.sum_append]
          rfl
  | collect k =>
      simp only [State.step, State.collectStep] at ha
      split at ha
      · cases ha
      · rename_i task hk
        cases ha
        refine .other id rfl rfl rfl rfl rfl fun _ => ?_
        obtain ⟨hlt, _⟩ := List.getElem?_eq_some_iff.mp hk
        show (s.returned.eraseIdx k).length + (s.collected ++ [task]).length = _
        rw [List.length_eraseIdx_of_lt hlt, List.length_append, List.length_singleton]
        unfold State.delivered
        omega

/-! ## The counter -/

/-- What the counter and the ideal service time say about the spans written down. -/
structure Counted (p : State P × List ℤ) : Prop where
  nonneg : 0 ≤ p.1.counter_worker
  balance : p.1.counter_worker + p.1.tally Call.bumping = p.2.length
  delivered : p.1.counter_worker = 0 → p.1.delivered = 0
  ideal : p.1.ideal_service_worker = p.2.foldl P.stamp 0

theorem counted_step {p q : State P × List ℤ} {a : Action P.threads} (h : Counted p)
    (ha : (timed P).step p a = some q) : Counted q := by
  obtain ⟨hstep, hspans⟩ := timed_step ha
  have hnonneg := h.nonneg
  have hbalance := h.balance
  cases timing hstep with
  | other hno hspan hideal hcounter hstamping hbumping hdelivered =>
      rw [hspan, List.append_nil] at hspans
      refine ⟨by omega, ?_, ?_, ?_⟩
      · rw [hbumping, hspans]
        omega
      · intro hzero
        rw [hcounter] at hzero
        rw [hdelivered hzero]
        exact h.delivered hzero
      · rw [hideal, hspans]
        exact h.ideal
  | test hyes hspan hideal hcounter hstamping hbumping hdelivered =>
      rw [hspan, List.append_nil] at hspans
      refine ⟨by omega, ?_, ?_, ?_⟩
      · rw [hbumping, hspans]
        omega
      · rw [hcounter, hdelivered]
        exact h.delivered
      · rw [hideal, hspans]
        exact h.ideal
  | stamp ms hno hspan hideal hcounter hstamping hbumping hdelivered =>
      rw [hspan] at hspans
      refine ⟨by omega, ?_, ?_, ?_⟩
      · rw [hspans, List.length_append, List.length_singleton]
        omega
      · rw [hcounter, hdelivered]
        exact h.delivered
      · rw [hideal, hspans, List.foldl_append, ← h.ideal]
        rfl
  | bump hno hspan hideal hcounter hstamping hbumping =>
      rw [hspan, List.append_nil] at hspans
      refine ⟨by omega, ?_, fun hzero => by omega, ?_⟩
      · rw [hspans]
        omega
      · rw [hideal, hspans]
        exact h.ideal

theorem counted {p : State P × List ℤ} (hp : (timed P).Reachable p) : Counted p := by
  apply hp.invariant
  · exact ⟨le_rfl, rfl, fun _ => rfl, rfl⟩
  · exact fun p a q _ h ha => counted_step h ha

-- The branch is taken by the steps that are said to take it.
theorem branches_step {p q : State P × List ℤ} {a : Action P.threads}
    (ha : (timed P).step p a = some q) :
    (p.1.TakesBranch a ∧ branches q = branches p + 1) ∨
      (¬p.1.TakesBranch a ∧ branches q = branches p) := by
  obtain ⟨hstep, hspans⟩ := timed_step ha
  unfold branches
  rw [hspans, List.length_append]
  cases timing hstep with
  | other hno hspan hideal hcounter hstamping =>
      rw [hspan, hstamping]
      exact Or.inr ⟨hno, rfl⟩
  | test hyes hspan hideal hcounter hstamping =>
      rw [hspan, hstamping]
      exact Or.inl ⟨hyes, rfl⟩
  | stamp ms hno hspan hideal hcounter hstamping =>
      rw [hspan, ← hstamping, List.length_singleton]
      exact Or.inr ⟨hno, by omega⟩
  | bump hno hspan hideal hcounter hstamping =>
      rw [hspan, hstamping]
      exact Or.inr ⟨hno, rfl⟩

-- As long as the counter is 0, whoever has taken the branch is still in it.
theorem branches_of_takesBranch {p : State P × List ℤ} (h : Counted p) {a : Action P.threads}
    (htakes : p.1.TakesBranch a) : branches p = p.1.tally Call.inBranch := by
  have hcounter : p.1.counter_worker = 0 := by
    cases a with
    | work k ms => exact htakes.1
    | _ => exact htakes.elim
  have hbalance := h.balance
  rw [tally_inBranch]
  unfold branches
  omega

theorem twice_of_overlaps {p q : State P × List ℤ} {a : Action P.threads} (h : Counted p)
    (hover : p.1.Overlaps a) (ha : (timed P).step p a = some q) : 2 ≤ branches q := by
  obtain ⟨htakes, c, hc, hin⟩ := hover
  have hle := le_tally Call.inBranch hc
  have hbranches := branches_of_takesBranch h htakes
  rcases branches_step ha with ⟨_, heq⟩ | ⟨hno, _⟩
  · omega
  · exact absurd htakes hno

theorem twice_step {p q : State P × List ℤ} {a : Action P.threads} (h : 2 ≤ branches p)
    (ha : (timed P).step p a = some q) : 2 ≤ branches q := by
  rcases branches_step ha with ⟨_, heq⟩ | ⟨_, heq⟩ <;> omega

theorem Call.inBranch_le_one (c : Call τ) : c.inBranch ≤ 1 := by
  cases c <;> simp [inBranch, stamping, bumping]

theorem once_step {p q : State P × List ℤ} {a : Action P.threads} (h : Counted p)
    (honce : branches p ≤ 1) (hno : ¬p.1.Overlaps a) (ha : (timed P).step p a = some q) :
    branches q ≤ 1 := by
  rcases branches_step ha with ⟨htakes, heq⟩ | ⟨_, heq⟩
  · have hzero : p.1.tally Call.inBranch = 0 := by
      apply tally_eq_zero
      intro c hc
      have hle := c.2.inBranch_le_one
      have hne : c.2.inBranch ≠ 1 := fun hin => hno ⟨htakes, c, hc, hin⟩
      omega
    have hbranches := branches_of_takesBranch h htakes
    omega
  · omega

/-! ## The end of a run -/

section End

variable {future : ε → List τ} {fuel : ε → ℕ}

-- At the end each branch that has been taken has written its span down, and one has been taken.
theorem spans_of_finished (L : P.Lawful future fuel) (hne : future P.emitter ≠ [])
    {p : State P × List ℤ} (hp : (timed P).Reachable p) (h : p.1.Finished) :
    branches p = p.2.length ∧ 1 ≤ p.2.length := by
  have hzero : ∀ f : Call τ → ℕ, p.1.tally f = 0 := by
    intro f
    unfold State.tally
    rw [h.2.2.1]
    rfl
  have hcounted := counted hp
  have hbalance := hcounted.balance
  rw [hzero] at hbalance
  refine ⟨congrArg (p.2.length + ·) (hzero Call.stamping), ?_⟩
  have hcollected := (collected_of_finished L (reachable_of_timed hp) h).length_eq
  have hpos := List.length_pos_iff.mpr hne
  by_contra hspans
  have hdelivered := hcounted.delivered (by omega)
  unfold State.delivered at hdelivered
  omega

theorem one_span_iff_along (L : P.Lawful future fuel) (hne : future P.emitter ≠ [])
    {as : List (Action P.threads)} {p : State P × List ℤ}
    (hrun : (timed P).exec (timed P).init as = some p) (h : p.1.Finished) :
    p.2.length = 1 ↔ (timed P).Along (fun p a => ¬p.1.Overlaps a) (timed P).init as := by
  have hp : (timed P).Reachable p := System.Reachable.init.exec hrun
  obtain ⟨hbranches, hpos⟩ := spans_of_finished L hne hp h
  constructor
  · intro hone
    by_contra hno
    have htwice : 2 ≤ branches p := by
      apply System.of_not_along (J := fun p => 2 ≤ branches p) _ _ .init hno hrun
      · exact fun p a q hp hover ha => twice_of_overlaps (counted hp) (not_not.mp hover) ha
      · exact fun p a q _ h ha => twice_step h ha
    omega
  · intro halong
    have honce : branches p ≤ 1 := by
      apply halong.keeps (I := fun p => branches p ≤ 1) _ .init _ hrun
      · exact fun p a q hp h hno ha => once_step (counted hp) h hno ha
      · exact Nat.zero_le 1
    omega

end End

end Watermark.FastFlow
