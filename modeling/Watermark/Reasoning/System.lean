import Mathlib.Algebra.Order.Group.Nat
import Mathlib.Order.Basic

/-!
# System — interleaved runs of threads that take atomic steps

A system has one initial state and a partial step function whose action names the thread that
moves and whatever the environment chooses for it (a clock reading, a task).  An interleaving is
a list of actions.  The file packages the two inductions every development over such a system
needs: an invariant of all reachable states, and a natural-number measure that pays for steps.
-/

namespace Watermark.Reasoning

structure System (σ α : Type*) where
  init : σ
  step : σ → α → Option σ

namespace System

variable {σ α : Type*} (S : System σ α)

inductive Reachable : σ → Prop where
  | init : Reachable S.init
  | next {s t : σ} {a : α} : Reachable s → S.step s a = some t → Reachable t

/-- Execute a finite schedule from `s`; `none` when one of its actions is not enabled. -/
def exec (s : σ) : List α → Option σ
  | [] => some s
  | a :: as => (S.step s a).bind fun t => exec t as

def Enabled (s : σ) (a : α) : Prop := (S.step s a).isSome

/-- No thread can move: a finite run that ends here is maximal. -/
def Stuck (s : σ) : Prop := ∀ a, S.step s a = none

/-- An infinite interleaving. -/
structure InfiniteRun where
  state : ℕ → σ
  action : ℕ → α
  start : state 0 = S.init
  next : ∀ n, S.step (state n) (action n) = some (state (n + 1))

variable {S}

theorem enabled_iff {s : σ} {a : α} : S.Enabled s a ↔ ∃ t, S.step s a = some t := by
  unfold Enabled
  exact Option.isSome_iff_exists

theorem Stuck.not_enabled {s : σ} (h : S.Stuck s) (a : α) : ¬S.Enabled s a := by
  unfold Enabled
  rw [h a]
  exact Bool.false_ne_true

theorem exec_cons {s u : σ} {a : α} {as : List α} (h : S.exec s (a :: as) = some u) :
    ∃ t, S.step s a = some t ∧ S.exec t as = some u :=
  Option.bind_eq_some_iff.mp h

theorem Reachable.exec {s t : σ} {as : List α} (hs : S.Reachable s)
    (h : S.exec s as = some t) : S.Reachable t := by
  induction as generalizing s with
  | nil =>
      cases h
      exact hs
  | cons a as ih =>
      obtain ⟨u, hu, ht⟩ := exec_cons h
      exact ih (hs.next hu) ht

-- A schedule that can be executed leads to a reachable state.
theorem reachable_get {as : List α} (h : (S.exec S.init as).isSome) :
    S.Reachable ((S.exec S.init as).get h) :=
  Reachable.init.exec (Option.some_get h).symm

theorem InfiniteRun.reachable (r : S.InfiniteRun) (n : ℕ) : S.Reachable (r.state n) := by
  induction n with
  | zero =>
      rw [r.start]
      exact .init
  | succ n ih => exact ih.next (r.next n)

/-! ## Invariants -/

-- What holds initially and is kept by every step from a reachable state holds in every reachable
-- state.
theorem Reachable.invariant {P : σ → Prop} (h0 : P S.init)
    (hstep : ∀ s a t, S.Reachable s → P s → S.step s a = some t → P t)
    {s : σ} (hs : S.Reachable s) : P s := by
  induction hs with
  | init => exact h0
  | next hs ha ih => exact hstep _ _ _ hs ih ha

-- A property that steps from reachable states keep is kept by every schedule.
theorem Reachable.exec_keeps {P : σ → Prop}
    (hstep : ∀ s a t, S.Reachable s → P s → S.step s a = some t → P t)
    {s t : σ} {as : List α} (hs : S.Reachable s) (hp : P s) (h : S.exec s as = some t) : P t := by
  induction as generalizing s with
  | nil =>
      cases h
      exact hp
  | cons a as ih =>
      obtain ⟨u, hu, ht⟩ := exec_cons h
      exact ih (hs.next hu) (hstep s a u hs hp hu) ht

/-! ## Measures -/

-- If the only steps that fail to decrease the measure are idle ones, an infinite run takes idle
-- steps for ever.
theorem InfiniteRun.idle_infinitely_often {μ : σ → ℕ} {idle : σ → α → Prop}
    (hlt : ∀ s a t, S.Reachable s → ¬idle s a → S.step s a = some t → μ t < μ s)
    (r : S.InfiniteRun) (m : ℕ) : ∃ k, m ≤ k ∧ idle (r.state k) (r.action k) := by
  by_contra hno
  have hbusy : ∀ k, m ≤ k → ¬idle (r.state k) (r.action k) := fun k hk hi => hno ⟨k, hk, hi⟩
  have hdown : ∀ k, μ (r.state (m + k)) + k ≤ μ (r.state m) := by
    intro k
    induction k with
    | zero => simp
    | succ k ih =>
        have hlt' := hlt _ _ _ (r.reachable (m + k)) (hbusy _ (by omega)) (r.next (m + k))
        rw [Nat.add_assoc] at hlt'
        omega
  have hend := hdown (μ (r.state m) + 1)
  omega

-- A measure that every step decreases excludes infinite runs.
theorem InfiniteRun.absurd {μ : σ → ℕ}
    (hμ : ∀ s a t, S.Reachable s → S.step s a = some t → μ t < μ s)
    (r : S.InfiniteRun) : False := by
  let never : σ → α → Prop := fun _ _ => False
  have hlt : ∀ s a t, S.Reachable s → ¬never s a → S.step s a = some t → μ t < μ s :=
    fun s a t hs _ ha => hμ s a t hs ha
  obtain ⟨k, _, hk⟩ := r.idle_infinitely_often hlt 0
  exact hk

-- If from every reachable state outside `goal` some schedule decreases the measure, then a
-- reachable state in `goal` exists after every reachable state.
theorem Reachable.exists_goal {μ : σ → ℕ} {goal : σ → Prop}
    (hprog : ∀ s, S.Reachable s → ¬goal s → ∃ as t, S.exec s as = some t ∧ μ t < μ s)
    {s : σ} (hs : S.Reachable s) : ∃ t, S.Reachable t ∧ goal t := by
  induction hm : μ s using Nat.strong_induction_on generalizing s with
  | h m ih =>
      by_cases hg : goal s
      · exact ⟨s, hs, hg⟩
      · obtain ⟨as, t, ht, hlt⟩ := hprog s hs hg
        exact ih (μ t) (hm ▸ hlt) (hs.exec ht) rfl

end System

end Watermark.Reasoning
