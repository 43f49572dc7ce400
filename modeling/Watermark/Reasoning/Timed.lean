import Watermark.Reasoning.Simulation

/-!
# Timed — runs in which time passes

The step function is told what the clock shows, and an action carries the time at which it is
taken.  A run does not go back in time.
-/

namespace Watermark.Reasoning

variable {σ α τ β : Type*}

namespace System

/-- The runs that begin in `init` when the clock shows `start`. -/
def timed (init : σ) (start : ℤ) (step : ℤ → σ → α → Option σ) : System (σ × ℤ) (α × ℤ) where
  init := (init, start)
  step p a := if p.2 ≤ a.2 then (step a.2 p.1 a.1).map fun s => (s, a.2) else none

section Timed

variable {init : σ} {start : ℤ} {step : ℤ → σ → α → Option σ}

theorem timed_step {p q : σ × ℤ} {a : α × ℤ} :
    (timed init start step).step p a = some q ↔
      p.2 ≤ a.2 ∧ step a.2 p.1 a.1 = some q.1 ∧ q.2 = a.2 := by
  show (if p.2 ≤ a.2 then (step a.2 p.1 a.1).map fun s => (s, a.2) else none) = some q ↔ _
  rw [Option.ite_none_right_eq_some, Option.map_eq_some_iff]
  apply and_congr_right
  intro _
  constructor
  · rintro ⟨s, hs, rfl⟩
    exact ⟨hs, rfl⟩
  · intro ⟨hs, ht⟩
    exact ⟨q.1, hs, Prod.ext rfl ht.symm⟩

theorem timed_enabled {p : σ × ℤ} {a : α} {t : ℤ} (ht : p.2 ≤ t)
    (h : (step t p.1 a).isSome = true) : (timed init start step).Enabled p (a, t) := by
  obtain ⟨s, hs⟩ := Option.isSome_iff_exists.mp h
  exact enabled_iff.mpr ⟨(s, t), timed_step.mpr ⟨ht, hs, rfl⟩⟩

-- What is kept by the passing of time and by every step at the time it is taken.
theorem Reachable.timed_invariant {P : ℤ → σ → Prop} (h0 : P start init)
    (hwait : ∀ t u s, t ≤ u → P t s → P u s)
    (hstep : ∀ t s a s', (∃ t₀, (timed init start step).Reachable (s, t₀)) → P t s →
      step t s a = some s' → P t s')
    {p : σ × ℤ} (hp : (timed init start step).Reachable p) : P p.2 p.1 := by
  let Q : σ × ℤ → Prop := fun p => P p.2 p.1
  apply hp.invariant (P := Q) h0
  intro p a q hp hP ha
  obtain ⟨ht, hs, hq⟩ := timed_step.mp ha
  show P q.2 q.1
  rw [hq]
  exact hstep a.2 p.1 a.1 q.1 ⟨p.2, hp⟩ (hwait p.2 a.2 p.1 ht hP) hs

-- Without the times it is a run of `A`, in which some of the steps do not show.
theorem Reachable.untimed {A : System τ β} {f : σ → τ} (h0 : f init = A.init)
    (hstep : ∀ t s a s', step t s a = some s' → f s' = f s ∨ ∃ b, A.step (f s) b = some (f s'))
    {p : σ × ℤ} (hp : (timed init start step).Reachable p) : A.Reachable (f p.1) := by
  have hsim : Simulation (timed init start step) A fun p u => f p.1 = u := by
    refine ⟨h0, fun p a q u _ _ hr ha => ?_⟩
    obtain ⟨_, hs, _⟩ := timed_step.mp ha
    rcases hstep _ _ _ _ hs with heq | ⟨b, hb⟩
    · exact Simulation.stutter (heq.trans hr)
    · exact Simulation.one (hr ▸ hb) rfl
  obtain ⟨u, hu, hr⟩ := hsim.reachable hp
  rwa [hr]

namespace InfiniteRun

variable (r : (timed init start step).InfiniteRun)

/-- Whatever the time, it is that late sooner or later. -/
def TimePasses : Prop := ∀ b, ∃ n, b ≤ (r.state n).2

theorem time_mono {m n : ℕ} (h : m ≤ n) : (r.state m).2 ≤ (r.state n).2 := by
  induction h with
  | refl => exact le_refl _
  | @step n _ ih =>
      obtain ⟨ht, _, hnext⟩ := timed_step.mp (r.next n)
      exact ih.trans (hnext ▸ ht)

variable {r}

-- It is that late for good.
theorem TimePasses.exists_late (h : r.TimePasses) (b : ℤ) (m : ℕ) :
    ∃ n, m ≤ n ∧ b ≤ (r.state (n + 1)).2 := by
  obtain ⟨n, hn⟩ := h b
  refine ⟨max m n, Nat.le_max_left m n, hn.trans (r.time_mono ?_)⟩
  exact (Nat.le_max_right m n).trans (Nat.le_succ _)

end InfiniteRun

end Timed

end System

end Watermark.Reasoning
