import Mathlib

/-!
# Clock — the successive readings of a clock

A thread that reads a clock again and again sees a sequence that never decreases and passes every
bound.  Waiting is waiting for the first reading at or past a bound.
-/

namespace Watermark.Reasoning

structure Clock where
  now : ℕ → ℤ
  mono : Monotone now
  unbounded : ∀ b, ∃ k, b ≤ now k

namespace Clock

variable (c : Clock)

/-- The number of readings before the bound is passed. -/
def ticksTo (b : ℤ) : ℕ := Nat.find (c.unbounded b)

/-- From reading `k` on, reading `n` is the first at or past the bound. -/
def IsFirst (k : ℕ) (b : ℤ) (n : ℕ) : Prop :=
  k ≤ n ∧ b ≤ c.now n ∧ ∀ i, k ≤ i → i < n → c.now i < b

variable {c}

theorem lt_ticksTo {b : ℤ} {k : ℕ} (h : c.now k < b) : k < c.ticksTo b := by
  by_contra hle
  have hspec : b ≤ c.now (c.ticksTo b) := Nat.find_spec (c.unbounded b)
  have hmono := c.mono (Nat.le_of_not_lt hle)
  omega

theorem isFirst_self {k : ℕ} {b : ℤ} (h : b ≤ c.now k) : c.IsFirst k b k :=
  ⟨Nat.le_refl k, h, fun _ hki hik => absurd hik (Nat.not_lt.mpr hki)⟩

-- A reading before the bound is not the first past it.
theorem IsFirst.of_succ {k n : ℕ} {b : ℤ} (hk : c.now k < b) (h : c.IsFirst (k + 1) b n) :
    c.IsFirst k b n := by
  obtain ⟨hle, hb, hbefore⟩ := h
  refine ⟨by omega, hb, fun i hki hin => ?_⟩
  rcases Nat.eq_or_lt_of_le hki with rfl | hlt
  · exact hk
  · exact hbefore i hlt hin

-- The same reading is the first past two bounds exactly when no reading falls between them.
theorem IsFirst.iff_no_reading {k n : ℕ} {b b' : ℤ} (hb : b ≤ b') (h : c.IsFirst k b' n) :
    c.IsFirst k b n ↔ ∀ i, k ≤ i → ¬(b ≤ c.now i ∧ c.now i < b') := by
  obtain ⟨hkn, hn, hbefore⟩ := h
  constructor
  · intro ⟨_, _, hfirst⟩ i hki ⟨hlow, hhigh⟩
    have hin : i < n := by
      by_contra hni
      have hmono := c.mono (Nat.le_of_not_lt hni)
      omega
    have hlt := hfirst i hki hin
    omega
  · intro hno
    refine ⟨hkn, by omega, fun i hki hin => ?_⟩
    have hlt := hbefore i hki hin
    by_contra hge
    exact hno i hki ⟨by omega, hlt⟩

end Clock

end Watermark.Reasoning
