import Watermark.Reasoning.Threads

/-!
# Lanes — one item of every kind through each of several lanes

Every lane delivers its items in the order `0, 1, 2, ...`, at its own pace; `c i` is how many lane
`i` has delivered.  Item `k` is complete when all lanes have delivered it.  However far one lane
runs ahead of another, the items become complete in order.
-/

namespace Watermark.Reasoning.Lanes

open Finset Function

variable {ι : Type*} [Fintype ι] {c : ι → ℕ} {k m : ℕ}

/-- How many lanes have delivered item `k`. -/
def arrived (c : ι → ℕ) (k : ℕ) : ℕ := ∑ i, if k < c i then 1 else 0

/-- Exactly the items below `m` are complete. -/
def Complete (c : ι → ℕ) (m : ℕ) : Prop := ∀ k, k < m ↔ ∀ i, k < c i

theorem arrived_zero (k : ℕ) : arrived (fun _ : ι => 0) k = 0 := by
  simp [arrived]

omit [Fintype ι] in
theorem complete_zero [Nonempty ι] : Complete (fun _ : ι => 0) 0 := by
  intro k
  simp

theorem arrived_eq_card_iff (c : ι → ℕ) (k : ℕ) :
    arrived c k = Fintype.card ι ↔ ∀ i, k < c i := by
  constructor
  · intro h i
    have hle : ∀ j, (if k < c j then 1 else 0) ≤ 1 := by
      intro j
      split <;> omega
    have hone := eq_one_of_sum_eq_card _ hle h i
    by_contra hk
    rw [if_neg hk] at hone
    exact Nat.zero_ne_one hone
  · intro h
    unfold arrived
    rw [sum_congr rfl fun i _ => if_pos (h i), sum_const, card_univ, smul_eq_mul, mul_one]

omit [Fintype ι] in
-- With the same count everywhere, what is complete is known.
theorem Complete.of_const (h : Complete c m) [Nonempty ι] {n : ℕ} (hc : ∀ i, c i = n) : m = n := by
  have hiff : ∀ k, k < m ↔ k < n := by
    intro k
    rw [h k]
    constructor
    · intro hall
      have i : ι := Classical.arbitrary ι
      exact hc i ▸ hall i
    · intro hk i
      rwa [hc i]
  have hm := hiff m
  have hn := hiff n
  omega

variable [DecidableEq ι] (i : ι)

/-! ## Lane `i` delivers its next item -/

theorem arrived_next (c : ι → ℕ) : arrived (update c i (c i + 1)) (c i) = arrived c (c i) + 1 := by
  have hsum := sum_update (fun x => if c i < x then 1 else 0) c i (c i + 1)
  rw [if_neg (Nat.lt_irrefl _), if_pos (Nat.lt_succ_self _)] at hsum
  exact hsum

theorem arrived_other {c : ι → ℕ} (hk : k ≠ c i) :
    arrived (update c i (c i + 1)) k = arrived c k := by
  refine sum_update_eq (fun x => if k < x then 1 else 0) c i (c i + 1) (if_congr ?_ rfl rfl)
  omega

-- The delivery completes an item if all other lanes have delivered it; it is then the first that
-- was not complete.
theorem Complete.next (h : Complete c m)
    (hall : arrived (update c i (c i + 1)) (c i) = Fintype.card ι) :
    c i = m ∧ Complete (update c i (c i + 1)) (m + 1) := by
  have hlt := (arrived_eq_card_iff _ _).mp hall
  -- item `c i` was missing in lane `i` only
  have hnot : ¬c i < m := fun hm => Nat.lt_irrefl _ ((h (c i)).mp hm i)
  have hothers : ∀ j, j ≠ i → c i < c j := by
    intro j hj
    have hj' := hlt j
    rwa [update_of_ne hj] at hj'
  have hle : c i ≤ m := by
    by_contra hgt
    refine Nat.lt_irrefl m ((h m).mpr fun j => ?_)
    by_cases hj : j = i
    · subst hj
      omega
    · have := hothers j hj
      omega
  have hm : c i = m := by omega
  refine ⟨hm, fun k => ⟨fun hk j => ?_, fun hk => ?_⟩⟩
  · by_cases hj : j = i
    · subst hj
      rw [update_self]
      omega
    · have := hothers j hj
      rw [update_of_ne hj]
      omega
  · have hi := hk i
    rw [update_self] at hi
    omega

-- Otherwise nothing becomes complete.
theorem Complete.same (h : Complete c m)
    (hnot : arrived (update c i (c i + 1)) (c i) ≠ Fintype.card ι) :
    Complete (update c i (c i + 1)) m := by
  have hmissing : ¬∀ j, c i < update c i (c i + 1) j := fun hall =>
    hnot ((arrived_eq_card_iff _ _).mpr hall)
  intro k
  rw [h k]
  constructor
  · intro hk j
    by_cases hj : j = i
    · subst hj
      rw [update_self]
      exact Nat.lt_succ_of_lt (hk j)
    · rw [update_of_ne hj]
      exact hk j
  · intro hk j
    by_cases hj : j = i
    · subst hj
      have hle := hk j
      rw [update_self] at hle
      -- `k = c j` would make item `c j` complete
      rcases Nat.lt_succ_iff_lt_or_eq.mp hle with hlt | heq
      · exact hlt
      · exact absurd (fun l => heq ▸ hk l) hmissing
    · have := hk j
      rwa [update_of_ne hj] at this

end Watermark.Reasoning.Lanes
