import Mathlib.Data.List.Range
import Mathlib.Data.Nat.Basic
import Mathlib.Tactic.Ring

/-!
# Balanced — cutting `h` rows into `n` consecutive parts of almost equal size

The first `h % n` parts have one row more than the others.  Everything is stated over naturals in
closed form; a loop that computes the parts with running variables is compared with these.
-/

namespace Watermark.Reasoning.Balanced

def size (h n i : ℕ) : ℕ := h / n + if i < h % n then 1 else 0

def start (h n i : ℕ) : ℕ := i * (h / n) + min i (h % n)

theorem start_zero (h n : ℕ) : start h n 0 = 0 := by
  simp [start]

theorem start_succ (h n i : ℕ) : start h n (i + 1) = start h n i + size h n i := by
  unfold start size
  rw [Nat.succ_mul]
  split <;> omega

theorem start_all {n : ℕ} (h : ℕ) (hn : 0 < n) : start h n n = h := by
  have hdiv := Nat.div_add_mod h n
  have hmod := Nat.mod_lt h hn
  unfold start
  rw [Nat.min_eq_right hmod.le]
  omega

theorem start_mono (h n : ℕ) {i j : ℕ} (hij : i ≤ j) : start h n i ≤ start h n j := by
  unfold start
  exact Nat.add_le_add (Nat.mul_le_mul_right _ hij) (by omega)

-- No part reaches past `h`.
theorem end_le {h n i : ℕ} (hi : i < n) : start h n i + size h n i ≤ h := by
  rw [← start_succ]
  calc start h n (i + 1) ≤ start h n n := start_mono h n hi
    _ = h := start_all h (Nat.zero_lt_of_lt hi)

theorem size_antitone (h n : ℕ) {i j : ℕ} (hij : i ≤ j) : size h n j ≤ size h n i := by
  unfold size
  split <;> split <;> omega

theorem size_le_succ (h n i j : ℕ) : size h n i ≤ size h n j + 1 := by
  unfold size
  split <;> split <;> omega

-- The rows of the first `k` parts, part after part, are the rows above the `k`-th.
theorem rows_upto (h n k : ℕ) :
    ((List.range k).flatMap fun i => (List.range (size h n i)).map (start h n i + ·)) =
      List.range (start h n k) := by
  induction k with
  | zero => rw [start_zero]; rfl
  | succ k ih =>
      rw [List.range_succ, List.flatMap_append, ih, start_succ, List.range_add]
      simp only [List.flatMap_cons, List.flatMap_nil, List.append_nil]

-- The parts are exactly the `h` rows, in order.
theorem rows_all {n : ℕ} (h : ℕ) (hn : 0 < n) :
    ((List.range n).flatMap fun i => (List.range (size h n i)).map (start h n i + ·)) =
      List.range h := by
  rw [rows_upto, start_all h hn]

-- Every row lies in exactly one part.
theorem existsUnique_part {h n row : ℕ} (hrow : row < h) (hn : 0 < n) :
    ∃! i, i < n ∧ start h n i ≤ row ∧ row < start h n i + size h n i := by
  have hmem : row ∈ List.range h := List.mem_range.mpr hrow
  rw [← rows_all h hn] at hmem
  obtain ⟨i, hi, hr⟩ := List.mem_flatMap.mp hmem
  obtain ⟨y, hy, rfl⟩ := List.mem_map.mp hr
  rw [List.mem_range] at hi hy
  refine ⟨i, ⟨hi, Nat.le_add_right _ _, Nat.add_lt_add_left hy _⟩, fun j hj => ?_⟩
  obtain ⟨_, hlo, hhi⟩ := hj
  by_contra hne
  rcases Nat.lt_or_gt_of_ne hne with hlt | hgt
  · have hstep := start_mono h n (show j + 1 ≤ i from hlt)
    rw [start_succ] at hstep
    omega
  · have hstep := start_mono h n (show i + 1 ≤ j from hgt)
    rw [start_succ] at hstep
    omega

end Watermark.Reasoning.Balanced
