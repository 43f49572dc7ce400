import Mathlib.Algebra.BigOperators.Group.Finset.Basic
import Mathlib.Algebra.BigOperators.Group.Finset.Piecewise
import Mathlib.Algebra.BigOperators.Fin
import Mathlib.Algebra.Order.BigOperators.Group.Finset
import Mathlib.Algebra.Order.Group.Nat

/-!
# Threads — quantities summed over a family of threads

A step of thread `i` changes the local state of `i` only, so a sum over the family changes by
the contribution of `i`.  The lemmas that compare two sums write both sides with additions, which
keeps them valid for naturals and multisets alike and leaves the arithmetic to `omega`.
-/

namespace Watermark.Reasoning

open Finset Function

variable {ι β M : Type*} [Fintype ι] [DecidableEq ι] [AddCommMonoid M]

-- The contribution of one thread, and the others'.
theorem sum_split (f : β → M) (w : ι → β) (i : ι) :
    ∑ j, f (w j) = f (w i) + ∑ j ∈ univ.erase i, f (w j) :=
  (add_sum_erase univ (fun j => f (w j)) (mem_univ i)).symm

theorem sum_update_split (f : β → M) (w : ι → β) (i : ι) (x : β) :
    ∑ j, f (update w i x j) = f x + ∑ j ∈ univ.erase i, f (w j) := by
  rw [sum_split f (update w i x) i, update_self]
  congr 1
  exact sum_congr rfl fun j hj => by rw [update_of_ne (ne_of_mem_erase hj)]

theorem sum_update (f : β → M) (w : ι → β) (i : ι) (x : β) :
    ∑ j, f (update w i x j) + f (w i) = ∑ j, f (w j) + f x := by
  rw [sum_update_split, sum_split f w i]
  ac_rfl

-- An update that keeps the contribution of `i` keeps the sum.
theorem sum_update_eq (f : β → M) (w : ι → β) (i : ι) (x : β) (h : f x = f (w i)) :
    ∑ j, f (update w i x j) = ∑ j, f (w j) := by
  rw [sum_update_split, sum_split f w i, h]

-- The same when the contribution depends on the thread.
theorem sum_at (f : ι → β → M) (w : ι → β) (i : ι) :
    ∑ j, f j (w j) = f i (w i) + ∑ j ∈ univ.erase i, f j (w j) :=
  (add_sum_erase univ (fun j => f j (w j)) (mem_univ i)).symm

theorem sum_update_at (f : ι → β → M) (w : ι → β) (i : ι) (x : β) :
    ∑ j, f j (update w i x j) = f i x + ∑ j ∈ univ.erase i, f j (w j) := by
  rw [sum_at f (update w i x) i, update_self]
  congr 1
  exact sum_congr rfl fun j hj => by rw [update_of_ne (ne_of_mem_erase hj)]

omit [Fintype ι] in
-- What holds of the new state of `i` and of the states of the others holds of all.
theorem forall_update (p : ι → β → Prop) {w : ι → β} {i : ι} {x : β} (hx : p i x)
    (h : ∀ j, j ≠ i → p j (w j)) (j : ι) : p j (update w i x j) := by
  by_cases hj : j = i
  · subst hj
    rwa [update_self]
  · rw [update_of_ne hj]
    exact h j hj

omit [DecidableEq ι] in
-- Sums over threads and over a list commute.
theorem sum_list_sum {α : Type*} (f : ι → α → M) (l : List α) :
    ∑ i, (l.map (f i)).sum = (l.map fun a => ∑ i, f i a).sum := by
  induction l with
  | nil => simp
  | cons a l ih =>
      simp only [List.map_cons, List.sum_cons]
      rw [sum_add_distrib, ih]

omit [DecidableEq ι] in
-- A sum of naturals, each at most one, that reaches the number of threads is one everywhere.
theorem eq_one_of_sum_eq_card (f : ι → ℕ) (hle : ∀ i, f i ≤ 1)
    (hsum : ∑ i, f i = Fintype.card ι) (i : ι) : f i = 1 := by
  have hcard : ∑ i, f i = ∑ _i : ι, 1 := by
    rw [hsum, sum_const, card_univ, smul_eq_mul, mul_one]
  exact (sum_eq_sum_iff_of_le fun i _ => hle i).mp hcard i (mem_univ i)

end Watermark.Reasoning
