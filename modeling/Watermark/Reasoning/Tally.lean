import Mathlib.Data.List.Count
import Mathlib.Data.List.Induction
import Mathlib.Data.List.Perm.Basic
import Mathlib.Logic.Function.Basic

/-!
# Tally — collecting parts until a whole is there

Parts arrive in any order.  Each is filed under its key, and the part that makes its file `n` long
completes the whole.  When no key has more than `n` parts, a whole is completed once, by its last
part, and no part of it arrives later.
-/

namespace Watermark.Reasoning

open Function

structure Tally (α κ : Type*) where
  results : κ → List α
  completed : List α

namespace Tally

variable {α κ : Type*} [DecidableEq κ] (key : α → κ) (n : ℕ)

def empty : Tally α κ := ⟨fun _ => [], []⟩

def add (b : Tally α κ) (a : α) : Tally α κ where
  results := update b.results (key a) (b.results (key a) ++ [a])
  completed :=
    if (b.results (key a) ++ [a]).length = n then b.completed ++ [a] else b.completed

/-- The files after the parts `l` have arrived. -/
def of (l : List α) : Tally α κ := l.foldl (add key n) empty

theorem of_concat (l : List α) (a : α) : of key n (l ++ [a]) = add key n (of key n l) a := by
  unfold of
  rw [List.foldl_append, List.foldl_cons, List.foldl_nil]

theorem count_map_concat (l : List α) (a : α) (k : κ) :
    ((l ++ [a]).map key).count k = (l.map key).count k + if key a = k then 1 else 0 := by
  rw [List.map_append, List.count_append, List.map_singleton, List.count_singleton]
  simp only [beq_iff_eq]

theorem length_results (l : List α) (k : κ) :
    ((of key n l).results k).length = (l.map key).count k := by
  induction l using List.reverseRecOn with
  | nil => rfl
  | append_singleton l a ih =>
      rw [of_concat, count_map_concat, ← ih]
      unfold add
      by_cases hk : key a = k
      · subst hk
        rw [if_pos rfl]
        simp only [update_self, List.length_append, List.length_singleton]
      · rw [if_neg hk, Nat.add_zero]
        simp only [update_of_ne (Ne.symm hk)]

-- `completed` after one more part, in terms of the parts that have arrived.
theorem completed_concat (l : List α) (a : α) :
    (of key n (l ++ [a])).completed =
      if (l.map key).count (key a) + 1 = n then (of key n l).completed ++ [a]
      else (of key n l).completed := by
  rw [of_concat]
  unfold add
  simp only [List.length_append, List.length_singleton, length_results]

-- A key is completed once, and exactly when all its parts have arrived.
theorem count_completed {n : ℕ} (hn : 0 < n) (l : List α) (h : ∀ k, (l.map key).count k ≤ n)
    (k : κ) : ((of key n l).completed.map key).count k =
      if (l.map key).count k = n then 1 else 0 := by
  induction l using List.reverseRecOn with
  | nil =>
      have hzero : (([] : List α).map key).count k = 0 := rfl
      rw [hzero, if_neg (Nat.ne_of_lt hn)]
      rfl
  | append_singleton l a ih =>
      have hle : ∀ j, (l.map key).count j ≤ n := by
        intro j
        have hj := h j
        rw [count_map_concat] at hj
        omega
      have hold := ih hle
      have hk := h k
      rw [count_map_concat] at hk
      rw [completed_concat, count_map_concat]
      by_cases hak : key a = k
      · subst hak
        rw [if_pos rfl] at hk
        rw [if_pos rfl]
        -- before `a` arrived the key was not complete
        rw [if_neg (by omega)] at hold
        by_cases hfull : (l.map key).count (key a) + 1 = n
        · rw [if_pos hfull, if_pos hfull, count_map_concat, if_pos rfl, hold]
        · rw [if_neg hfull, if_neg hfull, hold]
      · simp only [if_neg hak, Nat.add_zero]
        rw [← hold]
        split
        · rw [count_map_concat, if_neg hak, Nat.add_zero]
        · rfl

-- What is completed has arrived.
theorem mem_of_mem_completed {l : List α} {a : α} (h : a ∈ (of key n l).completed) : a ∈ l := by
  induction l using List.reverseRecOn with
  | nil => exact absurd h List.not_mem_nil
  | append_singleton l b ih =>
      rw [completed_concat] at h
      split at h
      · rcases List.mem_append.mp h with h | h
        · exact List.mem_append_left _ (ih h)
        · exact List.mem_append_right _ h
      · exact List.mem_append_left _ (ih h)

end Tally

end Watermark.Reasoning
