import Mathlib.Data.List.Basic

/-!
# Linked — lists of cells each of which points to the next one
-/

namespace Watermark.Reasoning

variable {ι : Type*} {next : ι → Option ι}

/-- Each cell of the list points to the one after it, and the last one to none. -/
def Linked (next : ι → Option ι) : List ι → Prop
  | [] => True
  | x :: l => next x = l.head? ∧ Linked next l

namespace Linked

variable {next' : ι → Option ι} {l : List ι}

-- Other cells may be changed at will,
theorem congr (h : Linked next l) (hsame : ∀ x ∈ l, next' x = next x) : Linked next' l := by
  induction l with
  | nil => exact trivial
  | cons x l ih =>
      refine ⟨?_, ih h.2 fun y hy => hsame y (List.mem_cons_of_mem x hy)⟩
      rw [hsame x List.mem_cons_self]
      exact h.1

-- and the last one may be made to point to a new cell.
theorem link {front : List ι} {x n : ι} (h : Linked next (front ++ [x]))
    (hsame : ∀ y ∈ front, next' y = next y) (hx : next' x = some n) (hn : next' n = none) :
    Linked next' (front ++ [x] ++ [n]) := by
  induction front with
  | nil => exact ⟨hx, hn, trivial⟩
  | cons y front ih =>
      refine ⟨?_, ih h.2 fun z hz => hsame z (List.mem_cons_of_mem y hz)⟩
      rw [hsame y List.mem_cons_self]
      have hhead : next y = (front ++ [x]).head? := h.1
      rw [hhead]
      cases front <;> rfl

end Linked

end Watermark.Reasoning
