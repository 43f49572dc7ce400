import Mathlib.Data.List.ReduceOption
import Mathlib.Data.List.Basic

/-!
# Tokens — streams of items and end-of-stream marks

A queue of a farm carries items and, behind them, one end-of-stream mark for each consumer.
`none` is the mark.  `items` and `marks` split a stream into the two; the last section is about
the suffixes of a complete stream, which is what consumers have not popped yet.
-/

namespace Watermark.Reasoning

variable {α : Type*}

/-- The items of a stream, in order. -/
def items (l : List (Option α)) : List α := l.reduceOption

/-- The number of end-of-stream marks in a stream. -/
def marks (l : List (Option α)) : ℕ := l.countP Option.isNone

/-- `l`, closed by `n` marks. -/
def stream (l : List α) (n : ℕ) : List (Option α) := l.map some ++ List.replicate n none

@[simp] theorem items_nil : items ([] : List (Option α)) = [] := rfl

@[simp] theorem items_some (a : α) (l : List (Option α)) : items (some a :: l) = a :: items l :=
  List.reduceOption_cons_of_some a l

@[simp] theorem items_none (l : List (Option α)) : items (none :: l) = items l :=
  List.reduceOption_cons_of_none l

@[simp] theorem items_append (l l' : List (Option α)) : items (l ++ l') = items l ++ items l' :=
  List.reduceOption_append l l'

@[simp] theorem items_map_some (l : List α) : items (l.map some) = l := by
  induction l with
  | nil => rfl
  | cons a l ih => rw [List.map_cons, items_some, ih]

@[simp] theorem items_replicate (n : ℕ) : items (List.replicate n (none : Option α)) = [] := by
  induction n with
  | zero => rfl
  | succ n ih => rw [List.replicate_succ, items_none, ih]

@[simp] theorem marks_nil : marks ([] : List (Option α)) = 0 := rfl

@[simp] theorem marks_some (a : α) (l : List (Option α)) : marks (some a :: l) = marks l :=
  List.countP_cons_of_neg (by simp)

@[simp] theorem marks_none (l : List (Option α)) : marks (none :: l) = marks l + 1 :=
  List.countP_cons_of_pos rfl

@[simp] theorem marks_append (l l' : List (Option α)) : marks (l ++ l') = marks l + marks l' :=
  List.countP_append

@[simp] theorem marks_map_some (l : List α) : marks (l.map some) = 0 := by
  induction l with
  | nil => rfl
  | cons a l ih => rw [List.map_cons, marks_some, ih]

@[simp] theorem marks_replicate (n : ℕ) : marks (List.replicate n (none : Option α)) = n := by
  induction n with
  | zero => rfl
  | succ n ih => rw [List.replicate_succ, marks_none, ih]

@[simp] theorem items_stream (l : List α) (n : ℕ) : items (stream l n) = l := by
  simp [stream]

@[simp] theorem marks_stream (l : List α) (n : ℕ) : marks (stream l n) = n := by
  simp [stream]

theorem mem_items {a : α} {l : List (Option α)} : a ∈ items l ↔ some a ∈ l :=
  List.reduceOption_mem_iff

/-! ## Suffixes of a complete stream -/

section Suffix

variable {l : List α} {n : ℕ} {popped rest : List (Option α)}

-- When the last mark of a stream with marks is popped, nothing is left.
theorem suffix_eq_nil (hn : 0 < n) (h : popped ++ rest = stream l n) (hr : marks rest = 0) :
    rest = [] := by
  by_contra hne
  have hlast : (popped ++ rest).getLast? = some none := by
    rw [h]
    obtain ⟨k, rfl⟩ := Nat.exists_eq_succ_of_ne_zero (Nat.pos_iff_ne_zero.mp hn)
    unfold stream
    rw [List.replicate_succ', ← List.append_assoc, List.getLast?_append]
    rfl
  rw [List.getLast?_append_of_ne_nil _ hne] at hlast
  have hmem : none ∈ rest := List.mem_of_getLast? hlast
  have hpos : 0 < marks rest := List.countP_pos_iff.mpr ⟨none, hmem, rfl⟩
  omega

-- Before an item there are only items, and it is the next of them.
theorem next_item {a : α} (h : popped ++ some a :: rest = stream l n) :
    l[(items popped).length]? = some a := by
  have hitems := congrArg items h
  rw [items_append, items_some, items_stream] at hitems
  rw [← hitems, List.getElem?_append_right (Nat.le_refl _), Nat.sub_self]
  rfl

end Suffix

/-! ## Parts of a complete stream -/

theorem exists_stream_of_sublist {s : List (Option α)} {l : List α} {n : ℕ}
    (h : s.Sublist (stream l n)) : ∃ l' n', s = stream l' n' := by
  obtain ⟨s₁, s₂, rfl, h₁, h₂⟩ := List.sublist_append_iff.mp h
  obtain ⟨l', _, rfl⟩ := List.sublist_map_iff.mp h₁
  obtain ⟨n', _, rfl⟩ := List.sublist_replicate_iff.mp h₂
  exact ⟨l', n', rfl⟩

-- Behind a mark there are only marks.
theorem items_eq_nil_of_mark {x y : List (Option α)} {l : List α} {n : ℕ}
    (h : x ++ y = stream l n) (hx : none ∈ x) : items y = [] := by
  induction l generalizing x with
  | nil =>
      have hsub : y.Sublist (List.replicate n none) := by
        show y.Sublist (stream [] n)
        rw [← h]
        exact List.sublist_append_right x y
      obtain ⟨m, _, rfl⟩ := List.sublist_replicate_iff.mp hsub
      exact items_replicate m
  | cons a l ih =>
      cases x with
      | nil => exact absurd hx List.not_mem_nil
      | cons b x =>
          have hcons : b :: (x ++ y) = some a :: stream l n := h
          obtain ⟨rfl, hrest⟩ := List.cons.inj hcons
          refine ih hrest ?_
          simpa using hx

end Watermark.Reasoning
