import Mathlib.Data.List.Basic

/-!
# Queue — the blocking queue of util.cpp

`push` puts at the front of `d_queue` and `pop` takes from the back.  Here each of the two is one
atomic step and `pop` of an empty queue is a thread that waits.  Everything above this file reads
a queue through `contents`, the elements in the order in which they will be popped.
-/

namespace Watermark

/-- `queue<T>`: the deque, front first. -/
structure Queue (α : Type*) where
  d_queue : List α
deriving DecidableEq

namespace Queue

variable {α : Type*}

/-- `d_queue.push_front(value)` -/
def push (q : Queue α) (value : α) : Queue α := ⟨value :: q.d_queue⟩

/-- `rc(d_queue.back()); d_queue.pop_back()`; `none` while `wait` blocks. -/
def pop (q : Queue α) : Option (α × Queue α) :=
  match q.d_queue.getLast? with
  | none => none
  | some rc => some (rc, ⟨q.d_queue.dropLast⟩)

def isEmpty (q : Queue α) : Bool := q.d_queue.isEmpty

/-- From back to front: the next element to be popped comes first. -/
def contents (q : Queue α) : List α := q.d_queue.reverse

@[simp] theorem contents_nil : (⟨[]⟩ : Queue α).contents = [] := rfl

@[simp] theorem contents_push (q : Queue α) (value : α) :
    (q.push value).contents = q.contents ++ [value] := by
  simp only [contents, push, List.reverse_cons]

theorem pop_eq_none_iff {q : Queue α} : q.pop = none ↔ q.contents = [] := by
  unfold pop contents
  rw [List.reverse_eq_nil_iff]
  cases h : q.d_queue.getLast? with
  | none => simpa using h
  | some rc =>
      have hne : q.d_queue ≠ [] := fun h0 => by simp [h0] at h
      simp [hne]

-- Popping takes the element pushed longest ago and keeps the order of the others.
theorem contents_of_pop {q q' : Queue α} {rc : α} (h : q.pop = some (rc, q')) :
    q.contents = rc :: q'.contents := by
  unfold pop at h
  cases hlast : q.d_queue.getLast? with
  | none => simp [hlast] at h
  | some last =>
      simp only [hlast, Option.some.injEq, Prod.mk.injEq] at h
      obtain ⟨rfl, rfl⟩ := h
      unfold contents
      rw [← List.dropLast_append_getLast? last hlast, List.reverse_append]
      simp

theorem exists_pop {q : Queue α} (h : q.contents ≠ []) : ∃ r, q.pop = some r := by
  cases hp : q.pop with
  | none => exact absurd (pop_eq_none_iff.mp hp) h
  | some r => exact ⟨r, rfl⟩

theorem isEmpty_iff {q : Queue α} : q.isEmpty = true ↔ q.contents = [] := by
  unfold isEmpty contents
  rw [List.isEmpty_iff, List.reverse_eq_nil_iff]

end Queue

end Watermark
