import Mathlib.Data.List.Rotate
import Mathlib.Data.Nat.ModEq

/-!
# Ring — a circular array of slots that are empty or full

A reader and a writer go round the array; the full slots lie between them.  Emptiness and fullness
are read off the slots, so there is no count and no slot that has to stay empty.
-/

namespace Watermark.Reasoning.Ring

variable {α : Type*}

/-- What the slots hold, read circularly from slot `r` on. -/
def contents (slots : List (Option α)) (r : ℕ) : List α := (slots.rotate r).filterMap id

/-- From slot `r` on the slots hold the elements of `l`, one after the other, and then nothing. -/
structure Holds (slots : List (Option α)) (r : ℕ) (l : List α) : Prop where
  start : r < slots.length
  rotate : ∃ k, slots.rotate r = l.map some ++ List.replicate k none

/-- The slot the writer fills next. -/
def writeSlot (slots : List (Option α)) (r : ℕ) (l : List α) : ℕ := (l.length + r) % slots.length

theorem filterMap_id_map_some (l : List α) : (l.map some).filterMap id = l := by
  rw [List.filterMap_map]
  exact List.filterMap_some

theorem Holds.contents_eq {slots : List (Option α)} {r : ℕ} {l : List α} (h : Holds slots r l) :
    contents slots r = l := by
  obtain ⟨k, hk⟩ := h.rotate
  rw [contents, hk, List.filterMap_append, filterMap_id_map_some,
    List.filterMap_replicate_of_none rfl, List.append_nil]

theorem holds_replicate {n r : ℕ} (hr : r < n) :
    Holds (List.replicate n (none : Option α)) r [] where
  start := by rwa [List.length_replicate]
  rotate := ⟨n, List.rotate_replicate none n r⟩

-- Slot `i` counted from `r`.
theorem rotate_set (slots : List (Option α)) (r i : ℕ) (x : Option α) (hi : i < slots.length) :
    (slots.set ((i + r) % slots.length) x).rotate r = (slots.rotate r).set i x := by
  apply List.ext_getElem
  · simp only [List.length_rotate, List.length_set]
  · intro k hk _
    rw [List.length_rotate, List.length_set] at hk
    simp only [List.getElem_rotate, List.length_set, List.getElem_set]
    by_cases hik : i = k
    · subst hik
      rw [if_pos rfl, if_pos rfl]
    · have hne : (i + r) % slots.length ≠ (k + r) % slots.length := by
        intro heq
        have hmod : i % slots.length = k % slots.length :=
          Nat.ModEq.add_right_cancel' r heq
        rw [Nat.mod_eq_of_lt hi, Nat.mod_eq_of_lt hk] at hmod
        exact hik hmod
      rw [if_neg hne, if_neg hik]

theorem getElem?_rotate_start (slots : List (Option α)) {r : ℕ} (hr : r < slots.length) :
    (slots.rotate r)[0]? = slots[r]? := by
  have hlen : 0 < (slots.rotate r).length := by
    rw [List.length_rotate]
    omega
  rw [List.getElem?_eq_getElem hlen, List.getElem_rotate, List.getElem?_eq_getElem hr]
  simp only [Nat.zero_add, Nat.mod_eq_of_lt hr]

namespace Holds

variable {slots : List (Option α)} {r : ℕ} {l : List α}

theorem length_eq (h : Holds slots r l) :
    ∃ k, slots.rotate r = l.map some ++ List.replicate k none ∧ slots.length = l.length + k := by
  obtain ⟨k, hk⟩ := h.rotate
  refine ⟨k, hk, ?_⟩
  have hlen := congrArg List.length hk
  simpa only [List.length_rotate, List.length_append, List.length_map,
    List.length_replicate] using hlen

theorem length_le (h : Holds slots r l) : l.length ≤ slots.length := by
  obtain ⟨k, _, hlen⟩ := h.length_eq
  omega

theorem writeSlot_lt (h : Holds slots r l) : writeSlot slots r l < slots.length :=
  Nat.mod_lt _ (Nat.lt_of_le_of_lt (Nat.zero_le r) h.start)

-- The reader's slot is empty when nothing is held,
theorem getElem?_start (h : Holds slots r l) : slots[r]? = some l.head? := by
  obtain ⟨k, hk, hlen⟩ := h.length_eq
  have hstart := h.start
  rw [← getElem?_rotate_start slots h.start, hk]
  cases l with
  | nil =>
      have hpos : 0 < k := by
        simp only [List.length_nil] at hlen
        omega
      rw [List.map_nil, List.nil_append, List.getElem?_replicate_of_lt hpos]
      rfl
  | cons x l => rfl

-- and the writer's slot is empty when there is room.
theorem getElem?_writeSlot (h : Holds slots r l) :
    slots[writeSlot slots r l]? = some none ↔ l.length < slots.length := by
  obtain ⟨k, hk, hlen⟩ := h.length_eq
  constructor
  · intro hnone
    by_contra hfull
    have hstart := h.start
    have heq : l.length = slots.length := by omega
    have hend : writeSlot slots r l = r := by
      rw [writeSlot, heq, Nat.add_mod_left, Nat.mod_eq_of_lt hstart]
    rw [hend, h.getElem?_start, Option.some.injEq, List.head?_eq_none_iff] at hnone
    rw [hnone, List.length_nil] at heq
    omega
  · intro hlt
    have hrot : (slots.rotate r)[l.length]? = some none := by
      rw [hk, List.getElem?_append_right (by rw [List.length_map]), List.length_map, Nat.sub_self,
        List.getElem?_replicate_of_lt (by omega)]
    have hlt' : l.length < (slots.rotate r).length := by rwa [List.length_rotate]
    rw [List.getElem?_eq_getElem hlt', List.getElem_rotate] at hrot
    rw [List.getElem?_eq_getElem h.writeSlot_lt]
    exact hrot

theorem push (h : Holds slots r l) (hroom : l.length < slots.length) (x : α) :
    Holds (slots.set (writeSlot slots r l) (some x)) r (l ++ [x]) := by
  obtain ⟨k, hk, hlen⟩ := h.length_eq
  obtain ⟨k', rfl⟩ : ∃ k', k = k' + 1 := ⟨k - 1, by omega⟩
  refine ⟨by rw [List.length_set]; exact h.start, k', ?_⟩
  rw [writeSlot, rotate_set slots r l.length (some x) hroom, hk,
    List.set_append_right _ _ (by simp), List.length_map, Nat.sub_self, List.replicate_succ,
    List.set_cons_zero, List.map_append, List.append_assoc]
  rfl

theorem pop {x : α} (h : Holds slots r (x :: l)) :
    Holds (slots.set r none) ((r + 1) % slots.length) l := by
  obtain ⟨k, hk, _⟩ := h.length_eq
  have hpos : 0 < slots.length := Nat.lt_of_le_of_lt (Nat.zero_le r) h.start
  have hset : (slots.set r none).rotate r = none :: (l.map some ++ List.replicate k none) := by
    have hfirst := rotate_set slots r 0 none hpos
    rw [Nat.zero_add, Nat.mod_eq_of_lt h.start] at hfirst
    rw [hfirst, hk]
    rfl
  refine ⟨by rw [List.length_set]; exact Nat.mod_lt _ hpos, k + 1, ?_⟩
  calc (slots.set r none).rotate ((r + 1) % slots.length)
      = (slots.set r none).rotate (r + 1) := by
        rw [← List.length_set (i := r) (a := none), List.rotate_mod]
    _ = ((slots.set r none).rotate r).rotate 1 := (List.rotate_rotate _ r 1).symm
    _ = l.map some ++ List.replicate k none ++ [none] := by
        rw [hset, List.rotate_cons_succ, List.rotate_zero]
    _ = l.map some ++ List.replicate (k + 1) none := by
        rw [List.append_assoc, ← List.replicate_succ']

end Holds

-- A pop leaves the writer's slot where it is, a push moves it by one.
theorem writeSlot_pop {x : α} (slots : List (Option α)) (r : ℕ) (l : List α) :
    writeSlot (slots.set r none) ((r + 1) % slots.length) l = writeSlot slots r (x :: l) := by
  rw [writeSlot, writeSlot, List.length_set, List.length_cons, Nat.add_mod_mod]
  congr 1
  omega

theorem writeSlot_push (slots : List (Option α)) (r : ℕ) (l : List α) (x : α) :
    writeSlot (slots.set (writeSlot slots r l) (some x)) r (l ++ [x]) =
      (writeSlot slots r l + 1) % slots.length := by
  rw [writeSlot, writeSlot, List.length_set, List.length_append, List.length_singleton,
    Nat.mod_add_mod]
  congr 1
  omega

end Watermark.Reasoning.Ring
