import Mathlib.Data.List.Basic
import Mathlib.Data.List.Infix

/-!
# Search — the first occurrence of a pattern, and the first element of a kind

`find` is the substring search of `std::string` on lists.  The second half is about two tests of
the elements of a list, one weaker than the other, and when the first element that passes is the
same for both.
-/

namespace Watermark.Reasoning

variable {α : Type*}

section Find

variable [DecidableEq α]

/-- The position of the first occurrence of `pat`. -/
def find (pat : List α) : List α → Option ℕ
  | [] => if pat = [] then some 0 else none
  | c :: s => if pat <+: c :: s then some 0 else (find pat s).map (· + 1)

theorem find_eq_none_iff {pat s : List α} : find pat s = none ↔ ¬pat <:+: s := by
  induction s with
  | nil =>
      rw [find, List.infix_nil]
      split
      · simp [*]
      · simp [*]
  | cons c s ih =>
      rw [find, List.infix_cons_iff]
      split
      · simp [*]
      · simp [*]

theorem isSome_find_iff {pat s : List α} : (find pat s).isSome ↔ pat <:+: s := by
  rw [Option.isSome_iff_ne_none, Ne, find_eq_none_iff, not_not]

theorem isSome_find_of_suffix {pat s : List α} (h : pat <:+ s) : (find pat s).isSome := by
  rw [isSome_find_iff]
  exact h.isInfix

end Find

-- Comparing the last elements of `s` with `pat` is a test for a suffix.
theorem drop_eq_iff_suffix {pat s : List α} :
    pat.length ≤ s.length ∧ (s.drop (s.length - pat.length)).take pat.length = pat ↔
      pat <:+ s := by
  have hlen : pat.length ≤ s.length →
      (s.drop (s.length - pat.length)).take pat.length = s.drop (s.length - pat.length) := by
    intro hle
    apply List.take_of_length_le
    rw [List.length_drop]
    omega
  constructor
  · intro ⟨hle, h⟩
    rw [hlen hle] at h
    rw [← h]
    exact List.drop_suffix _ s
  · intro h
    have hle := h.length_le
    rw [hlen hle]
    exact ⟨hle, (List.suffix_iff_eq_drop.mp h).symm⟩

/-! ## The first element that passes a test -/

/-- Every element that passes `p` but not `q` comes after one that passes `q`. -/
def Preceded (p q : α → Bool) (l : List α) : Prop :=
  ∀ before a after, l = before ++ a :: after → p a = true → q a = false →
    ∃ b ∈ before, q b = true

theorem preceded_cons {p q : α → Bool} {a : α} {l : List α} :
    Preceded p q (a :: l) ↔ q a = true ∨ (p a = false ∧ Preceded p q l) := by
  constructor
  · intro h
    by_cases hq : q a = true
    · exact Or.inl hq
    · have hq : q a = false := Bool.eq_false_iff.mpr hq
      have hp : p a = false := by
        by_contra hp
        obtain ⟨b, hb, _⟩ := h [] a l rfl (Bool.of_not_eq_false hp) hq
        exact List.not_mem_nil hb
      refine Or.inr ⟨hp, fun before b after hl hpb hqb => ?_⟩
      obtain ⟨c, hc, hqc⟩ := h (a :: before) b after (by rw [hl, List.cons_append]) hpb hqb
      rcases List.mem_cons.mp hc with rfl | hc
      · rw [hq] at hqc
        exact absurd hqc Bool.false_ne_true
      · exact ⟨c, hc, hqc⟩
  · intro h before b after hl hpb hqb
    cases before with
    | nil =>
        simp only [List.nil_append, List.cons.injEq] at hl
        obtain ⟨rfl, rfl⟩ := hl
        rcases h with hq | ⟨hp, _⟩
        · rw [hq] at hqb
          exact absurd hqb.symm Bool.false_ne_true
        · rw [hp] at hpb
          exact absurd hpb Bool.false_ne_true
    | cons c before =>
        simp only [List.cons_append, List.cons.injEq] at hl
        obtain ⟨rfl, rfl⟩ := hl
        rcases h with hq | ⟨_, hrest⟩
        · exact ⟨a, List.mem_cons_self, hq⟩
        · obtain ⟨d, hd, hqd⟩ := hrest before b after rfl hpb hqb
          exact ⟨d, List.mem_cons_of_mem a hd, hqd⟩

-- The weaker test finds the same first element exactly when no element misleads it.
theorem find?_eq_find?_iff {p q : α → Bool} (hqp : ∀ a, q a = true → p a = true) {l : List α} :
    l.find? p = l.find? q ↔ Preceded p q l := by
  induction l with
  | nil => simp [Preceded]
  | cons a l ih =>
      rw [preceded_cons]
      cases hq : q a with
      | true => simp [List.find?_cons_of_pos, hq, hqp a hq]
      | false =>
          cases hp : p a with
          | false => simp [hp, hq, ih]
          | true =>
              simp only [List.find?_cons_of_pos hp, List.find?_cons, hq]
              refine iff_of_false (fun heq => ?_) (by simp)
              have hqa := List.find?_some heq.symm
              rw [hq] at hqa
              exact Bool.false_ne_true hqa

end Watermark.Reasoning
