import Watermark.Reasoning.Pipeline

/-!
# Closing — what the first mark of a pipeline says

A collector that takes the first mark for the end of the stream is right if no worker passes on its
mark while another still holds an item, and it has overlooked an item as soon as one does.
-/

namespace Watermark.Reasoning.Pipeline

open Function

variable {ι α : Type*} {l : List α} {p q : Pipeline ι α}

/-- A worker passes on its mark while another holds an item. -/
def LeavesEarly (p q : Pipeline ι α) : Prop :=
  ∃ i j a, p.hands i = .ending ∧ q.hands i = .gone ∧ p.hands j = .holds a

/-- Once a worker is gone there is nothing behind the first mark but marks. -/
structure Closed (p : Pipeline ι α) : Prop where
  rest : items p.rest = []
  hands : ∀ i a, p.hands i ≠ .holds a
  output : ∃ l n, p.output = stream l n
  collected : 0 < p.count → items p.output = []

-- An item that is held is counted.
theorem one_le_held [Fintype ι] [DecidableEq α] {j : ι} {a : α} (hj : p.hands j = .holds a) :
    1 ≤ ∑ i, (p.hands i).held.count a := by
  have hle := Finset.single_le_sum (f := fun i => (p.hands i).held.count a)
    (fun _ _ => Nat.zero_le _) (Finset.mem_univ j)
  rwa [hj, Hand.held_holds, List.count_singleton_self] at hle

namespace Inv

variable [Fintype ι] [DecidableEq α]

-- What a worker holds is one of the items.
theorem mem_of_holds (h : Inv l p) {j : ι} {a : α} (hj : p.hands j = .holds a) : a ∈ l := by
  have hitem := h.conserved a
  have hheld := one_le_held hj
  apply List.count_pos_iff.mp
  omega

-- A worker that has consumed a mark has left only marks to pop.
theorem items_rest (h : Inv l p) {i : ι} (hi : (p.hands i).eos = 1) : items p.rest = [] := by
  obtain ⟨l', n, hstream⟩ := exists_stream_of_sublist (h.taken_stream i)
  apply items_eq_nil_of_mark hstream
  have hpos : 0 < marks (p.taken i) := by
    rw [h.taken_marks i, hi]
    exact Nat.one_pos
  obtain ⟨m, hm, hnone⟩ := List.countP_pos_iff.mp hpos
  rwa [Option.isNone_iff_eq_none.mp hnone] at hm

-- As long as no worker is gone no mark has been passed on.
theorem no_marks (h : Inv l p) (hall : ∀ i, p.hands i ≠ .gone) :
    marks p.output = 0 ∧ p.count = 0 := by
  have hsum := h.marks_output
  have hzero : ∑ i, (p.hands i).passed = 0 := by
    apply Finset.sum_eq_zero
    intro i _
    cases hi : p.hands i with
    | gone => exact absurd hi (hall i)
    | _ => rfl
  omega

end Inv

/-! ## Without early leaves -/

-- A list without marks is a stream without marks.
theorem eq_stream_of_marks {s : List (Option α)} (h : marks s = 0) : s = stream (items s) 0 := by
  induction s with
  | nil => rfl
  | cons a s ih =>
      cases a with
      | none =>
          rw [marks_none] at h
          omega
      | some a =>
          rw [marks_some] at h
          rw [items_some]
          exact congrArg (some a :: ·) (ih h)

theorem exists_gone_of_update [DecidableEq ι] {hands : ι → Hand α} {i : ι} {h : Hand α}
    (hh : h ≠ .gone) (hgone : ∃ k, update hands i h k = .gone) : ∃ k, hands k = .gone := by
  obtain ⟨k, hk⟩ := hgone
  refine ⟨k, ?_⟩
  by_cases hki : k = i
  · rw [hki, update_self] at hk
    exact absurd hk hh
  · rwa [update_of_ne hki] at hk

section Steps

variable [Fintype ι] [DecidableEq ι] [DecidableEq α]

-- Whoever leaves when nobody holds an item closes the stream behind its mark.
theorem closed_leave (hinv : Inv l p) (h : (∃ i, p.hands i = .gone) → p.Closed) {i : ι}
    (hi : p.hands i = .ending) (hheld : ∀ j a, p.hands j ≠ .holds a) :
    Closed { p with output := p.output ++ [none], hands := update p.hands i .gone } := by
  have hrest := hinv.items_rest (i := i) (by rw [hi]; rfl)
  refine ⟨hrest, fun j a => ?_, ?_, fun hcount => ?_⟩
  · by_cases hj : j = i
    · subst hj
      simp
    · simpa [hj] using hheld j a
  · by_cases hall : ∃ k, p.hands k = .gone
    · obtain ⟨l', n, hout⟩ := (h hall).output
      refine ⟨l', n + 1, ?_⟩
      show p.output ++ [none] = _
      rw [hout]
      unfold stream
      rw [List.append_assoc, List.replicate_succ']
    · have hmarks := (hinv.no_marks fun k hk => hall ⟨k, hk⟩).1
      refine ⟨items p.output, 1, ?_⟩
      show p.output ++ [none] = _
      conv_lhs => rw [eq_stream_of_marks hmarks]
      simp [stream]
  · by_cases hall : ∃ k, p.hands k = .gone
    · simpa using (h hall).collected hcount
    · have hzero := (hinv.no_marks fun k hk => hall ⟨k, hk⟩).2
      have hcount : 0 < p.count := hcount
      omega

theorem closed_step (hinv : Inv l p) (h : (∃ i, p.hands i = .gone) → p.Closed) (hs : Step p q)
    (hno : ¬LeavesEarly p q) (hgone : ∃ i, q.hands i = .gone) : q.Closed := by
  cases hs with
  | @fetch i a rest hi hr =>
      -- no item is left to fetch once a worker is gone
      have hrest := (h (exists_gone_of_update (by simp) hgone)).rest
      rw [hr, items_some] at hrest
      exact absurd hrest (List.cons_ne_nil _ _)
  | @fetchEos i rest hi hr =>
      have hclosed := h (exists_gone_of_update (by simp) hgone)
      refine ⟨?_, fun j a => ?_, hclosed.output, hclosed.collected⟩
      · have hrest := hclosed.rest
        rwa [hr, items_none] at hrest
      · by_cases hj : j = i
        · subst hj
          simp
        · simpa [hj] using hclosed.hands j a
  | @deliver i a hi => exact absurd hi ((h (exists_gone_of_update (by simp) hgone)).hands i a)
  | @leave i hi =>
      apply closed_leave hinv h hi
      intro j a hj
      exact hno ⟨i, j, a, hi, by simp, hj⟩
  | @collect a output ho =>
      have hclosed := h hgone
      refine ⟨hclosed.rest, hclosed.hands, ?_, fun hcount => ?_⟩
      · obtain ⟨l', n, hout⟩ := hclosed.output
        rw [ho] at hout
        cases l' with
        | nil =>
            cases n <;> simp [stream, List.replicate_succ] at hout
        | cons b l' => exact ⟨l', n, (List.cons.inj hout).2⟩
      · have hitems := hclosed.collected hcount
        rw [ho, items_some] at hitems
        exact absurd hitems (List.cons_ne_nil _ _)
  | @collectEos output ho =>
      have hclosed := h hgone
      obtain ⟨l', n, hout⟩ := hclosed.output
      have hitems : items output = [] := by
        rw [ho] at hout
        exact items_eq_nil_of_mark (x := [none]) hout (List.mem_singleton.mpr rfl)
      refine ⟨hclosed.rest, hclosed.hands, ?_, fun _ => hitems⟩
      have hsub : output.Sublist (stream l' n) := by
        rw [← hout, ho]
        exact List.sublist_cons_self none output
      exact exists_stream_of_sublist hsub

end Steps

-- A pipeline without early leaves has collected every item when the first mark is collected.
theorem Closed.done_perm [Fintype ι] [DecidableEq α] (hinv : Inv l p) (h : p.Closed)
    (hcount : 0 < p.count) : p.done.Perm l := by
  rw [List.perm_iff_count]
  intro a
  have hitem := hinv.conserved a
  have hheld : ∑ i, (p.hands i).held.count a = 0 := by
    apply Finset.sum_eq_zero
    intro i _
    cases hi : p.hands i with
    | holds b => exact absurd hi (h.hands i b)
    | _ => rfl
  rw [h.rest, hheld] at hitem
  simpa [delivered, h.collected hcount] using hitem

/-! ## After an early leave -/

/-- Item `a` is behind the first mark, which is still to be collected. -/
def Overlooked (a : α) (p : Pipeline ι α) : Prop :=
  p.count = 0 ∧ ((∃ j, p.hands j = .holds a ∧ none ∈ p.output) ∨
    ∃ before after, p.output = before ++ none :: after ∧ some a ∈ after)

theorem overlooked_of_leavesEarly [DecidableEq ι] (hcount : p.count = 0) {i j : ι} {a : α}
    (hi : p.hands i = .ending) (hj : p.hands j = .holds a) :
    Overlooked a { p with output := p.output ++ [none], hands := update p.hands i .gone } := by
  refine ⟨hcount, Or.inl ⟨j, ?_, by simp⟩⟩
  have hji : j ≠ i := by
    rintro rfl
    rw [hi] at hj
    cases hj
  simpa [hji] using hj

variable [Fintype ι] [DecidableEq α]

theorem Overlooked.not_mem_done (hinv : Inv l p) {a : α} (ha : l.count a = 1)
    (h : Overlooked a p) : a ∉ p.done := by
  intro hmem
  have hitem := hinv.conserved a
  have hdone := List.count_pos_iff.mpr hmem
  rw [ha, delivered, List.count_append] at hitem
  rcases h.2 with ⟨j, hj, _⟩ | ⟨before, after, hout, hafter⟩
  · have hheld := one_le_held hj
    omega
  · have hitems : a ∈ items p.output := by
      rw [mem_items, hout]
      simp [hafter]
    have hpos := List.count_pos_iff.mpr hitems
    omega

-- The first mark is collected without `a`.
theorem overlooked_step [DecidableEq ι] (hinv : Inv l p) {a : α} (ha : l.count a = 1)
    (h : Overlooked a p) (hs : Step p q) : Overlooked a q ∨ (q.count = 1 ∧ a ∉ q.done) := by
  have hdone := h.not_mem_done hinv ha
  obtain ⟨hcount, hwhere⟩ := h
  -- a worker that does not hold `a` moves, and the output grows
  have hmove : ∀ (i : ι) (w : Hand α) (new : List (Option α)), p.hands i ≠ .holds a →
      (∃ j, update p.hands i w j = .holds a ∧ none ∈ p.output ++ new) ∨
        ∃ before after, p.output ++ new = before ++ none :: after ∧ some a ∈ after := by
    intro i w new hi
    rcases hwhere with ⟨j, hj, hnone⟩ | ⟨before, after, hout, hafter⟩
    · have hji : j ≠ i := by
        rintro rfl
        exact hi hj
      exact Or.inl ⟨j, by rwa [update_of_ne hji], List.mem_append_left new hnone⟩
    · exact Or.inr ⟨before, after ++ new, by simp [hout], List.mem_append_left new hafter⟩
  cases hs with
  | @fetch i b rest hi hr =>
      refine Or.inl ⟨hcount, ?_⟩
      simpa using hmove i (.holds b) [] (by simp [hi])
  | @fetchEos i rest hi hr =>
      refine Or.inl ⟨hcount, ?_⟩
      simpa using hmove i .ending [] (by simp [hi])
  | @leave i hi => exact Or.inl ⟨hcount, hmove i .gone [none] (by simp [hi])⟩
  | @deliver i b hi =>
      refine Or.inl ⟨hcount, ?_⟩
      by_cases hb : b = a
      · subst hb
        -- `a` goes into the output, behind the mark
        rcases hwhere with ⟨j, hj, hnone⟩ | ⟨before, after, hout, hafter⟩
        · obtain ⟨before, after, hout⟩ := List.append_of_mem hnone
          exact Or.inr ⟨before, after ++ [some b], by simp [hout], by simp⟩
        · exact Or.inr ⟨before, after ++ [some b], by simp [hout], by simp⟩
      · exact hmove i .idle [some b] (by simp [hi, hb])
  | @collect b output ho =>
      refine Or.inl ⟨hcount, ?_⟩
      rcases hwhere with ⟨j, hj, hnone⟩ | ⟨before, after, hout, hafter⟩
      · rw [ho] at hnone
        exact Or.inl ⟨j, hj, by simpa using hnone⟩
      · rw [ho] at hout
        cases before with
        | nil => simp at hout
        | cons c before => exact Or.inr ⟨before, after, (List.cons.inj hout).2, hafter⟩
  | @collectEos output ho =>
      refine Or.inr ⟨?_, hdone⟩
      show p.count + 1 = 1
      rw [hcount]

end Watermark.Reasoning.Pipeline
