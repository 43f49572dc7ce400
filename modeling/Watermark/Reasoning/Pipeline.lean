import Watermark.Reasoning.Threads
import Watermark.Reasoning.Tokens
import Mathlib.Data.List.Count

/-!
# Pipeline — a farm of workers between two shared queues

A stream of items, closed by one end-of-stream mark for each worker, is popped by any number of
workers; each passes on what it has popped, and its mark last.  A collector counts the marks.
`Pipeline` keeps only where the items and the marks are.  Its invariant is one structure, kept by
each of the six steps, and everything a farm relies on follows from it.
-/

namespace Watermark.Reasoning

open Function

variable {ι α : Type*}

/-- Where a worker stands between the two queues. -/
inductive Hand (α : Type*) where
  | idle
  | holds (a : α)
  -- a mark is consumed, and passed on
  | ending
  | gone

namespace Hand

def held : Hand α → List α
  | holds a => [a]
  | _ => []

/-- The marks a worker has consumed. -/
def eos : Hand α → ℕ
  | ending => 1
  | gone => 1
  | _ => 0

/-- The marks it has passed on. -/
def passed : Hand α → ℕ
  | gone => 1
  | _ => 0

@[simp] theorem held_idle : (idle : Hand α).held = [] := rfl
@[simp] theorem held_holds (a : α) : (holds a).held = [a] := rfl
@[simp] theorem held_ending : (ending : Hand α).held = [] := rfl
@[simp] theorem held_gone : (gone : Hand α).held = [] := rfl
@[simp] theorem eos_idle : (idle : Hand α).eos = 0 := rfl
@[simp] theorem eos_holds (a : α) : (holds a).eos = 0 := rfl
@[simp] theorem eos_ending : (ending : Hand α).eos = 1 := rfl
@[simp] theorem eos_gone : (gone : Hand α).eos = 1 := rfl
@[simp] theorem passed_idle : (idle : Hand α).passed = 0 := rfl
@[simp] theorem passed_holds (a : α) : (holds a).passed = 0 := rfl
@[simp] theorem passed_ending : (ending : Hand α).passed = 0 := rfl
@[simp] theorem passed_gone : (gone : Hand α).passed = 1 := rfl

theorem eos_le_one (h : Hand α) : h.eos ≤ 1 := by
  cases h <;> simp

theorem passed_le_eos (h : Hand α) : h.passed ≤ h.eos := by
  cases h <;> simp

theorem eq_gone_of_passed {h : Hand α} (hp : h.passed = 1) : h = gone := by
  cases h with
  | gone => rfl
  | _ => exact absurd hp Nat.zero_ne_one

end Hand

structure Pipeline (ι α : Type*) where
  -- what no worker has popped yet
  rest : List (Option α)
  -- what each worker has popped
  taken : ι → List (Option α)
  hands : ι → Hand α
  -- passed on by the workers, not yet collected
  output : List (Option α)
  -- collected: the items, and the number of marks
  done : List α
  count : ℕ

namespace Pipeline

def start (l : List α) (n : ℕ) : Pipeline ι α where
  rest := stream l n
  taken := fun _ => []
  hands := fun _ => .idle
  output := []
  done := []
  count := 0

/-- The items passed on so far, in that order. -/
def delivered (p : Pipeline ι α) : List α := p.done ++ items p.output

inductive Step [DecidableEq ι] (p : Pipeline ι α) : Pipeline ι α → Prop where
  | fetch {i : ι} {a : α} {rest : List (Option α)} (hi : p.hands i = .idle)
      (hr : p.rest = some a :: rest) :
      Step p { p with
        rest
        taken := update p.taken i (p.taken i ++ [some a])
        hands := update p.hands i (.holds a) }
  | fetchEos {i : ι} {rest : List (Option α)} (hi : p.hands i = .idle)
      (hr : p.rest = none :: rest) :
      Step p { p with
        rest
        taken := update p.taken i (p.taken i ++ [none])
        hands := update p.hands i .ending }
  | deliver {i : ι} {a : α} (hi : p.hands i = .holds a) :
      Step p { p with output := p.output ++ [some a], hands := update p.hands i .idle }
  | leave {i : ι} (hi : p.hands i = .ending) :
      Step p { p with output := p.output ++ [none], hands := update p.hands i .gone }
  | collect {a : α} {output : List (Option α)} (ho : p.output = some a :: output) :
      Step p { p with output, done := p.done ++ [a] }
  | collectEos {output : List (Option α)} (ho : p.output = none :: output) :
      Step p { p with output, count := p.count + 1 }

/-! ## Single conjuncts of the invariant -/

private theorem suffix_tail {s rest : List (Option α)} {a : Option α}
    (h : ∃ popped, popped ++ a :: rest = s) : ∃ popped, popped ++ rest = s := by
  obtain ⟨popped, hp⟩ := h
  exact ⟨popped ++ [a], by rw [List.append_assoc, List.singleton_append, hp]⟩

-- The sublist part of a pop by worker `i`: its own list moves on, the others' tails shrink.
private theorem taken_stream_fetch [DecidableEq ι] {s rest : List (Option α)}
    {taken : ι → List (Option α)}
    {a : Option α} (i : ι) (h : ∀ j, (taken j ++ a :: rest).Sublist s) (j : ι) :
    (update taken i (taken i ++ [a]) j ++ rest).Sublist s := by
  refine forall_update (fun _ l => (l ++ rest).Sublist s) ?_ (fun j _ => ?_) j
  · rw [List.append_assoc, List.singleton_append]
    exact h i
  · exact ((List.sublist_cons_self a rest).append_left (taken j)).trans (h j)

private theorem last_tail {output : List (Option α)} {a : Option α}
    (h : a :: output = [] ∨ (a :: output).getLast? = some none) :
    output = [] ∨ output.getLast? = some none := by
  cases output with
  | nil => exact Or.inl rfl
  | cons b output =>
      rw [List.getLast?_cons_cons] at h
      exact h.imp (fun h => absurd h (List.cons_ne_nil _ _)) id

private theorem not_all_gone [DecidableEq ι] {i : ι} {hands : ι → Hand α} {h : Hand α}
    (hh : h ≠ .gone) :
    ¬∀ j, update hands i h j = .gone := by
  intro hall
  have hi := hall i
  rw [update_self] at hi
  exact hh hi

/-! ## The invariant -/

variable [Fintype ι] [DecidableEq α]

structure Inv (l : List α) (p : Pipeline ι α) : Prop where
  -- What is left to pop is a suffix of the stream.
  suffix : ∃ popped, popped ++ p.rest = stream l (Fintype.card ι)
  -- Every item is in one place.
  conserved : ∀ a, (items p.rest).count a + ∑ i, (p.hands i).held.count a +
    p.delivered.count a = l.count a
  -- A mark is either still to be popped or with the one worker it has stopped,
  marks_rest : marks p.rest + ∑ i, (p.hands i).eos = Fintype.card ι
  -- and every worker that is gone has passed it on.
  marks_output : marks p.output + p.count = ∑ i, (p.hands i).passed
  taken_stream : ∀ i, (p.taken i ++ p.rest).Sublist (stream l (Fintype.card ι))
  taken_marks : ∀ i, marks (p.taken i) = (p.hands i).eos
  taken_order : ∀ i, (items (p.taken i)).Sublist (p.delivered ++ (p.hands i).held)
  -- The last to pass anything on passes on a mark.
  last : (∀ i, p.hands i = .gone) → p.output = [] ∨ p.output.getLast? = some none

namespace Inv

variable {l : List α} {p q : Pipeline ι α}

theorem start (l : List α) : Inv l (start l (Fintype.card ι) : Pipeline ι α) where
  suffix := ⟨[], rfl⟩
  conserved a := by
    simp [Pipeline.start, Pipeline.delivered]
  marks_rest := by
    simp [Pipeline.start]
  marks_output := by
    simp [Pipeline.start]
  taken_stream i := List.Sublist.refl _
  taken_marks i := rfl
  taken_order i := List.nil_sublist _
  last _ := Or.inl rfl

theorem collect (h : Inv l p) {a : α} {output : List (Option α)}
    (ho : p.output = some a :: output) : Inv l { p with output, done := p.done ++ [a] } := by
  have hdelivered : ({ p with output, done := p.done ++ [a] } : Pipeline ι α).delivered =
      p.delivered := by simp [delivered, ho]
  refine ⟨h.suffix, ?_, h.marks_rest, ?_, h.taken_stream, h.taken_marks, ?_, fun hall => ?_⟩
  · rw [hdelivered]
    exact h.conserved
  · simpa [ho] using h.marks_output
  · rw [hdelivered]
    exact h.taken_order
  · exact last_tail (ho ▸ h.last hall)

theorem collectEos (h : Inv l p) {output : List (Option α)} (ho : p.output = none :: output) :
    Inv l { p with output, count := p.count + 1 } := by
  have hdelivered : ({ p with output, count := p.count + 1 } : Pipeline ι α).delivered =
      p.delivered := by simp [delivered, ho]
  refine ⟨h.suffix, ?_, h.marks_rest, ?_, h.taken_stream, h.taken_marks, ?_, fun hall => ?_⟩
  · rw [hdelivered]
    exact h.conserved
  · have hcount := h.marks_output
    rw [ho, marks_none] at hcount
    change marks output + (p.count + 1) = ∑ i, (p.hands i).passed
    omega
  · rw [hdelivered]
    exact h.taken_order
  · exact last_tail (ho ▸ h.last hall)

section Workers

variable [DecidableEq ι]

theorem fetch (h : Inv l p) {i : ι} {a : α} {rest : List (Option α)} (hi : p.hands i = .idle)
    (hr : p.rest = some a :: rest) :
    Inv l { p with
      rest
      taken := update p.taken i (p.taken i ++ [some a])
      hands := update p.hands i (.holds a) } where
  suffix := suffix_tail (hr ▸ h.suffix)
  conserved b := by
    have hcount := h.conserved b
    have hsum := sum_update (fun w : Hand α => w.held.count b) p.hands i (.holds a)
    -- `a` moves from the stream into the hand of `i`
    rw [hr, items_some, List.count_cons] at hcount
    rw [hi, Hand.held_idle, Hand.held_holds, List.count_nil, List.count_singleton] at hsum
    change (items rest).count b + ∑ j, (update p.hands i (.holds a) j).held.count b +
      p.delivered.count b = _
    omega
  marks_rest := by
    have hcount := h.marks_rest
    rw [hr, marks_some] at hcount
    rw [sum_update_eq Hand.eos p.hands i (.holds a) (by rw [hi]; rfl)]
    exact hcount
  marks_output := by
    rw [sum_update_eq Hand.passed p.hands i (.holds a) (by rw [hi]; rfl)]
    exact h.marks_output
  taken_stream := taken_stream_fetch i fun j => hr ▸ h.taken_stream j
  taken_marks j := by
    by_cases hj : j = i
    · subst hj
      have hm := h.taken_marks j
      rw [hi] at hm
      simpa using hm
    · simpa [update_of_ne hj] using h.taken_marks j
  taken_order j := by
    by_cases hj : j = i
    · subst hj
      have ho := h.taken_order j
      rw [hi, Hand.held_idle, List.append_nil] at ho
      simpa [delivered] using ho.append (List.Sublist.refl [a])
    · simpa [update_of_ne hj, delivered] using h.taken_order j
  last hall := absurd hall (not_all_gone (by simp))

theorem fetchEos (h : Inv l p) {i : ι} {rest : List (Option α)} (hi : p.hands i = .idle)
    (hr : p.rest = none :: rest) :
    Inv l { p with
      rest
      taken := update p.taken i (p.taken i ++ [none])
      hands := update p.hands i .ending } where
  suffix := suffix_tail (hr ▸ h.suffix)
  conserved b := by
    have hcount := h.conserved b
    rw [hr, items_none] at hcount
    rw [sum_update_eq (fun w : Hand α => w.held.count b) p.hands i .ending (by rw [hi]; rfl)]
    exact hcount
  marks_rest := by
    have hcount := h.marks_rest
    have hsum := sum_update Hand.eos p.hands i .ending
    -- the mark moves from the stream to `i`
    rw [hr, marks_none] at hcount
    rw [hi, Hand.eos_idle, Hand.eos_ending] at hsum
    change marks rest + ∑ j, (update p.hands i .ending j).eos = _
    omega
  marks_output := by
    rw [sum_update_eq Hand.passed p.hands i .ending (by rw [hi]; rfl)]
    exact h.marks_output
  taken_stream := taken_stream_fetch i fun j => hr ▸ h.taken_stream j
  taken_marks j := by
    by_cases hj : j = i
    · subst hj
      have hm := h.taken_marks j
      rw [hi] at hm
      simpa using hm
    · simpa [update_of_ne hj] using h.taken_marks j
  taken_order j := by
    by_cases hj : j = i
    · subst hj
      have ho := h.taken_order j
      rw [hi] at ho
      simpa [delivered] using ho
    · simpa [update_of_ne hj, delivered] using h.taken_order j
  last hall := absurd hall (not_all_gone (by simp))

theorem deliver (h : Inv l p) {i : ι} {a : α} (hi : p.hands i = .holds a) :
    Inv l { p with output := p.output ++ [some a], hands := update p.hands i .idle } where
  suffix := h.suffix
  conserved b := by
    have hcount := h.conserved b
    have hsum := sum_update (fun w : Hand α => w.held.count b) p.hands i .idle
    rw [hi, Hand.held_idle, Hand.held_holds, List.count_nil, List.count_singleton] at hsum
    simp only [delivered, items_append, items_some, items_nil, List.count_append,
      List.count_singleton] at hcount ⊢
    omega
  marks_rest := by
    rw [sum_update_eq Hand.eos p.hands i .idle (by rw [hi]; rfl)]
    exact h.marks_rest
  marks_output := by
    rw [sum_update_eq Hand.passed p.hands i .idle (by rw [hi]; rfl)]
    simpa using h.marks_output
  taken_stream := h.taken_stream
  taken_marks j := by
    rw [h.taken_marks j]
    by_cases hj : j = i
    · subst hj
      simp [hi]
    · simp [update_of_ne hj]
  taken_order j := by
    have ho := h.taken_order j
    by_cases hj : j = i
    · subst hj
      simpa [hi, delivered] using ho
    · simp only [update_of_ne hj, delivered, items_append, items_some, items_nil,
        List.append_assoc] at ho ⊢
      exact ho.trans (((List.sublist_cons_self a _).append_left _).append_left _)
  last hall := absurd hall (not_all_gone (by simp))

theorem leave (h : Inv l p) {i : ι} (hi : p.hands i = .ending) :
    Inv l { p with output := p.output ++ [none], hands := update p.hands i .gone } where
  suffix := h.suffix
  conserved b := by
    rw [sum_update_eq (fun w : Hand α => w.held.count b) p.hands i .gone (by rw [hi]; rfl)]
    simpa [delivered] using h.conserved b
  marks_rest := by
    rw [sum_update_eq Hand.eos p.hands i .gone (by rw [hi]; rfl)]
    exact h.marks_rest
  marks_output := by
    have hcount := h.marks_output
    have hsum := sum_update Hand.passed p.hands i .gone
    rw [hi, Hand.passed_ending, Hand.passed_gone] at hsum
    simp only [marks_append, marks_none, marks_nil]
    omega
  taken_stream := h.taken_stream
  taken_marks j := by
    rw [h.taken_marks j]
    by_cases hj : j = i
    · subst hj
      simp [hi]
    · simp [update_of_ne hj]
  taken_order j := by
    have ho := h.taken_order j
    by_cases hj : j = i
    · subst hj
      simpa [hi, delivered] using ho
    · simpa [update_of_ne hj, delivered] using ho
  last _ := Or.inr List.getLast?_concat

theorem step (h : Inv l p) (hs : Step p q) : Inv l q := by
  cases hs with
  | fetch hi hr => exact h.fetch hi hr
  | fetchEos hi hr => exact h.fetchEos hi hr
  | deliver hi => exact h.deliver hi
  | leave hi => exact h.leave hi
  | collect ho => exact h.collect ho
  | collectEos ho => exact h.collectEos ho

end Workers

/-! ## What the invariant says -/

-- The queue before the workers does not run dry while a worker is to pop.
theorem rest_ne_nil (h : Inv l p) {i : ι} (hi : p.hands i = .idle) : p.rest ≠ [] := by
  intro hr
  have hsum := h.marks_rest
  rw [hr, marks_nil, Nat.zero_add] at hsum
  have hone := eq_one_of_sum_eq_card (fun j => (p.hands j).eos) (fun j => (p.hands j).eos_le_one)
    hsum i
  rw [hi] at hone
  exact absurd hone Nat.zero_ne_one

-- The queue behind them does not run dry while the collector waits for a mark.
theorem output_ne_nil (h : Inv l p) (hall : ∀ i, p.hands i = .gone)
    (hc : p.count < Fintype.card ι) : p.output ≠ [] := by
  intro ho
  have hsum := h.marks_output
  simp only [hall, Hand.passed_gone, Finset.sum_const, Finset.card_univ, smul_eq_mul, mul_one, ho,
    marks_nil] at hsum
  omega

theorem count_le (h : Inv l p) : p.count ≤ Fintype.card ι := by
  have hsum := h.marks_output
  have hle : ∑ i, (p.hands i).passed ≤ ∑ _i : ι, 1 :=
    Finset.sum_le_sum fun i _ => (p.hands i).passed_le_eos.trans (p.hands i).eos_le_one
  rw [Finset.sum_const, Finset.card_univ, smul_eq_mul, mul_one] at hle
  omega

-- When the collector has all marks, the workers are gone.
theorem all_gone (h : Inv l p) (hc : Fintype.card ι ≤ p.count) (i : ι) : p.hands i = .gone := by
  have hle : ∀ j, (p.hands j).passed ≤ 1 := fun j =>
    (p.hands j).passed_le_eos.trans (p.hands j).eos_le_one
  have hsum : ∑ j, (p.hands j).passed = Fintype.card ι := by
    have hbound : ∑ j, (p.hands j).passed ≤ ∑ _j : ι, 1 := Finset.sum_le_sum fun j _ => hle j
    rw [Finset.sum_const, Finset.card_univ, smul_eq_mul, mul_one] at hbound
    have hcount := h.marks_output
    omega
  exact Hand.eq_gone_of_passed (eq_one_of_sum_eq_card _ hle hsum i)

-- When the collector has all marks, nothing is left in either queue, each worker has consumed one
-- mark, and every item has arrived.
theorem finished (h : Inv l p) [Nonempty ι] (hc : Fintype.card ι ≤ p.count) :
    p.rest = [] ∧ p.output = [] ∧ p.count = Fintype.card ι ∧ p.done.Perm l := by
  have hall := h.all_gone hc
  have hcount := h.count_le.antisymm hc
  have hrest : p.rest = [] := by
    obtain ⟨popped, hpop⟩ := h.suffix
    refine suffix_eq_nil Fintype.card_pos hpop ?_
    have hsum := h.marks_rest
    simp only [hall, Hand.eos_gone, Finset.sum_const, Finset.card_univ, smul_eq_mul, mul_one]
      at hsum
    omega
  have houtput : p.output = [] := by
    refine (h.last hall).resolve_right fun hlast => ?_
    have hsum := h.marks_output
    simp only [hall, Hand.passed_gone, Finset.sum_const, Finset.card_univ, smul_eq_mul, mul_one]
      at hsum
    have hpos : 0 < marks p.output :=
      List.countP_pos_iff.mpr ⟨none, List.mem_of_getLast? hlast, rfl⟩
    omega
  refine ⟨hrest, houtput, hcount, List.perm_iff_count.mpr fun a => ?_⟩
  have hitem := h.conserved a
  simpa [hrest, hall, delivered, houtput] using hitem

-- The places where an item can be, with how many are there.
theorem length_eq (h : Inv l p) :
    (items p.rest).length + ∑ i, (p.hands i).held.length + p.delivered.length = l.length := by
  have hbag : (items p.rest : Multiset α) + ∑ i, ((p.hands i).held : Multiset α) +
      (p.delivered : Multiset α) = (l : Multiset α) := by
    ext a
    rw [Multiset.count_add, Multiset.count_add, Multiset.count_sum']
    simp only [Multiset.coe_count]
    exact h.conserved a
  have hcard := congrArg Multiset.card hbag
  rw [Multiset.card_add, Multiset.card_add, Multiset.card_sum] at hcard
  simpa only [Multiset.coe_card] using hcard

-- A worker's items arrive in the order in which they stand in the stream.
theorem order (h : Inv l p) (i : ι) :
    (items (p.taken i)).Sublist l ∧
      (p.hands i = .gone → p.output = [] → (items (p.taken i)).Sublist p.done) := by
  constructor
  · have hsub := (List.sublist_append_left _ _).trans (h.taken_stream i)
    have hitems : (items (p.taken i)).Sublist (items (stream l (Fintype.card ι))) :=
      hsub.filterMap id
    rwa [items_stream] at hitems
  · intro hi ho
    simpa [hi, delivered, ho] using h.taken_order i

end Inv

end Pipeline

end Watermark.Reasoning
