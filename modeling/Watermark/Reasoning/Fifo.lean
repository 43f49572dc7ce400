import Watermark.Reasoning.Runs

/-!
# Fifo — what a queue between threads has to do

A queue that several steps of several threads work on behaves like one that is changed in single
steps if each call takes effect in one of its steps.  The events are these effects with the answers
the calls give, and a history of them is legal when a queue that does one at a time gives the same
answers.
-/

namespace Watermark.Reasoning.Fifo

variable {α : Type*}

/-- A call that takes effect, and its answer. -/
inductive Event (α : Type*) where
  | push (x : α)
  -- a push is refused
  | full
  | pop (x : α)
  -- a pop finds nothing
  | empty
deriving DecidableEq

/-- `Full` are the contents that make the queue refuse a push. -/
inductive Step (Full : List α → Prop) : List α → Event α → List α → Prop where
  | push {l : List α} (x : α) (h : ¬Full l) : Step Full l (.push x) (l ++ [x])
  | full {l : List α} (h : Full l) : Step Full l .full l
  | pop (x : α) (l : List α) : Step Full (x :: l) (.pop x) l
  | empty : Step Full [] .empty []

/-- A legal history that begins with nothing in the queue and ends with `l` in it. -/
inductive Run (Full : List α → Prop) : List (Event α) → List α → Prop where
  | nil : Run Full [] []
  | snoc {es : List (Event α)} {e : Event α} {l l' : List α} (h : Run Full es l)
      (he : Step Full l e l') : Run Full (es ++ [e]) l'

def Event.pushed : Event α → Option α
  | .push x => some x
  | _ => none

def Event.popped : Event α → Option α
  | .pop x => some x
  | _ => none

/-- What has been put into the queue. -/
def pushed (es : List (Event α)) : List α := es.filterMap Event.pushed

/-- What has been taken out of it. -/
def popped (es : List (Event α)) : List α := es.filterMap Event.popped

namespace Run

variable {Full : List α → Prop} {es : List (Event α)} {l : List α}

-- First in, first out: nothing is lost, duplicated or overtaken.
theorem pushed_eq (h : Run Full es l) : pushed es = popped es ++ l := by
  induction h with
  | nil => rfl
  | @snoc es e l l' _ he ih =>
      rw [pushed, popped, List.filterMap_append, List.filterMap_append]
      rw [pushed, popped] at ih
      rw [ih]
      cases he <;> simp [Event.pushed, Event.popped, List.filterMap_cons]

-- A queue that is full when it holds `n` elements never holds more.
theorem length_le {n : ℕ} (hn : ∀ l : List α, l.length = n → Full l) (h : Run Full es l) :
    l.length ≤ n := by
  induction h with
  | nil => exact Nat.zero_le n
  | @snoc es e l l' _ he ih =>
      cases he with
      | push x hroom =>
          have hne : l.length ≠ n := fun heq => hroom (hn l heq)
          rw [List.length_append, List.length_singleton]
          omega
      | full _ => exact ih
      | pop x l => exact Nat.le_of_succ_le ih
      | empty => exact Nat.zero_le n

-- A queue that is never full never refuses.
theorem full_notMem (hroom : ∀ l : List α, ¬Full l) (h : Run Full es l) : Event.full ∉ es := by
  induction h with
  | nil => exact List.not_mem_nil
  | @snoc es e l l' _ he ih =>
      intro hmem
      rcases List.mem_append.mp hmem with hmem | hmem
      · exact ih hmem
      · rw [← List.mem_singleton.mp hmem] at he
        cases he with
        | full hfull => exact hroom _ hfull

end Run

/-! ## Systems that implement a queue -/

variable {σ β : Type*} {S : System σ β}

/-- A step of the system is no effect or one. -/
def Effect (Full : List α → Prop) (l : List α) (es : List (Event α)) (l' : List α) : Prop :=
  (es = [] ∧ l' = l) ∨ ∃ e, es = [e] ∧ Step Full l e l'

theorem Effect.none (Full : List α → Prop) {l l' : List α} (h : l' = l) :
    Effect Full l [] l' :=
  Or.inl ⟨rfl, h⟩

theorem Effect.one {Full : List α → Prop} {l l' : List α} {e : Event α} (h : Step Full l e l') :
    Effect Full l [e] l' :=
  Or.inr ⟨e, rfl, h⟩

-- What a state holds may be known by a relation `Holds` that each step keeps with one effect or
-- none.  Then the effects along a run are a legal history,
theorem exists_run {Full : List α → Prop} {Holds : σ → List α → Prop}
    {observe : σ → β → List (Event α)} (h0 : Holds S.init [])
    (hstep : ∀ s a t l, S.Reachable s → Holds s l → S.step s a = some t →
      ∃ l', Holds t l' ∧ Effect Full l (observe s a) l')
    {p : σ × List (Event α)} (hp : (S.record observe).Reachable p) :
    ∃ l, Holds p.1 l ∧ Run Full p.2 l := by
  apply hp.invariant (P := fun p => ∃ l, Holds p.1 l ∧ Run Full p.2 l)
  · exact ⟨[], h0, .nil⟩
  · rintro p a q hreach ⟨l, hl, hrun⟩ ha
    obtain ⟨hs, hes⟩ := System.record_step.mp ha
    obtain ⟨l', hl', heffect⟩ := hstep _ _ _ _ hreach.of_record hl hs
    refine ⟨l', hl', ?_⟩
    rw [hes]
    rcases heffect with ⟨hnone, hsame⟩ | ⟨e, hone, heffect⟩
    · rw [hnone, List.append_nil, hsame]
      exact hrun
    · rw [hone]
      exact hrun.snoc heffect

-- and in particular when it is a function of the state.
theorem run_of_effects {Full : List α → Prop} {contents : σ → List α}
    {observe : σ → β → List (Event α)} (h0 : contents S.init = [])
    (hstep : ∀ s a t, S.Reachable s → S.step s a = some t →
      Effect Full (contents s) (observe s a) (contents t))
    {p : σ × List (Event α)} (hp : (S.record observe).Reachable p) :
    Run Full p.2 (contents p.1) := by
  let Holds : σ → List α → Prop := fun s l => contents s = l
  have hkeep : ∀ s a t l, S.Reachable s → Holds s l → S.step s a = some t →
      ∃ l', Holds t l' ∧ Effect Full l (observe s a) l' := by
    rintro s a t l hs rfl ha
    exact ⟨contents t, rfl, hstep s a t hs ha⟩
  obtain ⟨l, hl, hrun⟩ := exists_run h0 hkeep hp
  rw [show contents p.1 = l from hl]
  exact hrun

end Watermark.Reasoning.Fifo
