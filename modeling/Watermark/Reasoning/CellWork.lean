import Mathlib.Algebra.BigOperators.Group.List.Basic
import Mathlib.Algebra.Order.Group.Multiset
import Mathlib.Data.Multiset.Dedup

/-!
# CellWork — threads that finish a fixed set of jobs on disjoint cells

A job is a small program run on one cell of a shared memory: it reads and writes that cell only,
one access a step, and other threads step in between.  When every cell has at most one job, the
value each cell ends with is decided from the start, whatever the interleaving.  The invariant
says so by looking forward: completing what is left of each job gives the target.
-/

namespace Watermark.Reasoning

-- Membership in work that is given list element by list element.
theorem mem_sum_map {α β : Type*} {f : α → Multiset β} {l : List α} {e : β} :
    e ∈ (l.map f).sum ↔ ∃ a ∈ l, e ∈ f a := by
  induction l with
  | nil => simp
  | cons a l ih =>
      rw [List.map_cons, List.sum_cons, Multiset.mem_add, ih]
      simp only [List.mem_cons, exists_eq_or_imp]

/-- A program on one cell, with the value its remaining steps lead to.  `finish` is stated as a
function of the cell alone, which is what makes jobs on different cells independent. -/
structure CellProgram (Loc Pc Val : Type*) where
  step : Loc → Pc → Val → Option Pc × Val
  finish : Loc → Pc → Val → Val
  finish_some : ∀ {l pc v pc' v'}, step l pc v = (some pc', v') → finish l pc' v' = finish l pc v
  finish_none : ∀ {l pc v v'}, step l pc v = (none, v') → v' = finish l pc v

/-- `done` are the cells whose job has ended, `work` the jobs still to end with their program
counters; together they are the cells `cells`, each once. -/
structure Coherent {Loc Pc Val : Type*} (P : CellProgram Loc Pc Val) (target : Loc → Val)
    (cells : Multiset Loc) (mem : Loc → Val) (done : Multiset Loc)
    (work : Multiset (Loc × Pc)) : Prop where
  nodup : cells.Nodup
  cover : done + work.map Prod.fst = cells
  pending : ∀ e ∈ work, P.finish e.1 e.2 (mem e.1) = target e.1
  settled : ∀ l, l ∉ work.map Prod.fst → mem l = target l

namespace Coherent

variable {Loc Pc Val : Type*} {P : CellProgram Loc Pc Val} {target : Loc → Val}
  {cells : Multiset Loc} {mem mem' : Loc → Val} {done : Multiset Loc} {work : Multiset (Loc × Pc)}
  {l : Loc} {pc pc' : Pc}

theorem start (hnodup : (work.map Prod.fst).Nodup)
    (hpending : ∀ e ∈ work, P.finish e.1 e.2 (mem e.1) = target e.1)
    (hsettled : ∀ l, l ∉ work.map Prod.fst → mem l = target l) :
    Coherent P target (work.map Prod.fst) mem 0 work :=
  ⟨hnodup, zero_add _, hpending, hsettled⟩

-- The cell of a job in progress has no second job.
theorem not_mem_rest (h : Coherent P target cells mem done ((l, pc) ::ₘ work)) :
    l ∉ work.map Prod.fst := by
  have hn := h.nodup
  rw [← h.cover, Multiset.map_cons, Multiset.add_cons] at hn
  intro hl
  exact (Multiset.nodup_cons.mp hn).1 (Multiset.mem_add.mpr (Or.inr hl))

-- The job on `l` takes a step and goes on at `pc'`.
theorem step_some (h : Coherent P target cells mem done ((l, pc) ::ₘ work))
    (hs : P.step l pc (mem l) = (some pc', mem' l)) (hf : ∀ k, k ≠ l → mem' k = mem k) :
    Coherent P target cells mem' done ((l, pc') ::ₘ work) := by
  have hrest := h.not_mem_rest
  refine ⟨h.nodup, by simpa only [Multiset.map_cons] using h.cover, fun e he => ?_, fun k hk => ?_⟩
  · rcases Multiset.mem_cons.mp he with rfl | he
    · rw [P.finish_some hs]
      exact h.pending (l, pc) (Multiset.mem_cons_self _ _)
    · have hne : e.1 ≠ l := fun heq => hrest (heq ▸ Multiset.mem_map_of_mem Prod.fst he)
      rw [hf _ hne]
      exact h.pending e (Multiset.mem_cons_of_mem he)
  · rw [Multiset.map_cons] at hk
    have hne : k ≠ l := fun heq => hk (heq ▸ Multiset.mem_cons_self _ _)
    rw [hf k hne]
    exact h.settled k (by rwa [Multiset.map_cons])

-- The job on `l` takes its last step.
theorem step_none (h : Coherent P target cells mem done ((l, pc) ::ₘ work))
    (hs : P.step l pc (mem l) = (none, mem' l)) (hf : ∀ k, k ≠ l → mem' k = mem k) :
    Coherent P target cells mem' (l ::ₘ done) work := by
  have hrest := h.not_mem_rest
  refine ⟨h.nodup, ?_, fun e he => ?_, fun k hk => ?_⟩
  · rw [← h.cover, Multiset.map_cons, Multiset.add_cons, Multiset.cons_add]
  · have hne : e.1 ≠ l := fun heq => hrest (heq ▸ Multiset.mem_map_of_mem Prod.fst he)
    rw [hf _ hne]
    exact h.pending e (Multiset.mem_cons_of_mem he)
  · by_cases hkl : k = l
    · subst hkl
      rw [P.finish_none hs]
      exact h.pending (k, pc) (Multiset.mem_cons_self _ _)
    · rw [hf k hkl]
      refine h.settled k fun hmem => ?_
      rw [Multiset.map_cons, Multiset.mem_cons] at hmem
      exact hmem.elim hkl hk

-- A cell without a pending job has been done exactly once, if it is one of the cells.
theorem count_done [DecidableEq Loc] (h : Coherent P target cells mem done work)
    (hl : l ∈ cells) (hw : l ∉ work.map Prod.fst) : done.count l = 1 := by
  have hc := congrArg (Multiset.count l) h.cover
  rw [Multiset.count_add, Multiset.count_eq_zero_of_notMem hw,
    Multiset.count_eq_one_of_mem h.nodup hl] at hc
  exact hc

end Coherent

end Watermark.Reasoning
