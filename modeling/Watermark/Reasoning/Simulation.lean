import Watermark.Reasoning.Runs

/-!
# Simulation — a system that does what a simpler one does

Each step of the first system is some steps of the second, none of them included, and the relation
between their states says what carries over.
-/

namespace Watermark.Reasoning

variable {σ α τ β : Type*}

/-- The second system can follow the first one, `r` being what it keeps up. -/
structure Simulation (C : System σ α) (A : System τ β) (r : σ → τ → Prop) : Prop where
  init : r C.init A.init
  step : ∀ s a t u, C.Reachable s → A.Reachable u → r s u → C.step s a = some t →
    ∃ bs v, A.exec u bs = some v ∧ r t v

namespace Simulation

variable {C : System σ α} {A : System τ β} {r : σ → τ → Prop}

theorem stutter {t : σ} {u : τ} (h : r t u) : ∃ bs v, A.exec u bs = some v ∧ r t v :=
  ⟨[], u, rfl, h⟩

theorem one {t : σ} {u v : τ} {b : β} (hb : A.step u b = some v) (h : r t v) :
    ∃ bs v, A.exec u bs = some v ∧ r t v :=
  ⟨[b], v, System.exec_singleton hb, h⟩

-- Every run is followed by a run.
theorem exec (h : Simulation C A r) {s t : σ} {u : τ} {as : List α} (hs : C.Reachable s)
    (hu : A.Reachable u) (hr : r s u) (hrun : C.exec s as = some t) :
    ∃ bs v, A.exec u bs = some v ∧ r t v := by
  induction as generalizing s u with
  | nil =>
      cases hrun
      exact stutter hr
  | cons a as ih =>
      obtain ⟨s', hs', hrest⟩ := System.exec_cons hrun
      obtain ⟨bs, u', hbs, hr'⟩ := h.step s a s' u hs hu hr hs'
      obtain ⟨bs', v, hbs', hv⟩ := ih (hs.next hs') (hu.exec hbs) hr' hrest
      exact ⟨bs ++ bs', v, System.exec_trans hbs hbs', hv⟩

-- What is reachable corresponds to something that is.
theorem reachable (h : Simulation C A r) {s : σ} (hs : C.Reachable s) :
    ∃ u, A.Reachable u ∧ r s u := by
  obtain ⟨as, hrun⟩ := hs.exists_exec
  obtain ⟨bs, u, hbs, hr⟩ := h.exec .init .init h.init hrun
  exact ⟨u, System.Reachable.init.exec hbs, hr⟩

-- What the second system keeps in every reachable state and the relation carries over, holds of
-- the first.
theorem invariant (h : Simulation C A r) {I : σ → Prop} {J : τ → Prop}
    (hJ : ∀ u, A.Reachable u → J u) (hI : ∀ s u, r s u → J u → I s) {s : σ}
    (hs : C.Reachable s) : I s := by
  obtain ⟨u, hu, hr⟩ := h.reachable hs
  exact hI s u hr (hJ u hu)

end Simulation

end Watermark.Reasoning
