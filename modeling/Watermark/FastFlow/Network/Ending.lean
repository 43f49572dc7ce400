import Watermark.FastFlow.Network.Refinement

/-!
# Ending — what the farm leaves when its threads have ended
-/

namespace Watermark.FastFlow.Network

open Function Reasoning

variable {τ ε γ : Type} {P : Program τ ε γ}

namespace State

variable {s : State P}

theorem offlines_le (s : State P) : s.offlines ≤ P.threads := by
  have hle : s.offlines ≤ ∑ _i : Fin P.threads, 1 := by
    refine Finset.sum_le_sum fun i _ => ?_
    split
    · exact Nat.le_refl 1
    · exact Nat.zero_le 1
  rwa [Finset.sum_const, Finset.card_univ, Fintype.card_fin, smul_eq_mul, mul_one] at hle

-- The gatherer goes on until it has received `FF_EOS` from every worker.
theorem Inv.offline (h : s.Inv) (hg : s.gatherer = .ended) (i : Fin P.threads) :
    s.offline i = true := by
  have hnot : ¬s.neos < P.threads := by
    rw [← h.running, hg]
    exact Bool.false_ne_true
  have hle := s.offlines_le
  have hsum : ∑ i, (if s.offline i then 1 else 0) = Fintype.card (Fin P.threads) := by
    have hneos := h.neos
    rw [Fintype.card_fin]
    show s.offlines = _
    omega
  have hone := eq_one_of_sum_eq_card (fun i => if s.offline i then 1 else 0) (fun i => by
    split
    · exact Nat.le_refl 1
    · exact Nat.zero_le 1) hsum i
  by_contra hoff
  rw [if_neg hoff] at hone
  cases hone

theorem Inv.exists_online (h : s.Inv) (hg : s.gatherer ≠ .ended) : ∃ i, s.offline i = false := by
  by_contra hno
  have hall : ∀ i, s.offline i = true := fun i =>
    Bool.not_eq_false _ ▸ fun hi => hno ⟨i, hi⟩
  have hsum : s.offlines = P.threads := by
    unfold State.offlines
    simp only [hall, if_true, Finset.sum_const, Finset.card_univ, Fintype.card_fin, smul_eq_mul,
      mul_one]
  have hrunning : s.gatherer.running = true := by
    cases hgatherer : s.gatherer with
    | gather => rfl
    | svc task => rfl
    | ended => exact absurd hgatherer hg
  have hlt := h.running.mp hrunning
  have hneos := h.neos
  omega

-- When it has ended nothing is left of any lane.
theorem Inv.silent (h : s.Inv) (hg : s.gatherer = .ended) (i : Fin P.threads) :
    s.lb.served i = true ∧ s.inq i = [] ∧ s.worker i = .ended ∧ s.outq i = [] := by
  have hlane := h.lane i
  rw [h.offline hg i] at hlane
  exact hlane.of_offline

end State

variable {future : ε → List τ} {fuel : ε → ℕ}

theorem emitter_ended {emitter : ε} {lb : LoadBalancer P.threads τ ε} (i : Fin P.threads)
    (h : lb.Emitter P emitter) (hserved : lb.served i = true) :
    P.emit (loadHeap P.copies) emitter = none := by
  cases lb with
  | svc e => cases hserved
  | schedule task e => cases hserved
  | _ => exact h

theorem Follows.finished (L : P.Lawful future fuel) (hsteady : P.Steady) (hn : 0 < P.threads)
    {s : State P} {u : FastFlow.State P} (h : Follows s u) (hu : (serial P).Reachable u)
    (hinv : s.Inv) (hg : s.gatherer = .ended) : u.Finished := by
  have hsilent := hinv.silent hg
  refine ⟨?_, ?_, ?_, ?_⟩
  · rw [hsteady _ _ (FastFlow.inv L hu.of_restrict).memory.dims]
    exact emitter_ended ⟨0, hn⟩ h.emitter (hsilent ⟨0, hn⟩).1
  · rw [← Multiset.coe_eq_zero, h.assigned]
    refine Finset.sum_eq_zero fun i _ => ?_
    rw [(hsilent i).2.1]
    rfl
  · rw [← Multiset.coe_eq_zero, h.calls]
    refine Finset.sum_eq_zero fun i _ => ?_
    rw [(hsilent i).2.2.1]
    rfl
  · have hresults : ∑ i, (s.worker i).result = 0 := Finset.sum_eq_zero fun i _ => by
      rw [(hsilent i).2.2.1]
      rfl
    have hqueues : ∑ i, (↑(tasks (s.outq i)) : Multiset τ) = 0 := Finset.sum_eq_zero fun i _ => by
      rw [(hsilent i).2.2.2]
      rfl
    have hgatherer : s.gatherer.result = 0 := by
      rw [hg]
      rfl
    rw [← Multiset.coe_eq_zero, h.returned, hresults, hqueues, hgatherer]
    rfl

/-- When the gatherer has ended, the queues are empty and all workers have ended, the collector has
been called once on every task of the emitter, and the photos are marked. -/
theorem ended_of_gatherer (L : P.Lawful future fuel) (hsteady : P.Steady) (hn : 0 < P.threads)
    {s : State P} (hs : (system P).Reachable s) (hg : s.gatherer = .ended) :
    (∀ i, s.inq i = [] ∧ s.worker i = .ended ∧ s.outq i = []) ∧
      s.collected.Perm (future P.emitter) ∧
      s.collector = s.collected.foldl P.collect P.collector ∧
      s.memory.heap = P.sequential := by
  have hinv := inv hn hs
  obtain ⟨u, hu, hfollows⟩ := (simulation L hsteady hn).reachable hs
  have hfinished := hfollows.finished L hsteady hn hu hinv hg
  have hreach := hu.of_restrict
  refine ⟨fun i => (hinv.silent hg i).2, ?_, ?_, ?_⟩
  · rw [← hfollows.collected]
    exact collected_of_finished L hreach hfinished
  · rw [← hfollows.collected, ← hfollows.collector]
    exact collector_eq hreach
  · rw [← hfollows.memory]
    exact heap_of_finished L hreach hfinished

def Gatherer.hasEnded {τ : Type} : Gatherer τ → Bool
  | .ended => true
  | _ => false

theorem gatherer_ended {τ : Type} {g : Gatherer τ} (h : g.hasEnded = true) : g = .ended := by
  cases g with
  | ended => rfl
  | _ => cases h

theorem ended_of_gatherer_twoRows :
    (∀ i, twoRowsMapEnd.inq i = [] ∧ twoRowsMapEnd.worker i = .ended ∧
      twoRowsMapEnd.outq i = []) ∧
      twoRowsMapEnd.memory.heap = (Map.program twoRows).sequential := by
  have hn : 0 < twoRows.threads := by decide
  have hended : twoRowsMapEnd.gatherer = .ended := gatherer_ended (by decide +kernel)
  obtain ⟨hqueues, _, _, hheap⟩ :=
    ended_of_gatherer (Map.lawful hn) (Map.steady twoRows) hn twoRowsMapEnd_reachable hended
  exact ⟨hqueues, hheap⟩

end Watermark.FastFlow.Network
