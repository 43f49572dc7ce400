import Mathlib.Data.Fintype.Card
import Watermark.FastFlow.Agreement
import Watermark.FastFlow.Timing

/-!
# ServiceTime — what fastflow_farm.cpp adds up to its ideal service time

Two workers that are marking a photo each can be in the branch at once, and then the spans of both
are added.  One worker, or one photo, is what it takes to exclude that.
-/

namespace Watermark.FastFlow

open Reasoning

variable {τ ε γ : Type} {P : Program τ ε γ}

section Workers

variable {future : ε → List τ} {fuel : ε → ℕ}

/-! ## Calls that are in progress at once -/

theorem nodup_set {calls : List (Fin P.threads × Call τ)} {k : ℕ} {i : Fin P.threads}
    {c : Call τ} (h : (calls.map Prod.fst).Nodup) (hk : calls[k]? = some (i, c)) (d : Call τ) :
    ((calls.set k (i, d)).map Prod.fst).Nodup := by
  have hi : (calls.map Prod.fst)[k]? = some i := by
    rw [List.getElem?_map, hk]
    rfl
  obtain ⟨hlt, hget⟩ := List.getElem?_eq_some_iff.mp hi
  have hset : (calls.set k (i, d)).map Prod.fst = calls.map Prod.fst := by
    rw [List.map_set]
    show (calls.map Prod.fst).set k i = _
    rw [← hget, List.set_getElem_self]
  rw [hset]
  exact h

-- No worker is in two calls.
theorem workers_nodup {s : State P} (hs : (serial P).Reachable s) :
    (s.calls.map Prod.fst).Nodup := by
  apply hs.invariant (P := fun s => (s.calls.map Prod.fst).Nodup)
  · exact List.nodup_nil
  · intro s a t _ h ha
    obtain ⟨hallowed, ha⟩ := System.restrict_step.mp ha
    change s.step a = some t at ha
    have nodup_eraseIdx : ∀ {k}, ((s.calls.eraseIdx k).map Prod.fst).Nodup := fun {k} =>
      h.sublist ((List.eraseIdx_sublist s.calls k).map Prod.fst)
    cases a with
    | emit i =>
        simp only [State.step, State.emitStep] at ha
        split at ha <;> cases ha <;> exact h
    | collect k =>
        simp only [State.step, State.collectStep] at ha
        split at ha <;> cases ha
        exact h
    | call k =>
        simp only [State.step, State.callStep] at ha
        split at ha <;> cases ha
        rename_i i task hk
        rw [List.map_append, List.nodup_append]
        refine ⟨h, List.nodup_singleton _, ?_⟩
        intro i' hi' j hj
        obtain ⟨c, hc, rfl⟩ := List.mem_map.mp hi'
        simp only [List.map_singleton, List.mem_singleton] at hj
        subst hj
        simp only [State.oneCallAWorker, hk, Option.all_some, State.idle,
          List.all_eq_true] at hallowed
        exact of_decide_eq_true (hallowed c hc)
    | work k ms =>
        cases work_cases ha with
        | mark hk hm => exact nodup_set h hk _
        | testStamp hk htodo hc => exact nodup_set h hk _
        | testReturn hk htodo hc => exact nodup_eraseIdx
        | stamp hk => exact nodup_set h hk _
        | bump hk => exact nodup_eraseIdx

theorem length_calls_le_threads {s : State P} (hs : (serial P).Reachable s) :
    s.calls.length ≤ P.threads := by
  have hcard := (workers_nodup hs).length_le_card
  rwa [List.length_map, Fintype.card_fin] at hcard

theorem length_calls_le_tasks (L : P.Lawful future fuel) {s : State P}
    (hs : (system P).Reachable s) : s.calls.length ≤ (future P.emitter).length := by
  have htasks := congrArg Multiset.card (inv L hs).tasks
  simp only [State.pieces, bag, Multiset.card_map, Multiset.card_add, Multiset.coe_card,
    List.length_map] at htasks
  omega

theorem two_calls_of_overlaps {s : State P} {a : Action P.threads} (h : s.Overlaps a) :
    2 ≤ s.calls.length := by
  obtain ⟨htakes, c, hc, hin⟩ := h
  cases a with
  | work k ms =>
      obtain ⟨_, i, task, t, hk, _⟩ := htakes
      by_contra hlt
      -- the call that takes the branch would be the one that is in it
      obtain ⟨d, hd⟩ := List.length_eq_one_iff.mp (show s.calls.length = 1 by
        have hpos := List.length_pos_of_mem hc
        omega)
      have hmem := List.mem_of_getElem? hk
      rw [hd, List.mem_singleton] at hc hmem
      rw [hc, ← hmem] at hin
      cases hin
  | _ => exact htakes.elim

theorem not_overlaps (L : P.Lawful future fuel)
    (h : P.threads = 1 ∨ (future P.emitter).length = 1) {s : State P}
    (hs : (serial P).Reachable s) (a : Action P.threads) : ¬s.Overlaps a := by
  intro hover
  have htwo := two_calls_of_overlaps hover
  have hthreads := length_calls_le_threads hs
  have htasks := length_calls_le_tasks L hs.of_restrict
  omega

/-! ## Runs of workers that are threads -/

theorem serial_progress (hn : 0 < P.threads) {s : State P} (hs : ¬s.Finished) :
    ∃ a t, (serial P).step s a = some t := by
  obtain ⟨a, hallowed, ha⟩ : ∃ a, s.oneCallAWorker a = true ∧ (system P).Enabled s a := by
    by_cases hc : s.calls = []
    · by_cases ha : s.assigned = []
      · by_cases hr : s.returned = []
        · by_cases he : P.emit s.memory.heap s.emitter = none
          · exact absurd ⟨he, ha, hc, hr⟩ hs
          · exact ⟨.emit ⟨0, hn⟩, rfl, emit_enabled he ⟨0, hn⟩⟩
        · exact ⟨.collect 0, rfl, collect_enabled hr⟩
      · refine ⟨.call 0, ?_, call_enabled ha⟩
        show (s.assigned[0]?).all (fun a => s.idle a.1) = true
        unfold State.idle
        rw [hc]
        cases s.assigned[0]? <;> rfl
    · exact ⟨.work 0 0, rfl, work_enabled hc⟩
  obtain ⟨t, ht⟩ := System.enabled_iff.mp ha
  exact ⟨a, t, System.restrict_step.mpr ⟨hallowed, ht⟩⟩

theorem runs_to_end (hn : 0 < P.threads) (L : P.Lawful future fuel)
    {I : State P × List ℤ → Prop} (hI : ∀ p a q, I p → (timed P).step p a = some q → I q)
    {p : State P × List ℤ} (hp : (timed P).Reachable p) (h : I p) :
    ∃ q, (timed P).Reachable q ∧ I q ∧ q.1.Finished := by
  obtain ⟨as, q, hrun, hq, hend⟩ : ∃ as q, (timed P).exec p as = some q ∧ I q ∧ q.1.Finished := by
    apply hp.exists_run (μ := fun p => p.1.measure future fuel) _ h
    intro p hp hIp hfinished
    obtain ⟨a, t, ht⟩ := serial_progress hn hfinished
    have hstep : (timed P).step p a = some (t, p.2 ++ p.1.measured a) :=
      System.record_step.mpr ⟨ht, rfl⟩
    refine ⟨a, (t, p.2 ++ p.1.measured a), hstep, hI _ _ _ hIp hstep, ?_⟩
    exact measure_step L (reachable_of_timed hp) (System.restrict_step.mp ht).2
  exact ⟨q, hp.exec hrun, hq, hend⟩

theorem mark_step {s : State P} {k : ℕ} {i : Fin P.threads} {task : τ} {m : Marking}
    (hk : s.calls[k]? = some (i, .mark task m)) (htodo : m.todo ≠ []) :
    ∃ memory m', (serial P).step s (.work k 0) =
      some ({ s with memory }.setCall k i (.mark task m')) := by
  have hsome : m.step P.overlay s.memory ≠ none := mt Marking.step_eq_none_iff.mp htodo
  obtain ⟨⟨memory, m'⟩, hm⟩ := Option.ne_none_iff_exists'.mp hsome
  refine ⟨memory, m', System.restrict_step.mpr ⟨rfl, ?_⟩⟩
  show s.workStep k 0 = _
  simp only [State.workStep, hk, hm]

theorem testStamp_step {s : State P} {k : ℕ} {i : Fin P.threads} {task : τ} {m : Marking}
    (hk : s.calls[k]? = some (i, .mark task m)) (htodo : m.todo = [])
    (hc : s.counter_worker = 0) :
    (serial P).step s (.work k 0) = some (s.setCall k i (.stamp task)) := by
  refine System.restrict_step.mpr ⟨rfl, ?_⟩
  show s.workStep k 0 = _
  simp only [State.workStep, hk, Marking.step_eq_none_iff.mpr htodo, if_pos hc]

-- Two workers that are marking at once can both finish their pixels before either tests.
theorem exists_both_marked (L : P.Lawful future fuel) {s : State P} (hs : (serial P).Reachable s)
    {i j : Fin P.threads} {q q' : τ} {m m' : Marking}
    (hcalls : s.calls = [(i, .mark q m), (j, .mark q' m')]) (hcounter : s.counter_worker = 0) :
    ∃ t m m', (serial P).Reachable t ∧ t.calls = [(i, .mark q m), (j, .mark q' m')] ∧
      t.counter_worker = 0 ∧ m.todo = [] ∧ m'.todo = [] := by
  let I : State P → Prop := fun s =>
    s.counter_worker = 0 ∧ ∃ m m', s.calls = [(i, .mark q m), (j, .mark q' m')]
  obtain ⟨as, t, hrun, ⟨hcounter, _⟩, m, m', hcalls, hm, hm'⟩ : ∃ as t,
      (serial P).exec s as = some t ∧ I t ∧
        ∃ m m', t.calls = [(i, .mark q m), (j, .mark q' m')] ∧ m.todo = [] ∧ m'.todo = [] := by
    apply hs.exists_run (μ := State.measure future fuel) (I := I) _ ⟨hcounter, m, m', hcalls⟩
    intro s hs ⟨hcounter, m, m', hcalls⟩ hgoal
    by_cases hm : m.todo = []
    · have hm' : m'.todo ≠ [] := fun hm' => hgoal ⟨m, m', hcalls, hm, hm'⟩
      have hk : s.calls[1]? = some (j, .mark q' m') := by
        rw [hcalls]
        rfl
      obtain ⟨memory, m'', hstep⟩ := mark_step hk hm'
      refine ⟨_, _, hstep, ⟨hcounter, m, m'', ?_⟩,
        measure_step L hs.of_restrict (System.restrict_step.mp hstep).2⟩
      show s.calls.set 1 (j, .mark q' m'') = _
      rw [hcalls]
      rfl
    · have hk : s.calls[0]? = some (i, .mark q m) := by
        rw [hcalls]
        rfl
      obtain ⟨memory, m'', hstep⟩ := mark_step hk hm
      refine ⟨_, _, hstep, ⟨hcounter, m'', m', ?_⟩,
        measure_step L hs.of_restrict (System.restrict_step.mp hstep).2⟩
      show s.calls.set 0 (i, .mark q m'') = _
      rw [hcalls]
      rfl
  exact ⟨t, m, m', hs.exec hrun, hcalls, hcounter, hm, hm'⟩

-- Then the first takes the branch, and the second takes it while the first is there.
theorem exists_overlap (L : P.Lawful future fuel) {s : State P} (hs : (serial P).Reachable s)
    {i j : Fin P.threads} {q q' : τ} {m m' : Marking}
    (hcalls : s.calls = [(i, .mark q m), (j, .mark q' m')]) (hcounter : s.counter_worker = 0) :
    ∃ t a u, (serial P).Reachable t ∧ t.Overlaps a ∧ (serial P).step t a = some u := by
  obtain ⟨t, m, m', ht, hcalls, hcounter, hm, hm'⟩ := exists_both_marked L hs hcalls hcounter
  have hk : t.calls[0]? = some (i, .mark q m) := by
    rw [hcalls]
    rfl
  have hfirst := testStamp_step hk hm hcounter
  let u : State P := t.setCall 0 i (.stamp q)
  have hucalls : u.calls = [(i, .stamp q), (j, .mark q' m')] := by
    show t.calls.set 0 (i, .stamp q) = _
    rw [hcalls]
    rfl
  have huk : u.calls[1]? = some (j, .mark q' m') := by
    rw [hucalls]
    rfl
  have hin : (i, Call.stamp q) ∈ u.calls := by
    rw [hucalls]
    exact List.mem_cons_self
  refine ⟨u, .work 1 0, _, ht.next hfirst, ?_, testStamp_step huk hm' hcounter⟩
  exact ⟨⟨hcounter, j, q', m', huk, hm'⟩, (i, .stamp q), hin, rfl⟩

end Workers

/-! ## fastflow_farm.cpp -/

namespace Farm

variable {cfg : Config}

theorem length_photos (cfg : Config) : (photos cfg).length = cfg.originals.length := by
  unfold photos Config.keys
  rw [List.length_map, List.length_map, List.length_zipIdx]

theorem service_time_of_one_call_iff_length {p : State (program cfg) × List ℤ}
    (hp : (timed (program cfg)).Reachable p) : ServiceTimeOfOneCall p ↔ p.2.length = 1 := by
  have hideal := (counted hp).ideal
  unfold ServiceTimeOfOneCall
  constructor
  · intro hone
    rw [hone]
    rfl
  · intro hlen
    obtain ⟨ms, hms⟩ := List.length_eq_one_iff.mp hlen
    rw [hideal, hms]
    show [ms] = [0 + ms]
    rw [Int.zero_add]

theorem emit_step {s : State (program cfg)} {q : Image} (hq : (photos cfg)[s.emitter]? = some q)
    (i : Fin (program cfg).threads) : (serial (program cfg)).step s (.emit i) =
      some { s with emitter := s.emitter + 1, assigned := s.assigned ++ [(i, q)] } := by
  obtain ⟨hlt, hget⟩ := List.getElem?_eq_some_iff.mp hq
  refine System.restrict_step.mpr ⟨rfl, ?_⟩
  have hemit : (program cfg).emit s.memory.heap s.emitter = some (some q, s.emitter + 1) := by
    show firstStage (photos cfg) s.emitter = _
    unfold firstStage
    rw [dif_pos hlt, hget]
  show s.emitStep i = _
  unfold State.emitStep
  rw [hemit]

theorem call_step {s : State (program cfg)} {i : Fin (program cfg).threads} {q : Image}
    {rest : List (Fin (program cfg).threads × Image)} (ha : s.assigned = (i, q) :: rest)
    (hidle : s.idle i = true) : (serial (program cfg)).step s (.call 0) =
      some { s with
        assigned := rest
        calls := s.calls ++ [(i, .mark q (worker s.memory.heap q))] } := by
  refine System.restrict_step.mpr ⟨?_, ?_⟩
  · show (s.assigned[0]?).all (fun a => s.idle a.1) = true
    rw [ha]
    exact hidle
  · show s.callStep 0 = _
    unfold State.callStep
    rw [ha]
    rfl

-- The first two photos are given to two workers.
theorem exists_two_calls (hthreads : 2 ≤ cfg.threads) (hphotos : 2 ≤ cfg.originals.length) :
    ∃ (s : State (program cfg)) (i j : Fin (program cfg).threads) (q q' : Image) (m m' : Marking),
      (serial (program cfg)).Reachable s ∧
      s.calls = [(i, .mark q m), (j, .mark q' m')] ∧ s.counter_worker = 0 := by
  have hlen := length_photos cfg
  let q := (photos cfg)[0]
  let q' := (photos cfg)[1]
  have hq : (photos cfg)[0]? = some q := List.getElem?_eq_getElem (by omega)
  have hq' : (photos cfg)[1]? = some q' := List.getElem?_eq_getElem (by omega)
  obtain ⟨i, j, hij⟩ : ∃ i j : Fin (program cfg).threads, i ≠ j :=
    (Fin.nontrivial_iff_two_le.mpr hthreads).exists_pair_ne
  let init : State (program cfg) := (serial (program cfg)).init
  let s₁ : State (program cfg) := { init with emitter := 1, assigned := [(i, q)] }
  let s₂ : State (program cfg) := { init with emitter := 2, assigned := [(i, q), (j, q')] }
  let s₃ : State (program cfg) := { s₂ with
    assigned := [(j, q')]
    calls := [(i, .mark q (worker s₂.memory.heap q))] }
  let s₄ : State (program cfg) := { s₃ with
    assigned := []
    calls := [(i, .mark q (worker s₂.memory.heap q)), (j, .mark q' (worker s₃.memory.heap q'))] }
  have h₁ : (serial (program cfg)).step init (.emit i) = some s₁ := emit_step hq i
  have h₂ : (serial (program cfg)).step s₁ (.emit j) = some s₂ := emit_step hq' j
  have h₃ : (serial (program cfg)).step s₂ (.call 0) = some s₃ := call_step rfl rfl
  have hidle : s₃.idle j = true := by
    show (decide (i ≠ j) && true) = true
    simp [hij]
  have h₄ : (serial (program cfg)).step s₃ (.call 0) = some s₄ := call_step rfl hidle
  have hs := ((System.Reachable.init.next h₁).next h₂).next h₃
  exact ⟨s₄, i, j, q, q', _, _, hs.next h₄, rfl, rfl⟩

theorem length_future (cfg : Config) :
    (future cfg (program cfg).emitter).length = cfg.originals.length := length_photos cfg

theorem exists_run_twice (hthreads : 2 ≤ cfg.threads) (hphotos : 2 ≤ cfg.originals.length) :
    ∃ p, (timed (program cfg)).Reachable p ∧ p.1.Finished ∧ ¬ServiceTimeOfOneCall p := by
  have L := lawful cfg
  have hn : 0 < (program cfg).threads := by
    show 0 < cfg.threads
    omega
  obtain ⟨s, i, j, q, q', m, m', hs, hcalls, hcounter⟩ := exists_two_calls hthreads hphotos
  obtain ⟨t, a, u, ht, hover, hstep⟩ := exists_overlap L hs hcalls hcounter
  obtain ⟨spans, hreach⟩ := ht.exists_record State.measured
  have hnext : (timed (program cfg)).step (t, spans) a = some (u, spans ++ t.measured a) :=
    System.record_step.mpr ⟨hstep, rfl⟩
  have htwice := twice_of_overlaps (counted hreach) hover hnext
  obtain ⟨p, hp, hlast, hend⟩ := runs_to_end hn L (I := fun p => 2 ≤ branches p)
    (fun p a q h ha => twice_step h ha) (hreach.next hnext) htwice
  refine ⟨p, hp, hend, fun hone => ?_⟩
  have hne : future cfg (program cfg).emitter ≠ [] := by
    apply List.length_pos_iff.mp
    rw [length_future]
    omega
  obtain ⟨hbranches, _⟩ := spans_of_finished L hne hp hend
  rw [service_time_of_one_call_iff_length hp] at hone
  omega

/-- At the end of a run the ideal service time is the span of one call, unless a call has taken the
branch `counter_worker==0` while another was in it.  So it is the span of one call in every run
exactly when there is one worker or one photo. -/
theorem service_time_of_one_call_iff (cfg : Config) (hn : 1 ≤ cfg.number_of_workers)
    (hphotos : cfg.originals ≠ []) :
    (∀ as p, (timed (program cfg)).exec (timed (program cfg)).init as = some p → p.1.Finished →
      (ServiceTimeOfOneCall p ↔ (timed (program cfg)).Along (fun p a => ¬p.1.Overlaps a)
        (timed (program cfg)).init as)) ∧
    ((∀ p, (timed (program cfg)).Reachable p → p.1.Finished → ServiceTimeOfOneCall p) ↔
      cfg.number_of_workers = 1 ∨ cfg.originals.length = 1) := by
  have L := lawful cfg
  have hpos := List.length_pos_iff.mpr hphotos
  have hne : future cfg (program cfg).emitter ≠ [] := by
    apply List.length_pos_iff.mp
    rw [length_future]
    exact hpos
  have hrun : ∀ as p, (timed (program cfg)).exec (timed (program cfg)).init as = some p →
      p.1.Finished → (ServiceTimeOfOneCall p ↔
        (timed (program cfg)).Along (fun p a => ¬p.1.Overlaps a)
          (timed (program cfg)).init as) := by
    intro as p hrun h
    rw [service_time_of_one_call_iff_length (System.Reachable.init.exec hrun)]
    exact one_span_iff_along L hne hrun h
  refine ⟨hrun, fun hall => ?_, fun hone p hp h => ?_⟩
  · by_contra hno
    have hthreads : 2 ≤ cfg.threads := by
      unfold Config.threads
      omega
    obtain ⟨p, hp, h, hbad⟩ := exists_run_twice hthreads (by omega)
    exact hbad (hall p hp h)
  · obtain ⟨as, has⟩ := hp.exists_exec
    apply (hrun as p has h).mpr
    apply System.along_of_forall _ .init
    intro p a hp
    apply not_overlaps L _ hp.of_record
    rw [length_future]
    show cfg.number_of_workers.toNat = 1 ∨ _
    omega

/-! ## A run with one span and a run with two -/

def twoRowsTimedRun : List (Action 2) :=
  [.emit ⟨1, Nat.one_lt_two⟩, .call 0] ++ List.replicate 13 (.work 0 5) ++ [.collect 0]

def twoRowsTimedEnd : State (program twoRows) × List ℤ :=
  ((timed (program twoRows)).exec (timed (program twoRows)).init twoRowsTimedRun).get
    (by decide +kernel)

theorem twoRowsTimedEnd_reachable : (timed (program twoRows)).Reachable twoRowsTimedEnd :=
  System.reachable_get _

theorem service_time_of_one_call_iff_twoRows :
    ServiceTimeOfOneCall twoRowsTimedEnd ∧ twoRowsTimedEnd.1.ideal_service_worker = 5 := by
  have h := service_time_of_one_call_iff twoRows (by decide) (by decide)
  refine ⟨?_, by decide +kernel⟩
  apply h.2.mpr (Or.inr rfl) twoRowsTimedEnd twoRowsTimedEnd_reachable
  decide +kernel

/-- Two workers and two photos of one pixel. -/
def twoPhotos : Config where
  number_of_workers := 2
  overlay := onePixelOverlay
  originals := [("0.jpg", onePixelPhoto), ("1.jpg", onePixelPhoto)]

/-- Both workers test the counter before either has added its span. -/
def twoPhotosRun : List (Action 2) :=
  [.emit ⟨0, Nat.two_pos⟩, .emit ⟨1, Nat.one_lt_two⟩, .call 0, .call 0] ++
    List.replicate 10 (.work 0 0) ++ List.replicate 10 (.work 1 0) ++
    [.work 0 5, .work 1 7, .work 0 0, .work 0 0, .collect 0, .collect 0]

def twoPhotosEnd : State (program twoPhotos) × List ℤ :=
  ((timed (program twoPhotos)).exec (timed (program twoPhotos)).init twoPhotosRun).get
    (by decide +kernel)

theorem not_service_time_of_one_call_twoPhotos :
    (timed (program twoPhotos)).Reachable twoPhotosEnd ∧ twoPhotosEnd.1.Finished ∧
      twoPhotosEnd.2 = [5, 7] ∧ twoPhotosEnd.1.ideal_service_worker = 12 ∧
      ¬ServiceTimeOfOneCall twoPhotosEnd := by
  have hspans : twoPhotosEnd.2 = [5, 7] := by decide +kernel
  refine ⟨System.reachable_get _, by decide +kernel, hspans, by decide +kernel, ?_⟩
  unfold ServiceTimeOfOneCall
  rw [hspans]
  exact fun hone => absurd (congrArg List.length hone) (by decide)

end Farm

end Watermark.FastFlow
