import Watermark.Farm.Progress
import Watermark.Reasoning.Closing

/-!
# ParallelTime — what the parallel time of farm.cpp covers

`Collector_Farm` stops its clock at the first EOS.  That EOS belongs to one worker, and the photos
the others still hold come after it.
-/

namespace Watermark.Farm

open Function Reasoning

variable {cfg : Config}

namespace State

/-- When `total_parallel` is set every photo has been collected. -/
def Covered (s : State cfg) : Prop :=
  1 ≤ s.collector.first_end_of_stream → ∀ q ∈ cfg.photos, q ∈ s.Photos_Done

/-- A worker pushes its EOS while another still holds a photo. -/
def LeavesEarly (s : State cfg) : Action cfg.threads → Prop
  | .worker i _ => s.workers i = .pushEos ∧ ∃ j q, (s.workers j).hand = .holds q
  | _ => False

end State

theorem first_end_of_stream_eq {s : State cfg} (hs : (system cfg).Reachable s) :
    s.collector.first_end_of_stream = s.collector.count := by
  let I : State cfg → Prop := fun s => s.collector.first_end_of_stream = s.collector.count
  apply hs.invariant (P := I) rfl
  intro s a t _ ih ha
  cases a with
  | emitter => cases emitterStep_cases ha <;> exact ih
  | worker i ms => cases workerStep_cases ha <;> exact ih
  | collector ms =>
      cases collectorStep_cases ha with
      | photo hc hq => exact ih
      | eos hc hq => exact congrArg (· + 1) ih

theorem pushEos_of_gone {s t : State cfg} {i : Fin cfg.threads} {ms : ℤ}
    (h : WorkerStep s i ms t) (hi : (t.workers i).hand = .gone) : s.workers i = .pushEos := by
  cases h with
  | pushEos hw => exact hw
  | _ => simp [State.setWorker, Worker.hand] at hi

theorem not_leavesEarly_pipeline {s t : State cfg} {a : Action cfg.threads} (hno : ¬s.LeavesEarly a)
    (ha : (system cfg).step s a = some t) : ¬Pipeline.LeavesEarly s.pipeline t.pipeline := by
  rintro ⟨i, j, q, hi, hgone, hj⟩
  have hi : (s.workers i).hand = .ending := hi
  have hgone : (t.workers i).hand = .gone := hgone
  have hsame : t.workers i ≠ s.workers i := by
    intro h
    rw [h, hi] at hgone
    cases hgone
  cases a with
  | emitter => cases emitterStep_cases ha <;> exact hsame rfl
  | collector ms => cases collectorStep_cases ha <;> exact hsame rfl
  | worker k ms =>
      have hstep := workerStep_cases ha
      by_cases hik : i = k
      · subst hik
        exact hno ⟨pushEos_of_gone hstep hgone, j, q, hj⟩
      · obtain ⟨w, hw⟩ := workers_of_workerStep hstep
        apply hsame
        rw [hw, update_of_ne hik]

/-! ## Runs without early leaves -/

/-- Once a worker has returned nothing but EOS is on its way. -/
def State.Closed (s : State cfg) : Prop :=
  (∃ i, s.pipeline.hands i = .gone) → s.pipeline.Closed

theorem closed_init : (system cfg).init.Closed := by
  rintro ⟨i, hi⟩
  cases hi

theorem closed_step {s t : State cfg} {a : Action cfg.threads} (hs : (system cfg).Reachable s)
    (h : s.Closed) (hno : ¬s.LeavesEarly a) (ha : (system cfg).step s a = some t) : t.Closed := by
  have hearly := not_leavesEarly_pipeline hno ha
  rcases pipeline_step ha with heq | hstep
  · unfold State.Closed
    rw [heq]
    exact h
  · exact Pipeline.closed_step (pipelineInv hs) h hstep hearly

theorem covered_of_closed {s : State cfg} (hs : (system cfg).Reachable s) (h : s.Closed) :
    s.Covered := by
  intro hfirst q hq
  have hinv := pipelineInv hs
  have hcount : 0 < s.pipeline.count := by
    show 0 < s.collector.count
    rw [← first_end_of_stream_eq hs]
    exact hfirst
  have hgone : ∃ i, s.pipeline.hands i = .gone := by
    by_contra hno
    have hzero := (hinv.no_marks fun i hi => hno ⟨i, hi⟩).2
    omega
  have hdone : s.Photos_Done.Perm cfg.photos := (h hgone).done_perm hinv hcount
  exact hdone.mem_iff.mpr hq

theorem throughout_covered {as : List (Action cfg.threads)}
    (h : (system cfg).Along (fun s a => ¬s.LeavesEarly a) (system cfg).init as) :
    (system cfg).Throughout State.Covered (system cfg).init as := by
  have hclosed : (system cfg).Throughout State.Closed (system cfg).init as := by
    apply System.Along.throughout _ .init closed_init h
    intro s a t hs h hno ha
    exact closed_step hs h hno ha
  apply hclosed.mono _ .init
  intro s hs h
  exact covered_of_closed hs h

/-! ## Runs with an early leave -/

theorem overlooked_of_leavesEarly {s t : State cfg} {a : Action cfg.threads}
    (hs : (system cfg).Reachable s) (hclosed : s.Closed) (h : s.LeavesEarly a)
    (ha : (system cfg).step s a = some t) : ∃ q ∈ cfg.photos, t.pipeline.Overlooked q := by
  cases a with
  | emitter => exact h.elim
  | collector ms => exact h.elim
  | worker i ms =>
      obtain ⟨hi, j, q, hj⟩ := h
      have hinv := pipelineInv hs
      have hj : s.pipeline.hands j = .holds q := hj
      -- nobody has left before, since a worker still holds a photo
      have hcount : s.pipeline.count = 0 := by
        refine (hinv.no_marks fun k hk => ?_).2
        exact (hclosed ⟨k, hk⟩).hands j q hj
      refine ⟨q, hinv.mem_of_holds hj, ?_⟩
      have hending : s.pipeline.hands i = .ending := by
        show (s.workers i).hand = .ending
        rw [hi]
        rfl
      cases workerStep_cases ha with
      | pushEos hw =>
          rw [pipeline_setWorker]
          show Pipeline.Overlooked q { s.pipeline with
            output := (s.marked_photos.push none).contents
            hands := update s.pipeline.hands i .gone }
          rw [Queue.contents_push]
          exact Pipeline.overlooked_of_leavesEarly hcount hending hj
      | _ => simp_all

-- If a photo is overlooked the collector stops its clock without it.
theorem not_throughout_covered {s t : State cfg} (hs : (system cfg).Reachable s)
    (hn : 0 < cfg.threads) {q : Image} (hq : q ∈ cfg.photos) (h : s.pipeline.Overlooked q)
    {as : List (Action cfg.threads)} (hrun : (system cfg).exec s as = some t)
    (hr : t.AllReturned) : ¬(system cfg).Throughout State.Covered s as := by
  intro hcovered
  have hend : t.pipeline.Overlooked q := by
    apply hcovered.keeps (I := fun s => s.pipeline.Overlooked q) _ hs h hrun
    intro s a t hs h ha hcovered
    rcases pipeline_step ha with heq | hstep
    · rw [heq]
      exact h
    · have hcount := List.count_eq_one_of_mem (nodup_photos cfg) hq
      refine (Pipeline.overlooked_step (pipelineInv hs) hcount h hstep).resolve_right ?_
      rintro ⟨hone, hdone⟩
      apply hdone
      apply hcovered _ q hq
      rw [first_end_of_stream_eq (hs.next ha)]
      exact hone.symm.le
  have hzero : t.collector.count = 0 := hend.1
  apply hr.2.2
  rw [lt_threads, hzero]
  exact hn

theorem throughout_covered_iff (hn : 0 < cfg.threads) {as : List (Action cfg.threads)}
    {t : State cfg} (hrun : (system cfg).exec (system cfg).init as = some t) (hr : t.AllReturned) :
    (system cfg).Throughout State.Covered (system cfg).init as ↔
      (system cfg).Along (fun s a => ¬s.LeavesEarly a) (system cfg).init as := by
  refine ⟨fun hcovered => ?_, throughout_covered⟩
  by_contra hno
  obtain ⟨before, a, after, u, v, rfl, hu, halong, hearly, hv, hend⟩ :=
    System.exists_first_of_not_along hno hrun
  have hreach : (system cfg).Reachable u := System.Reachable.init.exec hu
  have hclosed : u.Closed := by
    apply halong.keeps _ .init closed_init hu
    intro s a t hs h hno ha
    exact closed_step hs h hno ha
  obtain ⟨q, hq, hover⟩ := overlooked_of_leavesEarly hreach hclosed (not_not.mp hearly) hv
  apply not_throughout_covered (hreach.next hv) hn hq hover hend hr
  have hrest := hcovered.prefix hu
  exact hrest.2 v hv

/-! ## The arguments for which every run is covered -/

-- The first worker keeps its photo until the second has nothing left but its EOS.
theorem exists_leavesEarly (hthreads : 2 ≤ cfg.threads) (hcopies : cfg.copies ≠ []) :
    ∃ s a, (system cfg).Reachable s ∧ s.LeavesEarly a ∧ (system cfg).Enabled s a := by
  obtain ⟨q, rest, hphotos⟩ : ∃ q rest, cfg.photos = q :: rest := by
    apply List.exists_cons_of_ne_nil
    rw [← List.length_pos_iff, length_photos]
    exact List.length_pos_iff.mpr hcopies
  obtain ⟨j, i, hji⟩ := (Fin.nontrivial_iff_two_le.mpr hthreads).exists_pair_ne
  obtain ⟨s, hs, hworkers, _⟩ := pop_first hphotos i
  have hi : s.workers i = .count q := by
    rw [hworkers, update_self]
  have hj : s.workers j ≠ .returned := by
    rw [hworkers, update_of_ne hji]
    exact fun h => by cases h
  let I : State cfg → Prop := fun s => s.workers i = .count q ∧ s.workers j ≠ .returned
  obtain ⟨as, t, hrun, hI, hgoal⟩ : ∃ as t, (system cfg).exec s as = some t ∧ I t ∧
      t.workers j = .pushEos := by
    apply hs.exists_run (μ := State.measure) (I := I) _ ⟨hi, hj⟩
    intro s hs ⟨hi, hj⟩ hgoal
    by_cases he : s.EmitterReturned
    · obtain ⟨t, ht⟩ := System.enabled_iff.mp (worker_can_step hs he hj)
      refine ⟨_, t, ht, ⟨?_, fun hret => hgoal ?_⟩, measure_step hs ht⟩
      · obtain ⟨w, hw⟩ := workers_of_workerStep (workerStep_cases ht)
        rw [hw, update_of_ne hji.symm]
        exact hi
      · apply pushEos_of_gone (workerStep_cases ht)
        rw [hret]
        rfl
    · obtain ⟨t, ht⟩ := System.enabled_iff.mp (emitter_enabled he)
      refine ⟨_, t, ht, ?_, measure_step hs ht⟩
      cases emitterStep_cases ht <;> exact ⟨hi, hj⟩
  refine ⟨t, .worker j 0, hs.exec hrun, ⟨hgoal, i, q, ?_⟩, ?_⟩
  · rw [hI.1]
    rfl
  · apply worker_enabled 0 hI.2
    intro hpop
    rw [hgoal] at hpop
    cases hpop

-- Every early leave leads to a state in which the parallel time is set and a photo is missing.
theorem exists_not_covered (hn : 0 < cfg.threads) {s : State cfg} {a : Action cfg.threads}
    (hs : (system cfg).Reachable s) (hearly : s.LeavesEarly a)
    (ha : (system cfg).Enabled s a) : ∃ t, (system cfg).Reachable t ∧ ¬t.Covered := by
  by_contra hno
  obtain ⟨before, hbefore⟩ := hs.exists_exec
  obtain ⟨t, ht⟩ := System.enabled_iff.mp ha
  obtain ⟨after, u, hafter, _, hr⟩ :=
    runs_to_end (I := fun _ => True) (fun _ _ _ _ _ _ => trivial) (hs.next ht) trivial
  have hrun := System.exec_trans hbefore (System.exec_step ht hafter)
  have hcovered :
      (system cfg).Throughout State.Covered (system cfg).init (before ++ a :: after) := by
    apply System.throughout_of_forall _ .init
    intro s hs
    by_contra h
    exact hno ⟨s, hs, h⟩
  exact ((throughout_covered_iff hn hrun hr).mp hcovered).at hbefore hearly

-- With one worker nobody is left behind.
theorem not_leavesEarly (hone : cfg.threads = 1) (s : State cfg) (a : Action cfg.threads) :
    ¬s.LeavesEarly a := by
  intro hearly
  cases a with
  | emitter => exact hearly
  | collector ms => exact hearly
  | worker i ms =>
      obtain ⟨hi, j, q, hj⟩ := hearly
      have hij : i = j := by
        apply Fin.ext
        have hi := i.isLt
        have hj := j.isLt
        omega
      rw [← hij, hi] at hj
      cases hj

/-- As long as no worker pushes its EOS while another holds a photo, `total_parallel` is set when
every photo has been collected; a complete run in which one does sets it too early.  So it covers
the parallel work in every run exactly when there is one worker or no photo. -/
theorem parallel_time_covers_iff (cfg : Config) (hn : 1 ≤ cfg.number_of_workers) :
    (∀ as, (system cfg).Along (fun s a => ¬s.LeavesEarly a) (system cfg).init as →
      (system cfg).Throughout State.Covered (system cfg).init as) ∧
    (∀ as t, (system cfg).exec (system cfg).init as = some t → t.AllReturned →
      ((system cfg).Throughout State.Covered (system cfg).init as ↔
        (system cfg).Along (fun s a => ¬s.LeavesEarly a) (system cfg).init as)) ∧
    ((∀ s, (system cfg).Reachable s → s.Covered) ↔
      cfg.number_of_workers = 1 ∨ cfg.copies = []) := by
  have hpos : 0 < cfg.threads := by
    unfold Config.threads
    omega
  refine ⟨fun as h => throughout_covered h, fun as t hrun hr => throughout_covered_iff hpos hrun hr,
    fun hall => ?_, fun hone s hs => ?_⟩
  · by_contra hno
    obtain ⟨hworkers, hcopies⟩ := not_or.mp hno
    have hthreads : 2 ≤ cfg.threads := by
      unfold Config.threads
      omega
    obtain ⟨s, a, hs, hearly, ha⟩ := exists_leavesEarly hthreads hcopies
    obtain ⟨t, ht, hbad⟩ := exists_not_covered hpos hs hearly ha
    exact hbad (hall t ht)
  · rcases hone with hone | hnone
    · have hthreads : cfg.threads = 1 := by
        unfold Config.threads
        omega
      obtain ⟨as, hrun⟩ := hs.exists_exec
      apply System.Throughout.last (throughout_covered _) hrun
      apply System.along_of_forall _ .init
      exact fun s a _ => not_leavesEarly hthreads s a
    · intro _ q hq
      unfold Config.photos at hq
      rw [hnone] at hq
      exact absurd hq List.not_mem_nil

/-- One photo and one worker. -/
def oneWorker : Config := { twoWorkers with number_of_workers := 1 }

theorem parallel_time_covers_iff_oneWorker :
    (∀ s, (system oneWorker).Reachable s → s.Covered) ∧
      ¬∀ s, (system twoWorkers).Reachable s → s.Covered := by
  have hone := (parallel_time_covers_iff oneWorker (by decide)).2.2
  have htwo := (parallel_time_covers_iff twoWorkers (by decide)).2.2
  exact ⟨hone.mpr (Or.inl rfl), fun h => absurd (htwo.mp h) (by decide)⟩

/-- The second worker gets its EOS and passes it on while the first has not begun to mark. -/
def earlyRun : List (Action twoWorkers.threads) :=
  List.flatten [List.replicate 3 .emitter, [.worker ⟨0, Nat.two_pos⟩ 0],
    List.replicate 2 (.worker ⟨1, Nat.one_lt_two⟩ 0), [.collector 17]]

def earlyEnd : State twoWorkers :=
  ((system twoWorkers).exec (system twoWorkers).init earlyRun).get (by decide +kernel)

theorem not_parallel_time_covers_early :
    (system twoWorkers).Reachable earlyEnd ∧ earlyEnd.collector.total_parallel = some 17 ∧
      earlyEnd.Photos_Done = [] ∧ ¬earlyEnd.Covered := by
  have hdone : earlyEnd.Photos_Done = [] := by decide +kernel
  refine ⟨System.reachable_get _, by decide +kernel, hdone, fun h => ?_⟩
  have hmem := h (by decide +kernel) ⟨"0.jpg", 0⟩ (by decide +kernel)
  rw [hdone] at hmem
  exact List.not_mem_nil hmem

end Watermark.Farm
