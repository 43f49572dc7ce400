import Watermark.Farm.Delivery
import Watermark.Reasoning.Runs

/-!
# Progress — farm.cpp cannot deadlock and always finishes

`State.measure` bounds the number of steps that are left.  A photo that is still queued is charged
for every access of the marking loop; everything else costs a few steps.
-/

namespace Watermark.Farm

open Function Reasoning

variable {cfg : Config}

/-! ## Some thread can always go on -/

-- When the emitter has returned a worker does not wait for ever: what it pops is in the queue.
theorem worker_can_step {s : State cfg} (hs : (system cfg).Reachable s) (he : s.EmitterReturned)
    {i : Fin cfg.threads} (hi : s.workers i ≠ .returned) :
    (system cfg).Enabled s (.worker i 0) := by
  refine worker_enabled 0 hi fun hpop => ?_
  have hidle : s.pipeline.hands i = .idle := by
    change (s.workers i).hand = .idle
    rw [hpop]
    rfl
  have hunsent : s.unsent = [] := by
    have hi : cfg.threads ≤ s.emitter.i := Nat.le_of_not_lt fun h => he.2 (lt_threads.mpr h)
    rw [State.unsent, he.1, Nat.sub_eq_zero_of_le hi]
    rfl
  have hrest := (pipelineInv hs).rest_ne_nil hidle
  simpa only [State.pipeline, hunsent, List.append_nil] using hrest

theorem progress {s : State cfg} (hs : (system cfg).Reachable s) (hr : ¬s.AllReturned) :
    ∃ a, (system cfg).Enabled s a := by
  by_cases he : s.EmitterReturned
  · by_cases hw : ∀ i, s.workers i = .returned
    · -- only the collector is left, and its mark is on the way
      have hc : ¬s.CollectorReturned := fun hc => hr ⟨he, hw, hc⟩
      have hgone : ∀ i, s.pipeline.hands i = .gone := by
        intro i
        change (s.workers i).hand = .gone
        rw [hw i]
        rfl
      have hlt : s.pipeline.count < Fintype.card (Fin cfg.threads) := by
        rw [Fintype.card_fin]
        exact lt_threads.mp (not_not.mp hc)
      exact ⟨.collector 0, collector_enabled 0 hc ((pipelineInv hs).output_ne_nil hgone hlt)⟩
    · obtain ⟨i, hi⟩ := not_forall.mp hw
      exact ⟨.worker i 0, worker_can_step hs he hi⟩
  · exact ⟨.emitter, emitter_enabled he⟩

/-! ## The measure -/

/-- Steps a worker has left with what it holds, its push included. -/
def Worker.measure (accesses : ℕ → ℕ) : Worker → ℕ
  | .pop => 0
  | .count q => accesses q.P_pointer + 6
  | .mark _ t => t.fuel + 5
  | .test => 3
  | .stamp => 2
  | .bump => 1
  | .pushEos => 2
  | .returned => 0

/-- Steps that an element of `original_photos` will take. -/
def tokenMeasure (accesses : ℕ → ℕ) : Option Image → ℕ
  | some q => accesses q.P_pointer + 7
  | none => 3

/-- An upper bound on the accesses of a marking loop. -/
def Config.accesses (cfg : Config) (k : ℕ) : ℕ := 9 * (forXY (loadHeap cfg.copies k)).length

namespace State

def queueMeasure (s : State cfg) : ℕ :=
  (s.pipeline.rest.map (tokenMeasure cfg.accesses)).sum

def measure (s : State cfg) : ℕ :=
  s.unsent.length + s.queueMeasure + ∑ i, (s.workers i).measure cfg.accesses +
    s.marked_photos.contents.length

end State

theorem measure_emitterStep {s t : State cfg} (h : EmitterStep s t) : t.measure < s.measure := by
  have hpipe := pipeline_emitterStep h
  have hqueue : t.queueMeasure = s.queueMeasure := by unfold State.queueMeasure; rw [hpipe]
  have hsame : t.workers = s.workers ∧ t.marked_photos = s.marked_photos := by
    cases h <;> exact ⟨rfl, rfl⟩
  have hunsent : t.unsent.length < s.unsent.length := by
    cases h with
    | photo hp => simp [State.unsent, hp]
    | eos hp hi =>
        simp only [State.unsent, hp, List.map_nil, List.nil_append, List.length_replicate]
        omega
  unfold State.measure
  rw [hqueue, hsame.1, hsame.2]
  omega

theorem measure_collectorStep {s t : State cfg} {ms : ℤ} (h : CollectorStep s ms t) :
    t.measure < s.measure := by
  have hlen : t.marked_photos.contents.length < s.marked_photos.contents.length := by
    cases h with
    | photo hc hq => rw [hq, List.length_cons]; exact Nat.lt_succ_self _
    | eos hc hq => rw [hq, List.length_cons]; exact Nat.lt_succ_self _
  have hsame : t.unsent = s.unsent ∧ t.queueMeasure = s.queueMeasure ∧
      t.workers = s.workers := by
    cases h <;> exact ⟨rfl, rfl, rfl⟩
  unfold State.measure
  rw [hsame.1, hsame.2.1, hsame.2.2]
  omega

-- A step of worker `i` pays if what it adds to the two queues costs less than what the worker
-- itself gets cheaper.
theorem measure_setWorker {s s' : State cfg} {i : Fin cfg.threads} {w : Worker}
    (hworkers : s'.workers = s.workers)
    (h : s'.unsent.length + s'.queueMeasure + s'.marked_photos.contents.length +
        w.measure cfg.accesses <
      s.unsent.length + s.queueMeasure + s.marked_photos.contents.length +
        (s.workers i).measure cfg.accesses) : (s'.setWorker i w).measure < s.measure := by
  have hsum := sum_update (Worker.measure cfg.accesses) s.workers i w
  change s'.unsent.length + s'.queueMeasure +
    ∑ j, (update s'.workers i w j).measure cfg.accesses + s'.marked_photos.contents.length < _
  rw [hworkers]
  unfold State.measure
  omega

-- What the head of the queue is charged, and the rest.
theorem queueMeasure_cons {s : State cfg} {q : Option Image} {rest : List (Option Image)}
    (h : s.original_photos.contents = q :: rest) : s.queueMeasure =
      tokenMeasure cfg.accesses q +
        ((rest ++ s.unsent).map (tokenMeasure cfg.accesses)).sum := by
  simp only [State.queueMeasure, State.pipeline, h, List.cons_append, List.map_cons, List.sum_cons]

theorem measure_workerStep {s t : State cfg} {i : Fin cfg.threads} {ms : ℤ}
    (hs : (system cfg).Reachable s) (h : WorkerStep s i ms t) : t.measure < s.measure := by
  cases h with
  | @popPhoto q original_photos hw hq =>
      refine measure_setWorker (by rfl) ?_
      rw [queueMeasure_cons hq, hw]
      simp only [State.queueMeasure, State.pipeline, State.unsent, Worker.measure, tokenMeasure]
      omega
  | @popEos original_photos hw hq =>
      refine measure_setWorker (by rfl) ?_
      rw [queueMeasure_cons hq, hw]
      simp only [State.queueMeasure, State.pipeline, State.unsent, Worker.measure, tokenMeasure]
      omega
  | @count q hw =>
      refine measure_setWorker (by rfl) ?_
      -- the loop is as long as the photo was large when it was loaded
      have hdims := (bufferInv hs).dims q.P_pointer
      rw [hw]
      simp only [Worker.measure, Marking.fuel_start, forXY_congr hdims.1 hdims.2.1,
        Config.accesses, State.queueMeasure, State.pipeline, State.unsent]
      omega
  | @mark q m m' memory hw hm =>
      refine measure_setWorker (by rfl) ?_
      have hfuel := Marking.fuel_step hm
      rw [hw]
      simp only [Worker.measure, State.queueMeasure, State.pipeline, State.unsent]
      omega
  | @push q m hw hm =>
      refine measure_setWorker (by rfl) ?_
      rw [hw]
      simp only [Worker.measure, State.queueMeasure, State.pipeline, State.unsent,
        Queue.contents_push, List.length_append, List.length_singleton]
      omega
  | testStamp hw hc =>
      refine measure_setWorker (by rfl) ?_
      rw [hw]
      simp only [Worker.measure]
      omega
  | testPop hw hc =>
      refine measure_setWorker (by rfl) ?_
      rw [hw]
      simp only [Worker.measure]
      omega
  | stamp hw =>
      refine measure_setWorker (by rfl) ?_
      rw [hw]
      simp only [Worker.measure, State.queueMeasure, State.pipeline, State.unsent]
      omega
  | bump hw =>
      refine measure_setWorker (by rfl) ?_
      rw [hw]
      simp only [Worker.measure, State.queueMeasure, State.pipeline, State.unsent]
      omega
  | pushEos hw =>
      refine measure_setWorker (by rfl) ?_
      rw [hw]
      simp only [Worker.measure, State.queueMeasure, State.pipeline, State.unsent,
        Queue.contents_push, List.length_append, List.length_singleton]
      omega

theorem measure_step {s t : State cfg} {a : Action cfg.threads} (hs : (system cfg).Reachable s)
    (h : (system cfg).step s a = some t) : t.measure < s.measure := by
  cases a with
  | emitter => exact measure_emitterStep (emitterStep_cases h)
  | worker i ms => exact measure_workerStep hs (workerStep_cases h)
  | collector ms => exact measure_collectorStep (collectorStep_cases h)

/-! ## All runs end, and end well -/

theorem emitterStep_eq_none {s : State cfg} (h : s.EmitterReturned) : s.emitterStep = none := by
  unfold State.emitterStep
  rw [h.1]
  exact if_neg h.2

theorem stuck_of_returned {s : State cfg} (h : s.AllReturned) : (system cfg).Stuck s := by
  obtain ⟨hemitter, hworkers, hcollector⟩ := h
  intro a
  cases a with
  | emitter => exact emitterStep_eq_none hemitter
  | worker i ms =>
      show s.workerStep i ms = none
      unfold State.workerStep
      rw [hworkers i]
  | collector ms =>
      show s.collectorStep ms = none
      unfold State.collectorStep
      exact if_neg hcollector

theorem returned_of_stuck {s : State cfg} (hs : (system cfg).Reachable s)
    (hstuck : (system cfg).Stuck s) : s.AllReturned := by
  by_contra hr
  obtain ⟨a, ha⟩ := progress hs hr
  exact hstuck.not_enabled a ha

-- Each worker has consumed one mark, and the collector one for each worker.
theorem marks_returned {s : State cfg} (hs : (system cfg).Reachable s) (hr : s.AllReturned) :
    (∀ i, marks (s.taken i) = 1) ∧ s.collector.count = cfg.threads := by
  have hinv := pipelineInv hs
  constructor
  · intro i
    have hgone := hinv.all_gone (pipeline_returned hr) i
    have htaken := hinv.taken_marks i
    rw [hgone] at htaken
    exact htaken
  · have hcount := hinv.count_le.antisymm (pipeline_returned hr)
    rw [Fintype.card_fin] at hcount
    exact hcount

-- From every reachable state the end can be reached, and what all steps keep is kept on the way.
theorem runs_to_end {I : State cfg → Prop}
    (hI : ∀ s a t, (system cfg).Reachable s → I s → (system cfg).step s a = some t → I t)
    {s : State cfg} (hs : (system cfg).Reachable s) (h0 : I s) :
    ∃ as t, (system cfg).exec s as = some t ∧ I t ∧ t.AllReturned := by
  apply hs.exists_run (μ := State.measure) _ h0
  intro s hs hi hr
  obtain ⟨a, ha⟩ := progress hs hr
  obtain ⟨t, ht⟩ := System.enabled_iff.mp ha
  exact ⟨a, t, ht, hI s a t hs hi ht, measure_step hs ht⟩

theorem reaches_end {s : State cfg} (hs : (system cfg).Reachable s) :
    ∃ t, (system cfg).Reachable t ∧ t.AllReturned := by
  obtain ⟨as, t, hrun, _, hr⟩ :=
    runs_to_end (I := fun _ => True) (fun _ _ _ _ _ _ => trivial) hs trivial
  exact ⟨t, hs.exec hrun, hr⟩

-- The emitter pushes a photo, and worker `i` is the one that pops it.
theorem emit_and_pop {s : State cfg} (hs : (system cfg).Reachable s) {q : Image} {rest : List Image}
    (hq : s.emitter.photos = q :: rest) (hempty : s.original_photos = ⟨[]⟩) {i : Fin cfg.threads}
    (hi : s.workers i = .pop) :
    ∃ t, (system cfg).Reachable t ∧ t.workers = update s.workers i (.count q) ∧
      t.emitter.photos = rest ∧ t.original_photos = ⟨[]⟩ ∧
      t.counter_worker = s.counter_worker := by
  let sent : State cfg := { s with
    counter_emitter := if s.counter_emitter = 0 then 1 else s.counter_emitter
    original_photos := s.original_photos.push (some q)
    emitter := { s.emitter with photos := rest } }
  have hsent : (system cfg).step s .emitter = some sent := by
    show s.emitterStep = some sent
    unfold State.emitterStep
    rw [hq]
  have hpop : sent.original_photos.pop = some (some q, ⟨[]⟩) := by
    show (s.original_photos.push (some q)).pop = _
    rw [hempty]
    rfl
  let taken : State cfg := { sent with
    original_photos := ⟨[]⟩
    taken := update s.taken i (s.taken i ++ [some q]) }
  have htaken : (system cfg).step sent (.worker i 0) = some (taken.setWorker i (.count q)) := by
    show sent.workerStep i 0 = _
    unfold State.workerStep
    rw [show sent.workers i = .pop from hi]
    simp only [hpop]
    rfl
  exact ⟨taken.setWorker i (.count q), (hs.next hsent).next htaken, rfl, rfl, rfl, rfl⟩

theorem pop_first {q : Image} {rest : List Image} (hphotos : cfg.photos = q :: rest)
    (i : Fin cfg.threads) :
    ∃ s, (system cfg).Reachable s ∧ s.workers = update (fun _ => .pop) i (.count q) ∧
      s.emitter.photos = rest ∧ s.original_photos = ⟨[]⟩ ∧ s.counter_worker = 0 :=
  emit_and_pop .init hphotos rfl rfl

/-- No interleaving gets stuck before all threads have returned, every step decreases the
measure, and so every run ends with each worker having consumed its own mark. -/
theorem always_finishes (cfg : Config) (hn : 1 ≤ cfg.number_of_workers) :
    (∀ s, (system cfg).Reachable s → ¬s.AllReturned → ∃ a, (system cfg).Enabled s a) ∧
    (∀ s a t, (system cfg).Reachable s → (system cfg).step s a = some t →
      t.measure < s.measure) ∧
    (∀ _r : (system cfg).InfiniteRun, False) ∧
    (∀ s, (system cfg).Reachable s → (system cfg).Stuck s →
      s.AllReturned ∧ (∀ i, marks (s.taken i) = 1) ∧
        (s.collector.count : ℤ) = cfg.number_of_workers) := by
  refine ⟨fun s hs hr => progress hs hr, fun s a t hs ha => measure_step hs ha,
    fun r => r.absurd fun s a t hs ha => measure_step hs ha, fun s hs hstuck => ?_⟩
  have hr := returned_of_stuck hs hstuck
  obtain ⟨htaken, hcount⟩ := marks_returned hs hr
  refine ⟨hr, htaken, ?_⟩
  rw [hcount]
  exact Int.toNat_of_nonneg (by omega)

/-- The first worker has the photo and has not finished with its pixel. -/
def halfway : State twoWorkers :=
  ((system twoWorkers).exec (system twoWorkers).init (twoWorkersRun.take 9)).get (by decide +kernel)

theorem always_finishes_twoWorkers :
    (∃ a t, (system twoWorkers).step halfway a = some t ∧ t.measure < halfway.measure) ∧
      (∀ _r : (system twoWorkers).InfiniteRun, False) ∧ ∀ i, marks (twoWorkersEnd.taken i) = 1 := by
  obtain ⟨hgoes_on, hmeasure, hrun, hend⟩ := always_finishes twoWorkers (by decide)
  have hhalfway : (system twoWorkers).Reachable halfway := System.reachable_get _
  obtain ⟨a, ha⟩ := hgoes_on halfway hhalfway (by decide +kernel)
  obtain ⟨t, ht⟩ := System.enabled_iff.mp ha
  exact ⟨⟨a, t, ht, hmeasure halfway a t hhalfway ht⟩, hrun,
    (hend twoWorkersEnd twoWorkersEnd_reachable (stuck_of_returned (by decide +kernel))).2.1⟩

end Watermark.Farm
