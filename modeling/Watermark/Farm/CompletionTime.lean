import Watermark.Farm.Clocked
import Watermark.Farm.ParallelTime

/-!
# CompletionTime — how the times farm.cpp prints hang together

The emitter spends more than `inserted_delay` milliseconds before each push, whatever the workers
do meanwhile, and the collector stops both of its clocks after the last push.
-/

namespace Watermark.Farm

open Function Reasoning

variable {cfg : Config}

/-! ## What the emitter has pushed -/

theorem emitter_progress {s : State cfg} (hs : (system cfg).Reachable s) :
    (s.counter_emitter = 0 → s.emitter.photos = cfg.photos) ∧
      (s.counter_emitter ≠ 0 → s.emitter.photos.length < cfg.photos.length) := by
  let I : State cfg → Prop := fun s => (s.counter_emitter = 0 → s.emitter.photos = cfg.photos) ∧
    (s.counter_emitter ≠ 0 → s.emitter.photos.length < cfg.photos.length)
  apply hs.invariant (P := I)
  · exact ⟨fun _ => rfl, fun hne => absurd rfl hne⟩
  · intro s a t _ ih ha
    cases a with
    | emitter =>
        cases emitterStep_cases ha with
        | @photo point rest hp =>
            refine ⟨fun hzero => ?_, fun _ => ?_⟩
            · show rest = cfg.photos
              have hzero : (if s.counter_emitter = 0 then 1 else s.counter_emitter) = 0 := hzero
              split at hzero
              · omega
              · contradiction
            · show rest.length < cfg.photos.length
              by_cases hc : s.counter_emitter = 0
              · rw [← ih.1 hc, hp, List.length_cons]
                omega
              · have hlt := ih.2 hc
                rw [hp, List.length_cons] at hlt
                omega
        | eos hp hi => exact ih
    | worker i ms =>
        obtain ⟨hemitter, hcounter⟩ := emitter_of_workerStep (workerStep_cases ha)
        show (_ → _) ∧ (_ → _)
        rwa [hemitter, hcounter]
    | collector ms =>
        obtain ⟨hemitter, hcounter⟩ := emitter_of_collectorStep (collectorStep_cases ha)
        show (_ → _) ∧ (_ → _)
        rwa [hemitter, hcounter]

-- A photo in the hands of a worker is not with the emitter any more.
theorem counter_emitter_of_holds {s : State cfg} (hs : (system cfg).Reachable s)
    {i : Fin cfg.threads} {q : Image} (hi : (s.workers i).hand = .holds q) :
    s.counter_emitter ≠ 0 := by
  intro hzero
  have hq : q ∈ cfg.photos := (pipelineInv hs).mem_of_holds hi
  have hone := occurrences_eq_one hs hq
  have hheld : 1 ≤ ∑ i, (s.workers i).hand.held.count q := Pipeline.one_le_held (p := s.pipeline) hi
  have hcount := List.count_eq_one_of_mem (nodup_photos cfg) hq
  unfold State.occurrences at hone
  rw [(emitter_progress hs).1 hzero] at hone
  omega

-- The collector gets its first EOS after the last photo has been pushed.
theorem photos_of_count {s : State cfg} (hs : (system cfg).Reachable s)
    (h : 0 < s.collector.count) : s.emitter.photos = [] := by
  have hinv := pipelineInv hs
  have hgone : ∃ i, s.pipeline.hands i = .gone := by
    by_contra hno
    have hzero : s.collector.count = 0 := (hinv.no_marks fun i hi => hno ⟨i, hi⟩).2
    omega
  obtain ⟨i, hi⟩ := hgone
  have hrest := hinv.items_rest (i := i) (by rw [hi]; rfl)
  simp only [State.pipeline, State.unsent, items_append, items_map_some, items_replicate,
    List.append_nil, List.append_eq_nil_iff] at hrest
  exact hrest.2

theorem total_parallel_of_count {s : State cfg} (hs : (system cfg).Reachable s)
    (h : 0 < s.collector.count) : s.collector.total_parallel.isSome = true := by
  let I : State cfg → Prop := fun s =>
    0 < s.collector.first_end_of_stream → s.collector.total_parallel.isSome = true
  have hI : I s := by
    apply hs.invariant (P := I)
    · exact fun h => absurd h (Nat.lt_irrefl 0)
    · intro s a t _ ih ha
      cases a with
      | emitter => cases emitterStep_cases ha <;> exact ih
      | worker i ms => cases workerStep_cases ha <;> exact ih
      | collector ms =>
          cases collectorStep_cases ha with
          | photo hc hq => exact ih
          | eos hc hq =>
              intro _
              show (if s.collector.first_end_of_stream + 1 = 1 then some ms
                else s.collector.total_parallel).isSome = true
              split
              · rfl
              · exact ih (by omega)
  exact hI ((first_end_of_stream_eq hs).symm ▸ h)

/-! ## The emitter -/

/-- Between the start of `start` and the test of `counter_worker`. -/
def Worker.timing : Worker → Bool
  | .mark _ _ => true
  | .test => true
  | .stamp => true
  | _ => false

namespace Clocked

/-- The photos that have been pushed. -/
def sent (s : Clocked cfg) : ℤ := cfg.photos.length - s.farm.emitter.photos.length

/-- The time before which the photos that have been pushed cannot have been. -/
def due (inserted_delay : ℤ) (s : Clocked cfg) : ℤ :=
  s.tparallel_start + s.sent * (inserted_delay + 1) * 1000000

/-- The emitter is not ahead of its delays. -/
structure Paced (inserted_delay now : ℤ) (s : Clocked cfg) : Prop where
  completion_le : s.tCompletionStart ≤ now
  parallel_le : s.tparallel_start ≤ now
  ordered : s.emitting ≠ .parallelStart → s.tCompletionStart ≤ s.tparallel_start
  first : s.emitting = .parallelStart → s.farm.counter_emitter = 0
  loop : s.emitting = .loop → s.due inserted_delay ≤ now
  delay : ∀ d, s.emitting = .delay d → d.CalledFrom (s.due inserted_delay) inserted_delay now

variable {s t : Clocked cfg} {inserted_delay now later : ℤ}

theorem Paced.wait (h : s.Paced inserted_delay now) (hle : now ≤ later) :
    s.Paced inserted_delay later where
  completion_le := h.completion_le.trans hle
  parallel_le := h.parallel_le.trans hle
  ordered := h.ordered
  first := h.first
  loop he := (h.loop he).trans hle
  delay d he := (h.delay d he).wait hle

theorem Paced.due_le (h : s.Paced inserted_delay now) (hne : s.emitting ≠ .parallelStart) :
    s.due inserted_delay ≤ now := by
  cases he : s.emitting with
  | loop => exact h.loop he
  | parallelStart => exact absurd he hne
  | delay d => exact (h.delay d he).le

-- The emitter pushes the next photo one delay later.
theorem due_push {point : Image} {rest : List Image} {farm : State cfg}
    (hp : s.farm.emitter.photos = point :: rest) (hrest : farm.emitter.photos = rest) :
    ({ s with farm, emitting := .loop } : Clocked cfg).due inserted_delay =
      s.due inserted_delay + (inserted_delay + 1) * 1000000 := by
  have hlen : ((point :: rest).length : ℤ) = rest.length + 1 := by
    rw [List.length_cons]
    omega
  unfold due sent
  rw [hp, hlen]
  show s.tparallel_start + (cfg.photos.length - farm.emitter.photos.length : ℤ) * _ * _ = _
  rw [hrest]
  ring

theorem paced_emittingStep (hs : (system cfg).Reachable s.farm) (hphoto : s.HasPhoto)
    (h : s.Paced inserted_delay now) (he : EmittingStep inserted_delay now s t) :
    t.Paced inserted_delay now := by
  cases he with
  | first he hp hc =>
      exact ⟨le_refl now, h.parallel_le, fun hne => absurd rfl hne, fun _ => hc,
        fun he => (by cases he), fun _ he => (by cases he)⟩
  | second he =>
      have hsent : s.sent = 0 := by
        unfold sent
        rw [(emitter_progress hs).1 (h.first he)]
        omega
      refine ⟨h.completion_le, le_refl now, fun _ => h.completion_le, fun he => (by cases he),
        fun he => (by cases he), fun d he => ?_⟩
      cases he
      show now + s.sent * (inserted_delay + 1) * 1000000 ≤ now
      rw [hsent]
      omega
  | call he hp hc =>
      have hordered := h.ordered (by rw [he]; exact Emitting.noConfusion)
      refine ⟨h.completion_le, h.parallel_le, fun _ => hordered,
        fun he => (by cases he), fun he => (by cases he), fun d hd => ?_⟩
      cases hd
      exact h.loop he
  | read he hd =>
      have hordered := h.ordered (by rw [he]; exact Emitting.noConfusion)
      refine ⟨h.completion_le, h.parallel_le, fun _ => hordered,
        fun he => (by cases he), fun he => (by cases he), fun d' hd' => ?_⟩
      cases hd'
      exact (h.delay _ he).read hd
  | @push farm he hf =>
      have hordered := h.ordered (by rw [he]; exact Emitting.noConfusion)
      refine ⟨h.completion_le, h.parallel_le, fun _ => hordered,
        fun he => (by cases he), fun _ => ?_, fun _ he => (by cases he)⟩
      cases emitterStep_cases hf with
      | photo hp =>
          rw [due_push hp rfl]
          exact (h.delay _ he).2
      | eos hp hi => exact absurd hp (hphoto (by rw [he]; exact Emitting.noConfusion))
  | @eos farm he hp hf =>
      have hordered := h.ordered (by rw [he]; exact Emitting.noConfusion)
      refine ⟨h.completion_le, h.parallel_le, fun _ => hordered,
        fun he => (by cases he), fun _ => ?_, fun _ he => (by cases he)⟩
      cases emitterStep_cases hf with
      | photo hp' => rw [hp] at hp'; cases hp'
      | eos hp hi => exact h.loop he

-- The other threads leave the emitter alone.
theorem paced_of_farm {farm : State cfg} {starting : Finset (Fin cfg.threads)}
    (h : s.Paced inserted_delay now)
    (hsame : farm.emitter = s.farm.emitter ∧ farm.counter_emitter = s.farm.counter_emitter) :
    ({ s with farm, starting } : Clocked cfg).Paced inserted_delay now := by
  have hdue : ({ s with farm, starting } : Clocked cfg).due inserted_delay =
      s.due inserted_delay := by
    show s.tparallel_start + (cfg.photos.length - farm.emitter.photos.length : ℤ) * _ * _ = _
    rw [hsame.1]
    rfl
  refine ⟨h.completion_le, h.parallel_le, h.ordered, fun he => ?_, fun he => ?_, fun d he => ?_⟩
  · exact hsame.2.trans (h.first he)
  · rw [hdue]
    exact h.loop he
  · rw [hdue]
    exact h.delay d he

theorem paced_step {a : Thread cfg.threads} (hs : (system cfg).Reachable s.farm)
    (hphoto : s.HasPhoto) (h : s.Paced inserted_delay now)
    (ha : s.step inserted_delay now a = some t) : t.Paced inserted_delay now := by
  cases a with
  | emitter => exact paced_emittingStep hs hphoto h (emittingStep_cases ha)
  | worker i =>
      cases workingStep_cases ha with
      | start hi => exact ⟨h.completion_le, h.parallel_le, h.ordered, h.first, h.loop, h.delay⟩
      | work hi hf => exact paced_of_farm h (emitter_of_workerStep (workerStep_cases hf))
  | collector =>
      cases collectingStep_cases ha with
      | collect hf => exact paced_of_farm h (emitter_of_collectorStep (collectorStep_cases hf))
      | complete hc hnone =>
          exact ⟨h.completion_le, h.parallel_le, h.ordered, h.first, h.loop, h.delay⟩

/-! ## The workers and the collector -/

theorem timing_of_workerStep {s t : State cfg} {i : Fin cfg.threads} {ms : ℤ}
    (h : WorkerStep s i ms t) {j : Fin cfg.threads} (hj : (t.workers j).timing = true) :
    (j = i ∧ (s.workers i).counting = true) ∨
      ((s.workers j).timing = true ∧ (j = i → (s.workers i).counting = false)) := by
  by_cases hji : j = i
  · subst hji
    cases h <;> simp_all [State.setWorker, Worker.timing, Worker.counting]
  · obtain ⟨w, hw⟩ := workers_of_workerStep h
    rw [hw, update_of_ne hji] at hj
    exact Or.inr ⟨hj, fun h => absurd h hji⟩

theorem stored_of_workerStep {s t : State cfg} {i : Fin cfg.threads} {ms : ℤ}
    (h : WorkerStep s i ms t) :
    (t.stamps = s.stamps ∧ t.ideal_service_time_worker = s.ideal_service_time_worker) ∨
      ((s.workers i).timing = true ∧ t.ideal_service_time_worker = ms) := by
  cases h with
  | stamp hw => exact Or.inr ⟨by rw [hw]; rfl, rfl⟩
  | _ => exact Or.inl ⟨rfl, rfl⟩

theorem collector_of_workerStep {s t : State cfg} {i : Fin cfg.threads} {ms : ℤ}
    (h : WorkerStep s i ms t) : t.collector = s.collector := by
  cases h <;> rfl

/-- What has been measured fits into the time that has passed, the first delay apart. -/
structure Measured (inserted_delay now : ℤ) (s : Clocked cfg) : Prop where
  marking : ∀ i, (s.farm.workers i).timing = true → s.farm.counter_emitter ≠ 0 ∧
    (i ∉ s.starting →
      s.tCompletionStart + (inserted_delay + 1) * 1000000 ≤ s.start i ∧ s.start i ≤ now)
  ideal : s.farm.stamps ≠ 0 → s.farm.counter_emitter ≠ 0 ∧ 0 ≤ s.farm.ideal_service_time_worker ∧
    s.farm.ideal_service_time_worker + (inserted_delay + 1) ≤
      milliseconds (now - s.tCompletionStart)
  parallel : ∀ tp, s.farm.collector.total_parallel = some tp → s.farm.emitter.photos = [] ∧
    0 ≤ tp ∧ cfg.photos.length * (inserted_delay + 1) ≤ tp ∧
      tp ≤ milliseconds (now - s.tparallel_start)
  completion : ∀ c, s.completion_time = some c → cfg.threads ≤ s.farm.collector.count ∧
    (∀ tp, s.farm.collector.total_parallel = some tp → tp ≤ c) ∧
    (s.farm.stamps ≠ 0 → s.farm.ideal_service_time_worker + (inserted_delay + 1) ≤ c)

theorem Measured.wait (h : s.Measured inserted_delay now) (hp : s.Paced inserted_delay now)
    (hle : now ≤ later) : s.Measured inserted_delay later where
  marking i hi := by
    obtain ⟨hc, hstart⟩ := h.marking i hi
    exact ⟨hc, fun hnot => ⟨(hstart hnot).1, (hstart hnot).2.trans hle⟩⟩
  ideal hs := by
    obtain ⟨hc, hzero, hms⟩ := h.ideal hs
    have hmono := milliseconds_mono (Int.sub_nonneg_of_le hp.completion_le)
      (Int.sub_le_sub_right hle s.tCompletionStart)
    exact ⟨hc, hzero, hms.trans hmono⟩
  parallel tp htp := by
    obtain ⟨hphotos, hzero, hlen, hms⟩ := h.parallel tp htp
    have hmono := milliseconds_mono (Int.sub_nonneg_of_le hp.parallel_le)
      (Int.sub_le_sub_right hle s.tparallel_start)
    exact ⟨hphotos, hzero, hlen, hms.trans hmono⟩
  completion := h.completion

theorem measured_emittingStep (hphoto : s.HasPhoto) (h : s.Measured inserted_delay now)
    (he : EmittingStep inserted_delay now s t) : t.Measured inserted_delay now := by
  have hfarm : ∀ farm, s.farm.emitterStep = some farm →
      (s.farm.counter_emitter ≠ 0 → farm.counter_emitter ≠ 0) ∧
      (s.farm.emitter.photos = [] → farm.emitter.photos = []) ∧ farm.workers = s.farm.workers ∧
      farm.stamps = s.farm.stamps ∧
      farm.ideal_service_time_worker = s.farm.ideal_service_time_worker ∧
      farm.collector = s.farm.collector := by
    intro farm hf
    cases emitterStep_cases hf with
    | photo hp =>
        refine ⟨fun hne => ?_, fun hnil => ?_, rfl, rfl, rfl, rfl⟩
        · show (if s.farm.counter_emitter = 0 then 1 else s.farm.counter_emitter) ≠ 0
          rwa [if_neg hne]
        · rw [hp] at hnil
          cases hnil
    | eos hp hi => exact ⟨id, fun _ => hp, rfl, rfl, rfl, rfl⟩
  have hpush : ∀ farm, s.farm.emitterStep = some farm →
      ({ s with farm, emitting := .loop } : Clocked cfg).Measured inserted_delay now := by
    intro farm hf
    obtain ⟨hcounter, hphotos, hworkers, hstamps, hideal, hcollector⟩ := hfarm farm hf
    refine ⟨fun i hi => ?_, fun hs => ?_, fun tp htp => ?_, fun c hc => ?_⟩
    · have hi : (farm.workers i).timing = true := hi
      rw [hworkers] at hi
      obtain ⟨hne, hstart⟩ := h.marking i hi
      exact ⟨hcounter hne, hstart⟩
    · have hs : farm.stamps ≠ 0 := hs
      rw [hstamps] at hs
      obtain ⟨hne, hms⟩ := h.ideal hs
      refine ⟨hcounter hne, ?_⟩
      show 0 ≤ farm.ideal_service_time_worker ∧ farm.ideal_service_time_worker + _ ≤ _
      rw [hideal]
      exact hms
    · have htp : farm.collector.total_parallel = some tp := htp
      rw [hcollector] at htp
      obtain ⟨hnil, hms⟩ := h.parallel tp htp
      exact ⟨hphotos hnil, hms⟩
    · show cfg.threads ≤ farm.collector.count ∧
        (∀ tp, farm.collector.total_parallel = some tp → tp ≤ c) ∧
        (farm.stamps ≠ 0 → farm.ideal_service_time_worker + _ ≤ c)
      rw [hcollector, hstamps, hideal]
      exact h.completion c hc
  cases he with
  | push he hf => exact hpush _ hf
  | eos he hp hf => exact hpush _ hf
  | call he hp hc => exact ⟨h.marking, h.ideal, h.parallel, h.completion⟩
  | read he hd => exact ⟨h.marking, h.ideal, h.parallel, h.completion⟩
  -- nobody has got a photo yet
  | first he hp hc =>
      exact ⟨fun i hi => absurd hc (h.marking i hi).1, fun hs => absurd hc (h.ideal hs).1,
        h.parallel, h.completion⟩
  | second he =>
      have hne : s.farm.emitter.photos ≠ [] := hphoto (by rw [he]; exact Emitting.noConfusion)
      exact ⟨h.marking, h.ideal, fun tp htp => absurd (h.parallel tp htp).1 hne, h.completion⟩

-- A worker that takes its reading does so after the first delay.
theorem Paced.first_delay_le (hs : (system cfg).Reachable s.farm) (h : s.Paced inserted_delay now)
    (hc : s.farm.counter_emitter ≠ 0) :
    s.tCompletionStart + (inserted_delay + 1) * 1000000 ≤ now := by
  have hne : s.emitting ≠ .parallelStart := fun he => hc (h.first he)
  have hdue := h.due_le hne
  have hsent : 1 ≤ s.sent := by
    have hlt := (emitter_progress hs).2 hc
    unfold sent
    omega
  have hordered := h.ordered hne
  have hfirst := add_delay_le hsent h.parallel_le hdue
  omega

theorem measured_start {i : Fin cfg.threads} (hs : (system cfg).Reachable s.farm)
    (hstarting : s.Starting) (hp : s.Paced inserted_delay now) (h : s.Measured inserted_delay now)
    (hi : i ∈ s.starting) :
    ({ s with start := update s.start i now, starting := s.starting.erase i } :
      Clocked cfg).Measured inserted_delay now := by
  refine ⟨fun j hj => ⟨(h.marking j hj).1, fun hnot => ?_⟩, h.ideal, h.parallel, h.completion⟩
  show s.tCompletionStart + (inserted_delay + 1) * 1000000 ≤ update s.start i now j ∧
    update s.start i now j ≤ now
  by_cases hji : j = i
  · obtain ⟨q, t, hmark⟩ := hstarting i hi
    have hholds : (s.farm.workers i).hand = .holds q := by
      rw [hmark]
      rfl
    have hne := counter_emitter_of_holds hs hholds
    rw [hji, update_self]
    exact ⟨hp.first_delay_le hs hne, le_refl now⟩
  · rw [update_of_ne hji]
    exact (h.marking j hj).2 fun hmem => hnot (Finset.mem_erase.mpr ⟨hji, hmem⟩)

theorem measured_work {i : Fin cfg.threads} {farm : State cfg}
    {starting : Finset (Fin cfg.threads)} (hs : (system cfg).Reachable s.farm)
    (hp : s.Paced inserted_delay now) (h : s.Measured inserted_delay now) (hi : i ∉ s.starting)
    (hw : WorkerStep s.farm i (milliseconds (now - s.start i)) farm)
    (hstarting : starting =
      if (s.farm.workers i).counting then insert i s.starting else s.starting) :
    ({ s with farm, starting } : Clocked cfg).Measured inserted_delay now := by
  obtain ⟨hemitter, hcounter⟩ := emitter_of_workerStep hw
  have hcollector := collector_of_workerStep hw
  refine ⟨fun j hj => ?_, fun hstamps => ?_, fun tp htp => ?_, fun c hc => ?_⟩
  · show farm.counter_emitter ≠ 0 ∧ (j ∉ starting →
      s.tCompletionStart + (inserted_delay + 1) * 1000000 ≤ s.start j ∧ s.start j ≤ now)
    rw [hcounter]
    rcases timing_of_workerStep hw hj with ⟨rfl, hcounting⟩ | ⟨hj, hcounting⟩
    · refine ⟨?_, fun hnot => ?_⟩
      · cases hq : s.farm.workers j with
        | count q => exact counter_emitter_of_holds hs (by rw [hq]; rfl)
        | _ => rw [hq] at hcounting; cases hcounting
      · rw [hstarting, if_pos hcounting] at hnot
        exact absurd (Finset.mem_insert_self j s.starting) hnot
    · obtain ⟨hne, hstart⟩ := h.marking j hj
      refine ⟨hne, fun hnot => hstart fun hmem => hnot ?_⟩
      rw [hstarting]
      split
      · exact Finset.mem_insert_of_mem hmem
      · exact hmem
  · show farm.counter_emitter ≠ 0 ∧ 0 ≤ farm.ideal_service_time_worker ∧
      farm.ideal_service_time_worker + (inserted_delay + 1) ≤
        milliseconds (now - s.tCompletionStart)
    rw [hcounter]
    rcases stored_of_workerStep hw with ⟨hsame, hideal⟩ | ⟨htiming, hideal⟩
    · rw [hideal]
      exact h.ideal (hsame ▸ hstamps)
    · obtain ⟨hne, hstart⟩ := h.marking i htiming
      obtain ⟨hdelay, hnow⟩ := hstart hi
      have hle := hp.completion_le
      rw [hideal]
      exact ⟨hne, milliseconds_nonneg (by omega),
        milliseconds_add_le (by omega) (by omega) (by omega)⟩
  · show farm.emitter.photos = [] ∧ _
    have htp : farm.collector.total_parallel = some tp := htp
    rw [hemitter]
    rw [hcollector] at htp
    exact h.parallel tp htp
  · -- the collector has got the EOS of every worker
    have hgone : (s.farm.workers i).hand = .gone := by
      apply (pipelineInv hs).all_gone
      rw [Fintype.card_fin]
      exact (h.completion c hc).1
    cases hw <;> simp_all [Worker.hand]

theorem measured_collectingStep (hs : (system cfg).Reachable s.farm) (hphoto : s.HasPhoto)
    (hp : s.Paced inserted_delay now) (h : s.Measured inserted_delay now)
    (hc : CollectingStep now s t) : t.Measured inserted_delay now := by
  cases hc with
  | complete hc hnone =>
      refine ⟨h.marking, h.ideal, h.parallel, fun c hcompleted => ?_⟩
      cases hcompleted
      refine ⟨hc, fun tp htp => ?_, fun hstamps => (h.ideal hstamps).2.2⟩
      obtain ⟨hphotos, _, _, hms⟩ := h.parallel tp htp
      have hloop : s.emitting = .loop := by
        by_contra hne
        exact hphoto hne hphotos
      have hordered := hp.ordered (by rw [hloop]; exact Emitting.noConfusion)
      have hle := hp.parallel_le
      exact hms.trans (milliseconds_mono (by omega) (by omega))
  | @collect farm hf =>
      have hnext : (system cfg).Reachable farm := hs.next (a := .collector _) hf
      have hstep := collectorStep_cases hf
      obtain ⟨hemitter, hcounter⟩ := emitter_of_collectorStep hstep
      cases hstep with
      | photo hc hq => exact ⟨h.marking, h.ideal, h.parallel, fun c hcompleted =>
          absurd (h.completion c hcompleted).1 (Nat.not_le.mpr hc)⟩
      | eos hc hq =>
          refine ⟨h.marking, h.ideal, fun tp htp => ?_, fun c hcompleted =>
            absurd (h.completion c hcompleted).1 (Nat.not_le.mpr hc)⟩
          have htp : (if s.farm.collector.first_end_of_stream + 1 = 1 then
              some (milliseconds (now - s.tparallel_start))
            else s.farm.collector.total_parallel) = some tp := htp
          split at htp
          · cases htp
            have hphotos : s.farm.emitter.photos = [] :=
              hemitter ▸ photos_of_count hnext (Nat.succ_pos _)
            have hloop : s.emitting = .loop := by
              by_contra hne
              exact hphoto hne hphotos
            have hdue := hp.loop hloop
            have hle := hp.parallel_le
            have hsent : s.sent = cfg.photos.length := by
              unfold sent
              rw [hphotos]
              exact sub_zero _
            unfold due at hdue
            rw [hsent] at hdue
            exact ⟨hphotos, milliseconds_nonneg (by omega), le_milliseconds (by omega) (by omega),
              le_refl _⟩
          · exact h.parallel tp htp

theorem measured_step {a : Thread cfg.threads} (hs : (system cfg).Reachable s.farm)
    (hphoto : s.HasPhoto) (hstarting : s.Starting) (hp : s.Paced inserted_delay now)
    (h : s.Measured inserted_delay now) (ha : s.step inserted_delay now a = some t) :
    t.Measured inserted_delay now := by
  cases a with
  | emitter => exact measured_emittingStep hphoto h (emittingStep_cases ha)
  | worker i =>
      cases workingStep_cases ha with
      | start hi => exact measured_start hs hstarting hp h hi
      | work hi hf => exact measured_work hs hp h hi (workerStep_cases hf) rfl
  | collector => exact measured_collectingStep hs hphoto hp h (collectingStep_cases ha)

end Clocked

/-! ## The report -/

section Runs

variable {inserted_delay : ℤ} {readings : Readings} {p : Clocked cfg × ℤ}

theorem measured (hp : (clocked cfg inserted_delay readings).Reachable p) :
    p.1.Paced inserted_delay p.2 ∧ p.1.Measured inserted_delay p.2 := by
  let P : ℤ → Clocked cfg → Prop := fun now s =>
    s.Paced inserted_delay now ∧ s.Measured inserted_delay now
  apply hp.timed_invariant (P := P)
  · refine ⟨⟨readings.ordered, le_refl _, fun _ => readings.ordered, fun _ => rfl, fun _ => ?_,
      fun _ he => (by cases he)⟩, ⟨fun _ hi => (by cases hi), fun hne => absurd rfl hne,
      fun _ htp => (by cases htp), fun _ hc => (by cases hc)⟩⟩
    show readings.tparallel_start + (cfg.photos.length - cfg.photos.length : ℤ) * _ * _ ≤ _
    rw [sub_self, zero_mul, zero_mul, add_zero]
  · intro now later s hle ⟨hp, hm⟩
    exact ⟨hp.wait hle, hm.wait hp hle⟩
  · intro now s a t ⟨_, hs⟩ ⟨hp, hm⟩ ha
    exact ⟨Clocked.paced_step (reachable_farm hs) (hasPhoto hs) hp ha,
      Clocked.measured_step (reachable_farm hs) (hasPhoto hs) (starting hs) hp hm ha⟩

end Runs

/-- When `completion_time` is set, `total_parallel` is set and not larger, and both are at least
the time the emitter has spent in its delays.  The ideal service time, if it has been measured,
fits into the completion time besides a delay. -/
theorem printed_times_consistent (cfg : Config) (inserted_delay : ℤ) (readings : Readings)
    (hn : 1 ≤ cfg.number_of_workers) (p : Clocked cfg × ℤ)
    (hp : (clocked cfg inserted_delay readings).Reachable p) (c : ℤ)
    (hc : p.1.completion_time = some c) :
    (∃ tp, p.1.farm.collector.total_parallel = some tp ∧
      cfg.copies.length * (inserted_delay + 1) ≤ tp ∧ 0 ≤ tp ∧ tp ≤ c) ∧
    (p.1.farm.stamps ≠ 0 → 0 ≤ p.1.farm.ideal_service_time_worker ∧
      p.1.farm.ideal_service_time_worker + (inserted_delay + 1) ≤ c) := by
  have hthreads : 0 < cfg.threads := by
    unfold Config.threads
    omega
  have hm := (measured hp).2
  obtain ⟨hcount, htotal, hideal⟩ := hm.completion c hc
  refine ⟨?_, fun hstamps => ⟨(hm.ideal hstamps).2.1, hideal hstamps⟩⟩
  obtain ⟨tp, htp⟩ := Option.isSome_iff_exists.mp
    (total_parallel_of_count (reachable_farm hp) (Nat.lt_of_lt_of_le hthreads hcount))
  obtain ⟨_, hzero, hlen, _⟩ := hm.parallel tp htp
  rw [length_photos] at hlen
  exact ⟨tp, htp, hlen, hzero, htotal tp htp⟩

def startUp : Readings := ⟨0, 1, zero_le_one⟩

/-- The one worker of `oneWorker` and the threads beside it, at times given in milliseconds. -/
def clockedRun : List (Thread oneWorker.threads × ℤ) :=
  let worker : Thread oneWorker.threads := .worker ⟨0, Nat.one_pos⟩
  (List.flatten [[(.emitter, 10), (.emitter, 11), (.emitter, 12), (.emitter, 17), (.emitter, 18),
    (.emitter, 18), (worker, 19), (worker, 19), (worker, 20)], List.replicate 11 (worker, 23),
    [(.emitter, 24)], List.replicate 4 (worker, 25),
    [(.collector, 25), (.collector, 26), (.collector, 27)]]).map
      fun e => (e.1, e.2 * 1000000)

def clockedEnd : Clocked oneWorker × ℤ :=
  ((clocked oneWorker 5 startUp).exec (clocked oneWorker 5 startUp).init clockedRun).get
    (by decide +kernel)

/-- With a delay of 5 milliseconds the emitter spends 6. -/
theorem printed_times_consistent_oneWorker :
    clockedEnd.1.farm.collector.total_parallel = some 15 ∧ clockedEnd.1.farm.stamps = 1 ∧
      clockedEnd.1.farm.ideal_service_time_worker = 5 ∧ (∃ tp : ℤ, 1 * (5 + 1) ≤ tp ∧ tp ≤ 17) ∧
      clockedEnd.1.farm.ideal_service_time_worker + (5 + 1) ≤ 17 := by
  have hstamps : clockedEnd.1.farm.stamps = 1 := by decide +kernel
  obtain ⟨⟨tp, _, hlen, _, hle⟩, hideal⟩ := printed_times_consistent oneWorker 5 startUp
    (by decide) clockedEnd (System.reachable_get _) 17 (by decide +kernel)
  refine ⟨by decide +kernel, hstamps, by decide +kernel, ⟨tp, hlen, hle⟩, (hideal ?_).2⟩
  rw [hstamps]
  exact Nat.one_ne_zero

end Watermark.Farm
