import Watermark.Farm.Progress
import Watermark.Reasoning.Timed
import Watermark.Util.ActiveDelay

/-!
# Clocked — farm.cpp and the clock its threads read

Here the spans that end up in the reported numbers are differences of readings, and the emitter
waits in `active_delay` before it pushes a photo.  Without the readings it is the farm of
`Farm.Model`.

Each reading is a step, but for two that belong to a step of the farm: a worker reads `end_stamp`
where it stores the difference, and the collector `tparallel_end` in the pop of the first EOS, which
commutes with all that other threads can do before the reading.
-/

namespace Watermark.Farm

open Function Reasoning

/-- The globals that the emitter sets, as they are initialised before `main` runs. -/
structure Readings where
  tCompletionStart : ℤ
  tparallel_start : ℤ
  ordered : tCompletionStart ≤ tparallel_start

/-- `Emitter_Farm`, between two pushes. -/
inductive Emitting where
  -- at the head of a loop
  | loop
  -- `tparallel_start = ...`
  | parallelStart
  -- in `active_delay(inserted_delay)`, or at the push behind it
  | delay (d : Delay)
deriving DecidableEq

structure Clocked (cfg : Config) where
  farm : State cfg
  emitting : Emitting
  tCompletionStart : ℤ
  tparallel_start : ℤ
  -- the workers at `auto start = ...`, behind `counter_worker++`
  starting : Finset (Fin cfg.threads)
  -- what each of them has read there last
  start : Fin cfg.threads → ℤ
  completion_time : Option ℤ

inductive Thread (n : ℕ) where
  | emitter
  | worker (i : Fin n)
  | collector
deriving DecidableEq

variable {cfg : Config}

/-- Worker `i` is at the increment before its loop. -/
def Worker.counting : Worker → Bool
  | .count _ => true
  | _ => false

namespace Clocked

/-- `Emitter_Farm` -/
def emitterStep (inserted_delay now : ℤ) (s : Clocked cfg) : Option (Clocked cfg) :=
  match s.emitting with
  | .loop =>
    match s.farm.emitter.photos with
    | _ :: _ =>
      if s.farm.counter_emitter = 0 then
        some { s with tCompletionStart := now, emitting := .parallelStart }
      else some { s with emitting := .delay .called }
    | [] => s.farm.emitterStep.map fun farm => { s with farm }
  | .parallelStart => some { s with tparallel_start := now, emitting := .delay .called }
  | .delay d =>
    match d.read inserted_delay now with
    | some d => some { s with emitting := .delay d }
    | none => s.farm.emitterStep.map fun farm => { s with farm, emitting := .loop }

/-- `Worker_Farm` -/
def workerStep (now : ℤ) (s : Clocked cfg) (i : Fin cfg.threads) : Option (Clocked cfg) :=
  if i ∈ s.starting then
    some { s with start := update s.start i now, starting := s.starting.erase i }
  else
    (s.farm.workerStep i (milliseconds (now - s.start i))).map fun farm => { s with
      farm
      starting := if (s.farm.workers i).counting then insert i s.starting else s.starting }

/-- `Collector_Farm` -/
def collectorStep (now : ℤ) (s : Clocked cfg) : Option (Clocked cfg) :=
  if (s.farm.collector.count : ℤ) < cfg.number_of_workers then
    (s.farm.collectorStep (milliseconds (now - s.tparallel_start))).map fun farm => { s with farm }
  else if s.completion_time = none then
    some { s with completion_time := some (milliseconds (now - s.tCompletionStart)) }
  else none

def step (inserted_delay now : ℤ) (s : Clocked cfg) : Thread cfg.threads → Option (Clocked cfg)
  | .emitter => s.emitterStep inserted_delay now
  | .worker i => s.workerStep now i
  | .collector => s.collectorStep now

/-- `main` gets past its joins. -/
def AllReturned (s : Clocked cfg) : Prop := s.farm.AllReturned ∧ s.completion_time.isSome = true

end Clocked

/-- The threads as `main` starts them. -/
def clocked (cfg : Config) (inserted_delay : ℤ) (readings : Readings) :
    System (Clocked cfg × ℤ) (Thread cfg.threads × ℤ) :=
  System.timed {
    farm := (system cfg).init
    emitting := .loop
    tCompletionStart := readings.tCompletionStart
    tparallel_start := readings.tparallel_start
    starting := ∅
    start := fun _ => readings.tparallel_start
    completion_time := none } readings.tparallel_start (Clocked.step inserted_delay)

/-! ## What a step can do -/

/-- The steps of `Emitter_Farm`. -/
inductive EmittingStep (inserted_delay now : ℤ) (s : Clocked cfg) : Clocked cfg → Prop where
  | first (he : s.emitting = .loop) (hp : s.farm.emitter.photos ≠ [])
      (hc : s.farm.counter_emitter = 0) :
      EmittingStep inserted_delay now s
        { s with tCompletionStart := now, emitting := .parallelStart }
  | second (he : s.emitting = .parallelStart) :
      EmittingStep inserted_delay now s
        { s with tparallel_start := now, emitting := .delay .called }
  | call (he : s.emitting = .loop) (hp : s.farm.emitter.photos ≠ [])
      (hc : s.farm.counter_emitter ≠ 0) :
      EmittingStep inserted_delay now s { s with emitting := .delay .called }
  | read {d d' : Delay} (he : s.emitting = .delay d) (hd : d.read inserted_delay now = some d') :
      EmittingStep inserted_delay now s { s with emitting := .delay d' }
  | push {farm : State cfg} (he : s.emitting = .delay .returned)
      (hf : s.farm.emitterStep = some farm) :
      EmittingStep inserted_delay now s { s with farm, emitting := .loop }
  | eos {farm : State cfg} (he : s.emitting = .loop) (hp : s.farm.emitter.photos = [])
      (hf : s.farm.emitterStep = some farm) :
      EmittingStep inserted_delay now s { s with farm, emitting := .loop }

theorem emittingStep_cases {s t : Clocked cfg} {inserted_delay now : ℤ}
    (h : s.emitterStep inserted_delay now = some t) : EmittingStep inserted_delay now s t := by
  unfold Clocked.emitterStep at h
  cases he : s.emitting with
  | loop =>
      simp only [he] at h
      cases hp : s.farm.emitter.photos with
      | nil =>
          simp only [hp, Option.map_eq_some_iff] at h
          obtain ⟨farm, hf, rfl⟩ := h
          exact .eos he hp hf
      | cons point rest =>
          have hne : s.farm.emitter.photos ≠ [] := hp ▸ List.cons_ne_nil point rest
          simp only [hp] at h
          split at h
          · rename_i hc
            cases h
            exact .first he hne hc
          · rename_i hc
            cases h
            exact .call he hne hc
  | parallelStart =>
      simp only [he, Option.some.injEq] at h
      subst h
      exact .second he
  | delay d =>
      cases hd : d.read inserted_delay now with
      | some d' =>
          simp only [he, hd, Option.some.injEq] at h
          subst h
          exact .read he hd
      | none =>
          simp only [he, hd, Option.map_eq_some_iff] at h
          obtain ⟨farm, hf, rfl⟩ := h
          exact .push (he.trans (congrArg _ (Delay.eq_returned_of_read hd))) hf

/-- The steps of `Worker_Farm`. -/
inductive WorkingStep (now : ℤ) (s : Clocked cfg) (i : Fin cfg.threads) : Clocked cfg → Prop where
  | start (hi : i ∈ s.starting) :
      WorkingStep now s i
        { s with start := update s.start i now, starting := s.starting.erase i }
  | work {farm : State cfg} (hi : i ∉ s.starting)
      (hf : s.farm.workerStep i (milliseconds (now - s.start i)) = some farm) :
      WorkingStep now s i { s with
        farm
        starting := if (s.farm.workers i).counting then insert i s.starting else s.starting }

theorem workingStep_cases {s t : Clocked cfg} {now : ℤ} {i : Fin cfg.threads}
    (h : s.workerStep now i = some t) : WorkingStep now s i t := by
  unfold Clocked.workerStep at h
  split at h
  · rename_i hi
    cases h
    exact .start hi
  · rename_i hi
    obtain ⟨farm, hf, rfl⟩ := Option.map_eq_some_iff.mp h
    exact .work hi hf

/-- The steps of `Collector_Farm`. -/
inductive CollectingStep (now : ℤ) (s : Clocked cfg) : Clocked cfg → Prop where
  | collect {farm : State cfg}
      (hf : s.farm.collectorStep (milliseconds (now - s.tparallel_start)) = some farm) :
      CollectingStep now s { s with farm }
  | complete (hc : cfg.threads ≤ s.farm.collector.count) (hnone : s.completion_time = none) :
      CollectingStep now s
        { s with completion_time := some (milliseconds (now - s.tCompletionStart)) }

theorem collectingStep_cases {s t : Clocked cfg} {now : ℤ} (h : s.collectorStep now = some t) :
    CollectingStep now s t := by
  unfold Clocked.collectorStep at h
  split at h
  · obtain ⟨farm, hf, rfl⟩ := Option.map_eq_some_iff.mp h
    exact .collect hf
  · rename_i hc
    rw [Option.ite_none_right_eq_some] at h
    obtain ⟨hnone, h⟩ := h
    cases h
    exact .complete (Nat.le_of_not_lt fun hlt => hc (lt_threads.mpr hlt)) hnone

/-! ## Without the readings -/

-- A step is a step of the farm, or only a reading.
theorem farm_step {s t : Clocked cfg} {inserted_delay now : ℤ} {a : Thread cfg.threads}
    (h : s.step inserted_delay now a = some t) :
    t.farm = s.farm ∨ ∃ b, (system cfg).step s.farm b = some t.farm := by
  cases a with
  | emitter =>
      cases emittingStep_cases h with
      | push he hf => exact Or.inr ⟨.emitter, hf⟩
      | eos he hp hf => exact Or.inr ⟨.emitter, hf⟩
      | _ => exact Or.inl rfl
  | worker i =>
      cases workingStep_cases h with
      | start hi => exact Or.inl rfl
      | work hi hf => exact Or.inr ⟨.worker i _, hf⟩
  | collector =>
      cases collectingStep_cases h with
      | collect hf => exact Or.inr ⟨.collector _, hf⟩
      | complete hc hnone => exact Or.inl rfl

section Runs

variable {inserted_delay : ℤ} {readings : Readings} {p : Clocked cfg × ℤ}

theorem reachable_farm (hp : (clocked cfg inserted_delay readings).Reachable p) :
    (system cfg).Reachable p.1.farm :=
  hp.untimed (f := Clocked.farm) rfl fun _ _ _ _ h => farm_step h

end Runs

/-! ## Every run comes to its end -/

theorem emitter_of_workerStep {s t : State cfg} {i : Fin cfg.threads} {ms : ℤ}
    (h : WorkerStep s i ms t) :
    t.emitter = s.emitter ∧ t.counter_emitter = s.counter_emitter := by
  cases h <;> exact ⟨rfl, rfl⟩

theorem emitter_of_collectorStep {s t : State cfg} {ms : ℤ} (h : CollectorStep s ms t) :
    t.emitter = s.emitter ∧ t.counter_emitter = s.counter_emitter := by
  cases h <;> exact ⟨rfl, rfl⟩

-- What a worker and the collector measure does not decide whether they can go on.
theorem workerStep_isSome (s : State cfg) (i : Fin cfg.threads) (ms ms' : ℤ)
    (h : (s.workerStep i ms).isSome = true) : (s.workerStep i ms').isSome = true := by
  unfold State.workerStep at h ⊢
  cases hw : s.workers i <;> simp only [hw] at h ⊢ <;> exact h

namespace Clocked

/-- Readings the emitter has left before its next push, waiting apart. -/
def rank (s : Clocked cfg) : ℕ :=
  match s.emitting with
  | .loop => 4
  | .parallelStart => 3
  | .delay .called => 2
  | .delay (.spin _) => 1
  | .delay .returned => 0

def measure (s : Clocked cfg) : ℕ :=
  5 * s.farm.measure + s.rank + s.starting.card + if s.completion_time = none then 1 else 0

/-- A round of the loop in `active_delay` that is not the last one. -/
def Waits (inserted_delay now : ℤ) (s t : Clocked cfg) : Prop :=
  ∃ start, s.emitting = .delay (.spin start) ∧
    now < start + (max inserted_delay 0 + 1) * 1000000 ∧ t = s

variable {s t : Clocked cfg} {inserted_delay now : ℤ}

-- A step of the farm pays for the reading it may lead to.
theorem measure_lt_of_farm {farm : State cfg} {starting : Finset (Fin cfg.threads)}
    (h : farm.measure < s.farm.measure) (hcard : starting.card ≤ s.starting.card + 1) :
    ({ s with farm, starting } : Clocked cfg).measure < s.measure := by
  show 5 * farm.measure + s.rank + starting.card + (if s.completion_time = none then 1 else 0) < _
  unfold measure
  omega

theorem measure_workingStep (hs : (system cfg).Reachable s.farm) {i : Fin cfg.threads}
    (h : WorkingStep now s i t) : t.measure < s.measure := by
  cases h with
  | start hi =>
      have hcard := Finset.card_erase_lt_of_mem hi
      show 5 * s.farm.measure + s.rank + (s.starting.erase i).card +
        (if s.completion_time = none then 1 else 0) < _
      unfold measure
      omega
  | work hi hf =>
      apply measure_lt_of_farm (measure_step (a := .worker i _) hs hf)
      split
      · exact Finset.card_insert_le i s.starting
      · exact Nat.le_succ _

theorem measure_emittingStep (hs : (system cfg).Reachable s.farm)
    (h : EmittingStep inserted_delay now s t) :
    s.Waits inserted_delay now t ∨ t.measure < s.measure := by
  cases h with
  | first he hp hc =>
      apply Or.inr
      simp only [measure, rank, he]
      omega
  | second he =>
      apply Or.inr
      simp only [measure, rank, he]
      omega
  | call he hp hc =>
      apply Or.inr
      simp only [measure, rank, he]
      omega
  | @push farm he hf =>
      have hlt : farm.measure < s.farm.measure := measure_step (a := .emitter) hs hf
      apply Or.inr
      simp only [measure, rank, he]
      omega
  | @eos farm he hp hf =>
      have hlt : farm.measure < s.farm.measure := measure_step (a := .emitter) hs hf
      apply Or.inr
      simp only [measure, rank, he]
      omega
  | @read d d' he hd =>
      cases d with
      | returned => cases hd
      | called =>
          cases hd
          apply Or.inr
          simp only [measure, rank, he]
          omega
      | spin start =>
          by_cases hlate : start + (max inserted_delay 0 + 1) * 1000000 ≤ now
          · rw [Delay.read_spin_of_le hlate] at hd
            cases hd
            apply Or.inr
            simp only [measure, rank, he]
            omega
          · rcases Delay.read_spin hd with rfl | rfl
            · apply Or.inr
              simp only [measure, rank, he]
              omega
            · exact Or.inl ⟨start, he, Int.not_le.mp hlate, by rw [← he]⟩

theorem measure_clockedStep (hs : (system cfg).Reachable s.farm) {a : Thread cfg.threads}
    (h : s.step inserted_delay now a = some t) :
    s.Waits inserted_delay now t ∨ t.measure < s.measure := by
  cases a with
  | emitter => exact measure_emittingStep hs (emittingStep_cases h)
  | worker i => exact Or.inr (measure_workingStep hs (workingStep_cases h))
  | collector =>
      cases collectingStep_cases h with
      | collect hf =>
          exact Or.inr (measure_lt_of_farm (measure_step (a := .collector _) hs hf)
            (Nat.le_succ _))
      | complete hc hnone =>
          apply Or.inr
          show 5 * s.farm.measure + s.rank + s.starting.card + 0 < _
          unfold measure
          rw [if_pos hnone]
          omega

/-- The emitter has a photo to push when it is on its way to a push. -/
def HasPhoto (s : Clocked cfg) : Prop := s.emitting ≠ .loop → s.farm.emitter.photos ≠ []

theorem hasPhoto_step {a : Thread cfg.threads} (h : s.HasPhoto)
    (ha : s.step inserted_delay now a = some t) : t.HasPhoto := by
  cases a with
  | emitter =>
      cases emittingStep_cases ha with
      | first he hp hc => exact fun _ => hp
      | second he => exact fun _ => h (by rw [he]; exact Emitting.noConfusion)
      | call he hp hc => exact fun _ => hp
      | read he hd => exact fun _ => h (by rw [he]; exact Emitting.noConfusion)
      | push he hf => exact fun hne => absurd rfl hne
      | eos he hp hf => exact fun hne => absurd rfl hne
  | worker i =>
      cases workingStep_cases ha with
      | start hi => exact h
      | @work farm hi hf =>
          intro hne
          show farm.emitter.photos ≠ []
          rw [(emitter_of_workerStep (workerStep_cases hf)).1]
          exact h hne
  | collector =>
      cases collectingStep_cases ha with
      | complete hc hnone => exact h
      | @collect farm hf =>
          intro hne
          show farm.emitter.photos ≠ []
          rw [(emitter_of_collectorStep (collectorStep_cases hf)).1]
          exact h hne

/-- A worker that is about to read the clock has a photo. -/
def Starting (s : Clocked cfg) : Prop :=
  ∀ i ∈ s.starting, ∃ q t, s.farm.workers i = .mark q t

theorem starting_workingStep {i : Fin cfg.threads} (h : s.Starting) (hw : WorkingStep now s i t) :
    t.Starting := by
  cases hw with
  | start hi => exact fun j hj => h j (Finset.mem_of_mem_erase hj)
  | @work farm hi hf =>
      intro j hj
      have hstep := workerStep_cases hf
      have hj : j ∈ if (s.farm.workers i).counting then insert i s.starting else s.starting := hj
      by_cases hji : j = i
      · subst hji
        show ∃ q t, farm.workers j = .mark q t
        split at hj
        · rename_i hcounting
          cases hstep with
          | count hq => exact ⟨_, _, update_self ..⟩
          | _ => simp_all [Worker.counting]
        · exact absurd hj hi
      · have hmem : j ∈ s.starting := by
          split at hj
          · exact Finset.mem_of_mem_insert_of_ne hj hji
          · exact hj
        obtain ⟨w, hw⟩ := workers_of_workerStep hstep
        show ∃ q t, farm.workers j = .mark q t
        rw [hw, update_of_ne hji]
        exact h j hmem

theorem starting_step {a : Thread cfg.threads} (h : s.Starting)
    (ha : s.step inserted_delay now a = some t) : t.Starting := by
  cases a with
  | worker i => exact starting_workingStep h (workingStep_cases ha)
  | emitter =>
      cases emittingStep_cases ha with
      | push he hf => cases emitterStep_cases hf <;> exact h
      | eos he hp hf => cases emitterStep_cases hf <;> exact h
      | _ => exact h
  | collector =>
      cases collectingStep_cases ha with
      | collect hf => cases collectorStep_cases hf <;> exact h
      | complete hc hnone => exact h

-- The emitter always goes on, if only by reading the clock.
theorem emitter_goes_on (hr : ¬s.farm.EmitterReturned) :
    (s.emitterStep inserted_delay now).isSome = true := by
  have hfarm : s.farm.emitterStep.isSome = true := emitter_enabled hr
  unfold emitterStep
  cases he : s.emitting with
  | parallelStart => rfl
  | delay d =>
      simp only
      split
      · rfl
      · rwa [Option.isSome_map]
  | loop =>
      simp only
      split
      · split <;> rfl
      · rwa [Option.isSome_map]

theorem goes_on (hs : (system cfg).Reachable s.farm) (hr : ¬s.AllReturned) :
    ∃ a, (s.step inserted_delay now a).isSome = true := by
  by_cases he : s.farm.EmitterReturned
  · by_cases hw : ∀ i, s.farm.workers i = .returned
    · refine ⟨.collector, ?_⟩
      show (s.collectorStep now).isSome = true
      unfold collectorStep
      split
      · rename_i hc
        have hgone : ∀ i, s.farm.pipeline.hands i = .gone := by
          intro i
          show (s.farm.workers i).hand = .gone
          rw [hw i]
          rfl
        have hlt : s.farm.pipeline.count < Fintype.card (Fin cfg.threads) := by
          rw [Fintype.card_fin]
          exact lt_threads.mp hc
        rw [Option.isSome_map]
        exact collector_enabled _ (not_not.mpr hc) ((pipelineInv hs).output_ne_nil hgone hlt)
      · rename_i hc
        by_cases hnone : s.completion_time = none
        · rw [if_pos hnone]
          rfl
        · exact absurd ⟨⟨he, hw, hc⟩, Option.isSome_iff_ne_none.mpr hnone⟩ hr
    · obtain ⟨i, hi⟩ := not_forall.mp hw
      refine ⟨.worker i, ?_⟩
      show (s.workerStep now i).isSome = true
      unfold workerStep
      split
      · rfl
      · rw [Option.isSome_map]
        exact workerStep_isSome s.farm i 0 _ (worker_can_step hs he hi)
  · exact ⟨.emitter, emitter_goes_on he⟩

theorem step_eq_none (h : s.HasPhoto) (hstarting : s.Starting) (hr : s.AllReturned)
    (a : Thread cfg.threads) :
    s.step inserted_delay now a = none := by
  obtain ⟨⟨hemitter, hworkers, hcollector⟩, hcompleted⟩ := hr
  cases a with
  | emitter =>
      have hloop : s.emitting = .loop := by
        by_contra hne
        exact h hne hemitter.1
      show s.emitterStep inserted_delay now = none
      unfold emitterStep
      simp only [hloop, hemitter.1, emitterStep_eq_none hemitter]
      rfl
  | worker i =>
      have hnot : i ∉ s.starting := fun hi => by
        obtain ⟨q, t, hmark⟩ := hstarting i hi
        rw [hworkers i] at hmark
        cases hmark
      have hfarm : s.farm.workerStep i (milliseconds (now - s.start i)) = none :=
        stuck_of_returned ⟨hemitter, hworkers, hcollector⟩ (.worker i _)
      show s.workerStep now i = none
      unfold workerStep
      rw [if_neg hnot, hfarm]
      rfl
  | collector =>
      show s.collectorStep now = none
      unfold collectorStep
      rw [if_neg hcollector, if_neg (Option.isSome_iff_ne_none.mp hcompleted)]

end Clocked

section Runs

variable {inserted_delay : ℤ} {readings : Readings} {p : Clocked cfg × ℤ}

theorem hasPhoto (hp : (clocked cfg inserted_delay readings).Reachable p) : p.1.HasPhoto := by
  apply hp.timed_invariant (P := fun _ s => s.HasPhoto)
  · exact fun hne => absurd rfl hne
  · exact fun _ _ _ _ h => h
  · exact fun _ _ _ _ _ h ha => Clocked.hasPhoto_step h ha

theorem starting (hp : (clocked cfg inserted_delay readings).Reachable p) : p.1.Starting := by
  apply hp.timed_invariant (P := fun _ s => s.Starting)
  · exact fun i hi => absurd hi (Finset.notMem_empty i)
  · exact fun _ _ _ _ h => h
  · exact fun _ _ _ _ _ h ha => Clocked.starting_step h ha

theorem stuck_iff (hp : (clocked cfg inserted_delay readings).Reachable p) :
    (clocked cfg inserted_delay readings).Stuck p ↔ p.1.AllReturned := by
  constructor
  · intro hstuck
    by_contra hr
    obtain ⟨a, ha⟩ : ∃ a, (p.1.step inserted_delay p.2 a).isSome = true :=
      Clocked.goes_on (reachable_farm hp) hr
    exact hstuck.not_enabled (a, p.2) (System.timed_enabled (Int.le_refl p.2) ha)
  · intro hr a
    rw [Option.eq_none_iff_forall_ne_some]
    intro q hq
    have hstep := (System.timed_step.mp hq).2.1
    rw [Clocked.step_eq_none (hasPhoto hp) (starting hp) hr] at hstep
    cases hstep

-- From some point on the emitter would wait for ever in the same loop.
theorem not_timePasses (r : (clocked cfg inserted_delay readings).InfiniteRun) : ¬r.TimePasses := by
  intro htime
  have hle : ∀ (p : Clocked cfg × ℤ) (_ : Thread cfg.threads × ℤ) (q : Clocked cfg × ℤ),
      p.1.Waits inserted_delay q.2 q.1 → q.1.measure ≤ p.1.measure := by
    rintro p _ q ⟨start, _, _, heq⟩
    rw [heq]
  obtain ⟨m, hidle⟩ := r.idle_from hle fun p a q hp ha => by
    obtain ⟨_, hs, ht⟩ := System.timed_step.mp ha
    rw [ht]
    exact Clocked.measure_clockedStep (reachable_farm hp) hs
  have hsame : ∀ k, m ≤ k → (r.state k).1 = (r.state m).1 := by
    intro k hk
    induction k, hk using Nat.le_induction with
    | base => rfl
    | succ k hk ih =>
        obtain ⟨_, _, _, heq⟩ := hidle k hk
        rw [heq, ih]
  obtain ⟨start, hspin, _, _⟩ := hidle m (Nat.le_refl m)
  obtain ⟨n, hn, hlate⟩ := htime.exists_late (start + (max inserted_delay 0 + 1) * 1000000) m
  obtain ⟨start', hspin', hearly, _⟩ := hidle n hn
  rw [hsame n hn, hspin] at hspin'
  cases hspin'
  omega

end Runs

-- The emitter alone, with the readings of `c` that `active_delay` takes.
theorem foldlM_emitterStep (inserted_delay : ℤ) {l : List ℤ} {d d' : Delay} (s : Clocked cfg)
    (h : l.foldlM (Delay.read inserted_delay) d = some d') :
    l.foldlM (fun s now => s.emitterStep inserted_delay now) { s with emitting := .delay d } =
      some { s with emitting := .delay d' } := by
  induction l generalizing d with
  | nil =>
      cases h
      rfl
  | cons now l ih =>
      rw [List.foldlM_cons] at h ⊢
      obtain ⟨e, he, h⟩ := Option.bind_eq_some_iff.mp h
      have hstep : ({ s with emitting := .delay d } : Clocked cfg).emitterStep inserted_delay now =
          some { s with emitting := .delay e } := by
        simp only [Clocked.emitterStep, he]
      rw [hstep]
      exact ih h

/-- Each step of the clocked farm is a step of the farm or leaves it as it is.  Busy waiting
included, it comes to rest exactly when all threads have returned and the completion time is set,
and it does so in every run in which time passes.  The readings the emitter takes in a delay, from
any reading `k` of any clock on, are those of `active_delay`. -/
theorem clocked_returns (cfg : Config) (inserted_delay : ℤ) (readings : Readings) :
    (∀ p, (clocked cfg inserted_delay readings).Reachable p →
      (system cfg).Reachable p.1.farm ∧
        (∀ a q, (clocked cfg inserted_delay readings).step p a = some q →
          q.1.farm = p.1.farm ∨ ∃ b, (system cfg).step p.1.farm b = some q.1.farm) ∧
        ((clocked cfg inserted_delay readings).Stuck p ↔ p.1.AllReturned)) ∧
    (∀ r : (clocked cfg inserted_delay readings).InfiniteRun, ¬r.TimePasses) ∧
    ∀ (s : Clocked cfg) (c : Clock) (k : ℕ), s.emitting = .delay .called →
      ((List.range' k (active_delay c k inserted_delay + 1 - k)).map c.now).foldlM
        (fun s now => s.emitterStep inserted_delay now) s =
          some { s with emitting := .delay .returned } := by
  refine ⟨fun p hp => ⟨reachable_farm hp, fun a q hq => ?_, stuck_iff hp⟩, not_timePasses,
    fun s c k he => ?_⟩
  · exact farm_step (System.timed_step.mp hq).2.1
  · have hdelay := foldlM_emitterStep inserted_delay s (foldlM_read_called c k inserted_delay)
    rwa [← he] at hdelay

end Watermark.Farm
