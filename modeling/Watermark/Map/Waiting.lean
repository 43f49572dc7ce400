import Watermark.Map.CompletionTime

/-!
# Waiting — the infinite runs of map.cpp

`scatter` waits by reading the clock and the collector by looking at its queues, so a run may go on
for ever.  If time passes in it, it leaves out a thread that has something to do.
-/

namespace Watermark.Map

open Function Reasoning

variable {cfg : Config}

/-! ## Empty polls -/

namespace State

/-- The collector is elsewhere in its loops. -/
def turn (s : State cfg) (poll : Poll cfg.threads) : State cfg :=
  { s with collector := { s.collector with poll } }

/-- There is something for the collector to find, or nothing left to wait for. -/
def Calls (s : State cfg) : Prop :=
  (∃ j, (s.worker_to_collecter j).contents ≠ []) ∨ cfg.threads ≤ s.collector.counter

@[simp] theorem calls_turn (s : State cfg) (poll : Poll cfg.threads) :
    (s.turn poll).Calls ↔ s.Calls := Iff.rfl

instance (s : State cfg) : Decidable s.Calls := inferInstanceAs (Decidable (_ ∨ _))

/-- The measure, and how far the collector is from what there is to find. -/
def urgency (s : State cfg) : ℕ :=
  (2 * cfg.threads + 1) * s.measure + if s.Calls then s.distance else 0

/-- The collector looks at an empty queue, as all of them are, and goes on to the next. -/
def SweepsInVain (s t : State cfg) : Prop :=
  ¬s.Calls ∧ ∃ i, s.collector.poll = .isEmpty i ∧
    t = s.turn (Poll.next s.collector.counter i)

end State

theorem urgency_lt {s t : State cfg} (h : t.measure < s.measure) : t.urgency < s.urgency := by
  have hmul : (2 * cfg.threads + 1) * (t.measure + 1) ≤ (2 * cfg.threads + 1) * s.measure :=
    Nat.mul_le_mul_left _ h
  have hle := distance_le t
  rw [Nat.mul_add, Nat.mul_one] at hmul
  unfold State.urgency
  split <;> omega

theorem urgency_step (hneg : 0 ≤ cfg.number_workers) {s t : State cfg} {a : Action cfg.threads}
    (hs : (system cfg).Reachable s) (h : (system cfg).step s a = some t) :
    (a = .collector ∧ s.SweepsInVain t) ∨ t.urgency < s.urgency := by
  by_cases hempty : EmptyPoll s a
  · obtain ⟨rfl, i, hp, hq⟩ := hempty
    rw [step_skip hp hq] at h
    cases h
    by_cases hcalls : s.Calls
    · apply Or.inr
      have hlt : (s.turn (Poll.next s.collector.counter i)).potential < s.potential :=
        potential_skip hp hq hcalls
      show (s.turn (Poll.next s.collector.counter i)).urgency < s.urgency
      unfold State.potential at hlt
      unfold State.urgency
      rwa [if_pos hcalls, if_pos ((s.calls_turn _).mpr hcalls)]
    · exact Or.inl ⟨rfl, hcalls, i, hp, rfl⟩
  · exact Or.inr (urgency_lt (measure_step hneg hs hempty h))

theorem State.SweepsInVain.urgency_le {s t : State cfg} (h : s.SweepsInVain t) :
    t.urgency ≤ s.urgency := by
  obtain ⟨hcalls, i, hp, rfl⟩ := h
  have hmeasure : (s.turn (Poll.next s.collector.counter i)).measure ≤ s.measure := by
    have hle := (Poll.next s.collector.counter i).measure_le
    show s.scatter.measure cfg.threads + (Poll.next s.collector.counter i).measure +
      ∑ j, s.laneMeasure j ≤ s.scatter.measure cfg.threads + s.collector.poll.measure +
        ∑ j, s.laneMeasure j
    rw [hp]
    show _ + _ + _ ≤ s.scatter.measure cfg.threads + 1 + _
    omega
  have hmul := Nat.mul_le_mul_left (2 * cfg.threads + 1) hmeasure
  unfold State.urgency
  rw [if_neg hcalls, if_neg (mt (s.calls_turn _).mp hcalls)]
  omega

/-! ## With the clock -/

namespace Clocked

/-- Steps of `scatter` that are readings, up to the next push, waiting apart. -/
def rank (s : Clocked cfg) : ℕ :=
  match s.scattering with
  | .start => 6
  | .completionStart => 5
  | .stamp => 5
  | .loop => 4
  | .delay .called => 3
  | .delay (.spin _) => 2
  | .delay .returned => 1

def measure (s : Clocked cfg) : ℕ :=
  5 * s.map.urgency + s.rank + if s.completion_time = none then 1 else 0

/-- A reading in `active_delay` after which the loop goes on. -/
def Waits (inserted_delay now : ℤ) (s t : Clocked cfg) : Prop :=
  ∃ start, s.scattering = .delay (.spin start) ∧
    now < start + (max inserted_delay 0 + 1) * 1000000 ∧ t = s

/-- A step that gets nowhere. -/
def Idle (inserted_delay now : ℤ) (a : Thread cfg.threads) (s t : Clocked cfg) : Prop :=
  a = .scatter ∧ s.Waits inserted_delay now t ∨
    a = .collector ∧ ∃ map, s.map.SweepsInVain map ∧ t = { s with map }

variable {s t : Clocked cfg} {inserted_delay now : ℤ}

theorem measure_scatteringStep (hneg : 0 ≤ cfg.number_workers) (hs : (system cfg).Reachable s.map)
    (h : ScatteringStep inserted_delay now s t) :
    s.Waits inserted_delay now t ∨ t.measure < s.measure := by
  have hmap : ∀ map, s.map.scatterStep = some map → map.urgency < s.map.urgency := by
    intro map hm
    rcases urgency_step (a := .scatter) hneg hs hm with ⟨hno, _⟩ | hlt
    · cases hno
    · exact hlt
  cases h with
  | start he =>
      apply Or.inr
      simp only [measure, rank, he]
      omega
  | completionStart he =>
      apply Or.inr
      simp only [measure, rank, he]
      omega
  | call he hp =>
      apply Or.inr
      simp only [measure, rank, he]
      omega
  | @loop map he hp hm =>
      have hlt := hmap map hm
      apply Or.inr
      simp only [measure, rank, he]
      omega
  | @push map he hm =>
      have hlt := hmap map hm
      apply Or.inr
      cases hin : s.map.scatter.inParts with
      | true =>
          simp only [measure, rank, he, if_true]
          omega
      | false =>
          simp only [measure, rank, he, Bool.false_eq_true, if_false]
          omega
  | first he hc =>
      apply Or.inr
      simp only [measure, rank, he]
      omega
  | next he hc =>
      apply Or.inr
      simp only [measure, rank, he]
      omega
  | @read d d' he hd =>
      cases d with
      | returned => cases hd
      | called =>
          cases hd
          apply Or.inr
          simp only [measure, rank, he]
          omega
      | spin start =>
          by_cases hlate : start + (max inserted_delay 0 + 1) * 1000000 ≤ now
          · rw [Delay.read_spin_of_le hlate] at hd
            cases hd
            apply Or.inr
            simp only [measure, rank, he]
            omega
          · rcases Delay.read_spin hd with rfl | rfl
            · apply Or.inr
              simp only [measure, rank, he]
              omega
            · exact Or.inl ⟨start, he, Int.not_le.mp hlate, by rw [← he]⟩

theorem measure_clockedStep (hneg : 0 ≤ cfg.number_workers) (hs : (system cfg).Reachable s.map)
    {a : Thread cfg.threads} (h : s.step inserted_delay now a = some t) :
    Idle inserted_delay now a s t ∨ t.measure < s.measure := by
  have hlt : ∀ map : State cfg, map.urgency < s.map.urgency →
      ({ s with map } : Clocked cfg).measure < s.measure := by
    intro map hlt
    show 5 * map.urgency + s.rank + (if s.completion_time = none then 1 else 0) < _
    unfold measure
    omega
  cases a with
  | scatter =>
      rcases measure_scatteringStep hneg hs (scatteringStep_cases h) with hwaits | hlt
      · exact Or.inl (Or.inl ⟨rfl, hwaits⟩)
      · exact Or.inr hlt
  | worker i ms =>
      obtain ⟨map, hm, rfl⟩ := Option.map_eq_some_iff.mp h
      rcases urgency_step (a := .worker i ms) hneg hs hm with ⟨hno, _⟩ | hmap
      · cases hno
      · exact Or.inr (hlt map hmap)
  | collector =>
      cases collectingStep_cases h with
      | @collect map hm =>
          rcases urgency_step (a := .collector) hneg hs hm with ⟨_, hvain⟩ | hmap
          · exact Or.inl (Or.inr ⟨rfl, map, hvain, rfl⟩)
          · exact Or.inr (hlt map hmap)
      | complete hp hnone =>
          apply Or.inr
          show 5 * s.map.urgency + s.rank + 0 < _
          unfold measure
          rw [if_pos hnone]
          omega

theorem Idle.measure_le {a : Thread cfg.threads} (h : Idle inserted_delay now a s t) :
    t.measure ≤ s.measure := by
  rcases h with ⟨_, _, _, _, rfl⟩ | ⟨_, map, hvain, rfl⟩
  · exact Nat.le_refl _
  · have hle := hvain.urgency_le
    show 5 * map.urgency + s.rank + (if s.completion_time = none then 1 else 0) ≤ _
    unfold measure
    omega

/-! ## When the clocked threads can step -/

theorem scatter_goes_on (h : s.map.scatterStep.isSome = true) :
    (s.scatterStep inserted_delay now).isSome = true := by
  unfold scatterStep
  cases he : s.scattering with
  | start => rfl
  | completionStart => rfl
  | loop =>
      simp only
      split
      · rfl
      · rwa [Option.isSome_map]
  | delay d =>
      simp only
      split
      · rfl
      · rwa [Option.isSome_map]
  | stamp =>
      simp only
      split <;> rfl

theorem worker_goes_on {i : Fin cfg.threads} {ms : ℤ} (h : (s.map.workerStep i ms).isSome = true) :
    (s.workerStep i ms).isSome = true := by
  unfold workerStep
  rwa [Option.isSome_map]

theorem goes_on (hn : 0 < cfg.threads) (hs : (system cfg).Reachable s.map) (hr : ¬s.AllReturned) :
    ∃ a, (s.step inserted_delay now a).isSome = true := by
  by_contra hno
  have hscatter : ¬(system cfg).Enabled s.map .scatter :=
    fun h => hno ⟨.scatter, scatter_goes_on h⟩
  have hworkers : ∀ i, ¬(system cfg).Enabled s.map (.worker i 0) :=
    fun i h => hno ⟨.worker i 0, worker_goes_on h⟩
  by_cases hp : s.map.collector.poll = .returned
  · cases hc : s.completion_time with
    | none =>
        refine hno ⟨.collector, ?_⟩
        show (s.collectorStep now).isSome = true
        unfold collectorStep
        rw [if_pos hp, if_pos hc]
        rfl
    | some c =>
        refine hr ⟨returned_of_collector hn hs hscatter hworkers hp, ?_⟩
        rw [hc]
        rfl
  · refine hno ⟨.collector, ?_⟩
    show (s.collectorStep now).isSome = true
    unfold collectorStep
    rw [if_neg hp, Option.isSome_map]
    exact collector_enabled hp (pollInv hs).pop

theorem step_eq_none (hp : s.Paced inserted_delay now) (hr : s.AllReturned) (later : ℤ)
    (a : Thread cfg.threads) : s.step inserted_delay later a = none := by
  have hstuck := stuck_of_returned hr.1
  obtain ⟨⟨⟨i, hi, heos⟩, _, hpoll⟩, hcompleted⟩ := hr
  cases a with
  | scatter =>
      have hpushes : s.map.scatter.pushes cfg.threads = false := by
        rw [heos]
        exact decide_eq_false (Nat.not_lt.mpr hi)
      have hnone : s.map.scatterStep = none := hstuck .scatter
      show s.scatterStep inserted_delay later = none
      unfold scatterStep
      cases he : s.scattering with
      | loop =>
          simp only [hpushes, hnone]
          rfl
      | start =>
          have hphotos := hp.early (by rw [he]; rfl)
          rw [heos] at hphotos
          cases hphotos
      | completionStart =>
          have hphotos := hp.early (by rw [he]; rfl)
          rw [heos] at hphotos
          cases hphotos
      | delay d =>
          have hpush := (hp.delay d he).1
          rw [hpushes] at hpush
          cases hpush
      | stamp =>
          have hparts := (hp.stamp he).1
          rw [heos] at hparts
          cases hparts
  | worker i ms =>
      have hnone : s.map.workerStep i ms = none := hstuck (.worker i ms)
      show (s.map.workerStep i ms).map _ = none
      rw [hnone]
      rfl
  | collector =>
      show s.collectorStep later = none
      unfold collectorStep
      rw [if_pos hpoll, if_neg (Option.isSome_iff_ne_none.mp hcompleted)]

end Clocked

-- Where the collector is does not matter to the other threads.
theorem scatterStep_turn (s : State cfg) (poll : Poll cfg.threads) :
    (s.turn poll).scatterStep.isSome = s.scatterStep.isSome := by
  obtain ⟨memory, toWorker, toCollecter, done, counter, ideal, scatter, workers, collector,
    popped⟩ := s
  cases scatter with
  | photos left =>
      cases left with
      | nil => rfl
      | cons ii left =>
          simp only [State.scatterStep, State.turn]
          split <;> rfl
  | parts ii left v =>
      simp only [State.scatterStep, State.turn]
      split <;> rfl
  | eos i =>
      simp only [State.scatterStep, State.turn]
      split <;> rfl
  | divided => rfl

theorem workerStep_turn (s : State cfg) (poll : Poll cfg.threads) (i : Fin cfg.threads) (ms : ℤ) :
    ((s.turn poll).workerStep i ms).isSome = (s.workerStep i ms).isSome := by
  obtain ⟨memory, toWorker, toCollecter, done, counter, ideal, scatter, workers, collector,
    popped⟩ := s
  cases hw : workers i with
  | pop =>
      simp only [State.workerStep, State.turn, hw]
      split
      · rfl
      · split <;> rfl
  | mark ii t =>
      simp only [State.workerStep, State.turn, hw]
      split <;> rfl
  | _ => simp only [State.workerStep, State.turn, hw, Option.isSome_some, Option.isSome_none]

section Runs

variable {inserted_delay loaded : ℤ} {p : Clocked cfg × ℤ}

theorem stuck_iff (hn : 0 < cfg.threads) (hp : (clocked cfg inserted_delay loaded).Reachable p) :
    (clocked cfg inserted_delay loaded).Stuck p ↔ p.1.AllReturned := by
  constructor
  · intro hstuck
    by_contra hr
    obtain ⟨a, ha⟩ : ∃ a, (p.1.step inserted_delay p.2 a).isSome = true :=
      Clocked.goes_on hn (reachable_map hp) hr
    exact hstuck.not_enabled (a, p.2) (System.timed_enabled (Int.le_refl p.2) ha)
  · intro hr a
    rw [Option.eq_none_iff_forall_ne_some]
    intro q hq
    have hstep := (System.timed_step.mp hq).2.1
    rw [Clocked.step_eq_none (paced hp) hr] at hstep
    cases hstep

end Runs

/-- The thread alone, whatever it measures. -/
def Thread.forget {n : ℕ} : Thread n → Thread n
  | .worker i _ => .worker i 0
  | a => a

section Starved

variable {inserted_delay loaded : ℤ} {r : (clocked cfg inserted_delay loaded).InfiniteRun} {m : ℕ}

/-- From `m` on nothing happens but waiting. -/
def IdleFrom (r : (clocked cfg inserted_delay loaded).InfiniteRun) (m : ℕ) : Prop :=
  ∀ k, m ≤ k → Clocked.Idle inserted_delay (r.state (k + 1)).2 (r.action k).1 (r.state k).1
    (r.state (k + 1)).1

theorem exists_idleFrom (hn : 0 < cfg.threads)
    (r : (clocked cfg inserted_delay loaded).InfiniteRun) : ∃ m, IdleFrom r m := by
  have hle : ∀ (p : Clocked cfg × ℤ) (a : Thread cfg.threads × ℤ) (q : Clocked cfg × ℤ),
      Clocked.Idle inserted_delay q.2 a.1 p.1 q.1 → q.1.measure ≤ p.1.measure :=
    fun p a q h => h.measure_le
  exact r.idle_from hle fun p a q hp ha => by
    obtain ⟨_, hs, ht⟩ := System.timed_step.mp ha
    rw [ht]
    exact Clocked.measure_clockedStep (number_workers_nonneg hn) (reachable_map hp) hs

-- Only the collector moves, round and round.
theorem IdleFrom.same (h : IdleFrom r m) {k : ℕ} (hk : m ≤ k) :
    (r.state k).1.scattering = (r.state m).1.scattering ∧
      ∃ poll, (r.state k).1.map = (r.state m).1.map.turn poll := by
  induction k, hk using Nat.le_induction with
  | base => exact ⟨rfl, (r.state m).1.map.collector.poll, rfl⟩
  | succ k hk ih =>
      obtain ⟨hscattering, poll, hmap⟩ := ih
      rcases h k hk with ⟨_, start, _, _, heq⟩ | ⟨_, map, ⟨_, i, _, rfl⟩, heq⟩
      · rw [heq]
        exact ⟨hscattering, poll, hmap⟩
      · rw [heq]
        refine ⟨hscattering, Poll.next (r.state k).1.map.collector.counter i, ?_⟩
        show (r.state k).1.map.turn _ = _
        rw [hmap]
        rfl

-- If `scatter` waits, it is late at some time and does not get its turn any more.
theorem IdleFrom.scatter_starved (h : IdleFrom r m) (htime : r.TimePasses) {start : ℤ}
    (hs : (r.state m).1.scattering = .delay (.spin start)) :
    ∃ m', ∀ k, m' ≤ k → (r.action k).1.forget ≠ .scatter ∧
      (clocked cfg inserted_delay loaded).Enabled (r.state k) (.scatter, (r.state k).2) := by
  obtain ⟨n, hmn, hlate⟩ := htime.exists_late (start + (max inserted_delay 0 + 1) * 1000000) m
  refine ⟨n, fun k hk => ⟨fun hscatter => ?_, ?_⟩⟩
  · rcases h k (hmn.trans hk) with ⟨_, start', hspin, hearly, _⟩ | ⟨hcollector, _⟩
    · rw [(h.same (hmn.trans hk)).1, hs] at hspin
      cases hspin
      have hmono := r.time_mono (Nat.succ_le_succ hk)
      have hmono : (r.state (n + 1)).2 ≤ (r.state (k + 1)).2 := hmono
      omega
    · rw [hcollector] at hscatter
      cases hscatter
  · apply System.timed_enabled (Int.le_refl _)
    show ((r.state k).1.scatterStep inserted_delay (r.state k).2).isSome = true
    unfold Clocked.scatterStep
    rw [(h.same (hmn.trans hk)).1, hs]
    rfl

-- If it does not, the collector alone moves, and somebody else has something to do.
theorem IdleFrom.other_starved (h : IdleFrom r m) (hn : 0 < cfg.threads)
    (hs : ∀ start, (r.state m).1.scattering ≠ .delay (.spin start)) :
    ∃ x : Thread cfg.threads, x.forget = x ∧ x ≠ .collector ∧
      ∀ k, m ≤ k → (r.action k).1.forget ≠ x ∧
        (clocked cfg inserted_delay loaded).Enabled (r.state k) (x, (r.state k).2) := by
  have hcollector : ∀ k, m ≤ k → (r.action k).1 = .collector ∧ ¬(r.state k).1.map.Calls := by
    intro k hk
    rcases h k hk with ⟨_, start, hspin, _⟩ | ⟨ha, map, ⟨hcalls, _⟩, _⟩
    · rw [(h.same hk).1] at hspin
      exact absurd hspin (hs start)
    · exact ⟨ha, hcalls⟩
  obtain ⟨hempty, hcounter⟩ := not_or.mp (hcollector m (Nat.le_refl m)).2
  by_cases hscatter : (system cfg).Enabled (r.state m).1.map .scatter
  · refine ⟨.scatter, rfl, fun h => (by cases h), fun k hk => ⟨?_, ?_⟩⟩
    · rw [(hcollector k hk).1]
      exact fun h => (by cases h)
    · obtain ⟨_, poll, hmap⟩ := h.same hk
      apply System.timed_enabled (Int.le_refl _)
      apply Clocked.scatter_goes_on
      rw [hmap, scatterStep_turn]
      exact hscatter
  · have hworker : ∃ i, (system cfg).Enabled (r.state m).1.map (.worker i 0) := by
      by_contra hno
      refine hcounter (counter_of_others hn (reachable_map (r.reachable m)) hscatter
        (fun i hi => hno ⟨i, hi⟩) fun i => ?_).2.2
      by_contra hi
      exact hempty ⟨i, hi⟩
    obtain ⟨i, hi⟩ := hworker
    refine ⟨.worker i 0, rfl, fun h => (by cases h), fun k hk => ⟨?_, ?_⟩⟩
    · rw [(hcollector k hk).1]
      exact fun h => (by cases h)
    · obtain ⟨_, poll, hmap⟩ := h.same hk
      apply System.timed_enabled (Int.le_refl _)
      apply Clocked.worker_goes_on
      rw [hmap, workerStep_turn]
      exact hi

end Starved

/-- The clocked threads come to rest exactly when all of them have returned and the completion time
is set.  If they go on for ever and time passes, `scatter` or a worker could go on and never gets
its turn again, whatever it would measure. -/
theorem clocked_starves (cfg : Config) (inserted_delay loaded : ℤ) (hn : 1 ≤ cfg.number_workers) :
    (∀ p, (clocked cfg inserted_delay loaded).Reachable p →
      ((clocked cfg inserted_delay loaded).Stuck p ↔ p.1.AllReturned)) ∧
    ∀ r : (clocked cfg inserted_delay loaded).InfiniteRun, r.TimePasses →
      ∃ (m : ℕ) (x : Thread cfg.threads), x.forget = x ∧ x ≠ .collector ∧
        ∀ k, m ≤ k → (r.action k).1.forget ≠ x ∧
          (clocked cfg inserted_delay loaded).Enabled (r.state k) (x, (r.state k).2) := by
  have hthreads : 0 < cfg.threads := by
    unfold Config.threads
    omega
  refine ⟨fun p hp => stuck_iff hthreads hp, fun r htime => ?_⟩
  obtain ⟨m, hidle⟩ := exists_idleFrom hthreads r
  by_cases hspin : ∃ start, (r.state m).1.scattering = .delay (.spin start)
  · obtain ⟨start, hs⟩ := hspin
    obtain ⟨m', hstarved⟩ := hidle.scatter_starved htime hs
    exact ⟨m', .scatter, rfl, fun h => (by cases h), hstarved⟩
  · obtain ⟨x, hforget, hx, hstarved⟩ :=
      hidle.other_starved hthreads fun start hs => hspin ⟨start, hs⟩
    exact ⟨m, x, hforget, hx, hstarved⟩

/-- The collector looks at one queue after the other, once a nanosecond, and nobody else moves. -/
def sweeping (n : ℕ) : Clocked twoWorkers × ℤ :=
  ({ (clocked twoWorkers 5 0).init.1 with
    map := (system twoWorkers).init.turn (.isEmpty ⟨n % 2, Nat.mod_lt n Nat.two_pos⟩) }, n)

theorem next_sweeping (n : ℕ) :
    Poll.next 0 (⟨n % 2, Nat.mod_lt n Nat.two_pos⟩ : Fin twoWorkers.threads) =
      .isEmpty ⟨(n + 1) % 2, Nat.mod_lt (n + 1) Nat.two_pos⟩ := by
  have hthreads : twoWorkers.threads = 2 := rfl
  by_cases hlast : n % 2 + 1 < twoWorkers.threads
  · rw [Poll.next_of_lt hlast]
    exact congrArg _ (Fin.ext (by show n % 2 + 1 = (n + 1) % 2; omega))
  · rw [Poll.next_of_last hlast (by decide)]
    exact congrArg _ (Fin.ext (by show 0 = (n + 1) % 2; omega))

def sweepingRun : (clocked twoWorkers 5 0).InfiniteRun where
  state := sweeping
  action n := (.collector, n + 1)
  start := rfl
  next n := by
    apply System.timed_step.mpr
    refine ⟨by show (n : ℤ) ≤ n + 1; omega, ?_, rfl⟩
    have hstep : (sweeping n).1.map.collectorStep = some (sweeping (n + 1)).1.map := by
      have hskip := step_skip (s := (sweeping n).1.map) rfl rfl
      rw [show (sweeping n).1.map.collector.counter = 0 from rfl, next_sweeping] at hskip
      exact hskip
    show (sweeping n).1.collectorStep _ = some (sweeping (n + 1)).1
    unfold Clocked.collectorStep
    rw [if_neg (fun h => (by cases h)), hstep]
    rfl

theorem clocked_starves_sweeping :
    ∃ (m : ℕ) (x : Thread twoWorkers.threads), x.forget = x ∧ x ≠ .collector ∧
      ∀ k, m ≤ k → (sweepingRun.action k).1.forget ≠ x ∧
        (clocked twoWorkers 5 0).Enabled (sweepingRun.state k) (x, (sweepingRun.state k).2) := by
  apply (clocked_starves twoWorkers 5 0 (by decide)).2 sweepingRun
  intro b
  exact ⟨b.toNat, by show b ≤ (b.toNat : ℤ); omega⟩

end Watermark.Map
