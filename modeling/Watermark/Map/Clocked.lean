import Watermark.Map.Progress
import Watermark.Reasoning.Timed
import Watermark.Util.ActiveDelay

/-!
# Clocked — map.cpp and the clock its threads read

`scatter` waits in `active_delay` before each push, of a part or of an EOS, and measures the time
to the first one; the collector measures the completion time.  What a worker measures is left to
the environment, as in `Map.Model`.
-/

namespace Watermark.Map

open Function Reasoning

/-- `scatter`, between two steps of `Map.Model`. -/
inductive Scattering where
  -- `auto start_scatter = ...`
  | start
  -- `completion_time_start = ...`
  | completionStart
  -- at the head of a loop
  | loop
  -- in `active_delay(inserted_delay)`, or at the push behind it
  | delay (d : Delay)
  -- `if(counter==0)`
  | stamp
deriving DecidableEq

structure Clocked (cfg : Config) where
  map : State cfg
  scattering : Scattering
  start_scatter : ℤ
  counter : ℕ
  completion_time_start : ℤ
  inter_arival_time : ℤ
  completion_time : Option ℤ

inductive Thread (n : ℕ) where
  | scatter
  | worker (i : Fin n) (ms : ℤ)
  | collector
deriving DecidableEq

namespace Scatter

/-- In the body of a loop that pushes. -/
def pushes (n : ℕ) : Scatter → Bool
  | .parts _ _ v => v.i < n
  | .eos i => i < n
  | _ => false

/-- In the loops over the photos. -/
def inParts : Scatter → Bool
  | .parts _ _ _ => true
  | _ => false

end Scatter

variable {cfg : Config}

namespace Clocked

/-- `scatter` -/
def scatterStep (inserted_delay now : ℤ) (s : Clocked cfg) : Option (Clocked cfg) :=
  match s.scattering with
  | .start => some { s with start_scatter := now, scattering := .completionStart }
  | .completionStart => some { s with completion_time_start := now, scattering := .loop }
  | .loop =>
    if s.map.scatter.pushes cfg.threads then some { s with scattering := .delay .called }
    else s.map.scatterStep.map fun map => { s with map, scattering := .loop }
  | .delay d =>
    match d.read inserted_delay now with
    | some d => some { s with scattering := .delay d }
    | none => s.map.scatterStep.map fun map => { s with
        map
        scattering := if s.map.scatter.inParts then .stamp else .loop }
  | .stamp =>
    if s.counter = 0 then some { s with
      inter_arival_time := s.inter_arival_time + milliseconds (now - s.start_scatter)
      counter := s.counter + 1
      scattering := .loop }
    else some { s with scattering := .loop }

/-- `worker` -/
def workerStep (s : Clocked cfg) (i : Fin cfg.threads) (ms : ℤ) : Option (Clocked cfg) :=
  (s.map.workerStep i ms).map fun map => { s with map }

/-- `collector` -/
def collectorStep (now : ℤ) (s : Clocked cfg) : Option (Clocked cfg) :=
  if s.map.collector.poll = .returned then
    if s.completion_time = none then
      some { s with completion_time := some (milliseconds (now - s.completion_time_start)) }
    else none
  else s.map.collectorStep.map fun map => { s with map }

def step (inserted_delay now : ℤ) (s : Clocked cfg) : Thread cfg.threads → Option (Clocked cfg)
  | .scatter => s.scatterStep inserted_delay now
  | .worker i ms => s.workerStep i ms
  | .collector => s.collectorStep now

/-- `main` gets past its joins. -/
def AllReturned (s : Clocked cfg) : Prop := s.map.AllReturned ∧ s.completion_time.isSome = true

end Clocked

/-- The threads as `main` starts them; `loaded` is the reading with which `completion_time_start` is
initialised. -/
def clocked (cfg : Config) (inserted_delay loaded : ℤ) :
    System (Clocked cfg × ℤ) (Thread cfg.threads × ℤ) :=
  System.timed {
    map := (system cfg).init
    scattering := .start
    start_scatter := loaded
    counter := 0
    completion_time_start := loaded
    inter_arival_time := 0
    completion_time := none } loaded (Clocked.step inserted_delay)

/-! ## What a step can do -/

/-- The steps of `scatter`. -/
inductive ScatteringStep (inserted_delay now : ℤ) (s : Clocked cfg) : Clocked cfg → Prop where
  | start (he : s.scattering = .start) :
      ScatteringStep inserted_delay now s
        { s with start_scatter := now, scattering := .completionStart }
  | completionStart (he : s.scattering = .completionStart) :
      ScatteringStep inserted_delay now s
        { s with completion_time_start := now, scattering := .loop }
  | call (he : s.scattering = .loop) (hp : s.map.scatter.pushes cfg.threads = true) :
      ScatteringStep inserted_delay now s { s with scattering := .delay .called }
  | loop {map : State cfg} (he : s.scattering = .loop)
      (hp : s.map.scatter.pushes cfg.threads = false)
      (hm : s.map.scatterStep = some map) :
      ScatteringStep inserted_delay now s { s with map, scattering := .loop }
  | read {d d' : Delay} (he : s.scattering = .delay d) (hd : d.read inserted_delay now = some d') :
      ScatteringStep inserted_delay now s { s with scattering := .delay d' }
  | push {map : State cfg} (he : s.scattering = .delay .returned)
      (hm : s.map.scatterStep = some map) :
      ScatteringStep inserted_delay now s { s with
        map
        scattering := if s.map.scatter.inParts then .stamp else .loop }
  | first (he : s.scattering = .stamp) (hc : s.counter = 0) :
      ScatteringStep inserted_delay now s { s with
        inter_arival_time := s.inter_arival_time + milliseconds (now - s.start_scatter)
        counter := s.counter + 1
        scattering := .loop }
  | next (he : s.scattering = .stamp) (hc : s.counter ≠ 0) :
      ScatteringStep inserted_delay now s { s with scattering := .loop }

/-- The steps of `collector`. -/
inductive CollectingStep (now : ℤ) (s : Clocked cfg) : Clocked cfg → Prop where
  | collect {map : State cfg} (hm : s.map.collectorStep = some map) :
      CollectingStep now s { s with map }
  | complete (hp : s.map.collector.poll = .returned) (hnone : s.completion_time = none) :
      CollectingStep now s
        { s with completion_time := some (milliseconds (now - s.completion_time_start)) }

theorem scatteringStep_cases {s t : Clocked cfg} {inserted_delay now : ℤ}
    (h : s.scatterStep inserted_delay now = some t) : ScatteringStep inserted_delay now s t := by
  unfold Clocked.scatterStep at h
  cases he : s.scattering with
  | start =>
      simp only [he, Option.some.injEq] at h
      subst h
      exact .start he
  | completionStart =>
      simp only [he, Option.some.injEq] at h
      subst h
      exact .completionStart he
  | loop =>
      simp only [he] at h
      cases hp : s.map.scatter.pushes cfg.threads with
      | true =>
          simp only [hp, if_true, Option.some.injEq] at h
          subst h
          exact .call he hp
      | false =>
          simp only [hp, Bool.false_eq_true, if_false, Option.map_eq_some_iff] at h
          obtain ⟨map, hm, rfl⟩ := h
          exact .loop he hp hm
  | delay d =>
      cases hd : d.read inserted_delay now with
      | some d' =>
          simp only [he, hd, Option.some.injEq] at h
          subst h
          exact .read he hd
      | none =>
          simp only [he, hd, Option.map_eq_some_iff] at h
          obtain ⟨map, hm, rfl⟩ := h
          exact .push (he.trans (congrArg _ (Delay.eq_returned_of_read hd))) hm
  | stamp =>
      simp only [he] at h
      split at h
      · rename_i hc
        cases h
        exact .first he hc
      · rename_i hc
        cases h
        exact .next he hc

theorem collectingStep_cases {s t : Clocked cfg} {now : ℤ} (h : s.collectorStep now = some t) :
    CollectingStep now s t := by
  unfold Clocked.collectorStep at h
  split at h
  · rename_i hp
    rw [Option.ite_none_right_eq_some] at h
    obtain ⟨hnone, h⟩ := h
    cases h
    exact .complete hp hnone
  · obtain ⟨map, hm, rfl⟩ := Option.map_eq_some_iff.mp h
    exact .collect hm

/-! ## Without the readings -/

-- A step is a step of the threads of `Map.Model`, or only a reading.
theorem map_step {s t : Clocked cfg} {inserted_delay now : ℤ} {a : Thread cfg.threads}
    (h : s.step inserted_delay now a = some t) :
    t.map = s.map ∨ ∃ b, (system cfg).step s.map b = some t.map := by
  cases a with
  | scatter =>
      cases scatteringStep_cases h with
      | loop he hp hm => exact Or.inr ⟨.scatter, hm⟩
      | push he hm => exact Or.inr ⟨.scatter, hm⟩
      | _ => exact Or.inl rfl
  | worker i ms =>
      obtain ⟨map, hm, rfl⟩ := Option.map_eq_some_iff.mp h
      exact Or.inr ⟨.worker i ms, hm⟩
  | collector =>
      cases collectingStep_cases h with
      | collect hm => exact Or.inr ⟨.collector, hm⟩
      | complete hp hnone => exact Or.inl rfl

theorem reachable_map {inserted_delay loaded : ℤ} {p : Clocked cfg × ℤ}
    (hp : (clocked cfg inserted_delay loaded).Reachable p) : (system cfg).Reachable p.1.map :=
  hp.untimed (f := Clocked.map) rfl fun _ _ _ _ h => map_step h

/-! ## What the other threads leave alone -/

theorem scatter_of_workerStep {s t : State cfg} {i : Fin cfg.threads} {ms : ℤ}
    (h : WorkerStep s i ms t) : t.scatter = s.scatter := by
  cases h <;> rfl

theorem scatter_of_collectorStep {s t : State cfg} (h : CollectorStep s t) :
    t.scatter = s.scatter := by
  cases h with
  | @take i ii q hp hq => cases ii <;> rfl
  | _ => rfl

theorem collector_of_scatterStep {s t : State cfg} (h : ScatterStep s t) :
    t.collector = s.collector := by
  cases h <;> rfl

theorem collector_of_workerStep {s t : State cfg} {i : Fin cfg.threads} {ms : ℤ}
    (h : WorkerStep s i ms t) : t.collector = s.collector := by
  cases h <;> rfl

/-! ## What scatter has left to push -/

/-- The pushes scatter has left. -/
def Scatter.left (n : ℕ) : Scatter → ℕ
  | .photos left => left.length * n + n
  | .parts _ left v => (n - v.i) + (left.length * n + n)
  | .eos i => n - i
  | .divided => 0

theorem left_of_push {s t : State cfg} (hp : s.scatter.pushes cfg.threads = true)
    (h : ScatterStep s t) :
    t.scatter.left cfg.threads + 1 = s.scatter.left cfg.threads ∧
      (s.scatter.inParts = true → t.scatter.inParts = true) ∧
      (s.scatter.inParts = false → ∃ i, s.scatter = .eos i ∧ i < cfg.threads) := by
  cases h with
  | last hs => rw [hs] at hp; cases hp
  | divide hs hn => rw [hs] at hp; cases hp
  | enter hs hn => rw [hs] at hp; cases hp
  | @part ii left v hs hv =>
      rw [hs]
      refine ⟨?_, fun _ => rfl, fun h => (by cases h)⟩
      show (cfg.threads - (v.i + 1)) + (left.length * cfg.threads + cfg.threads) + 1 =
        (cfg.threads - v.i) + (left.length * cfg.threads + cfg.threads)
      omega
  | leave hs hv =>
      rw [hs] at hp
      exact absurd (of_decide_eq_true hp) hv
  | @eos i hs hi =>
      rw [hs]
      refine ⟨?_, fun h => (by cases h), fun _ => ⟨i, rfl, hi⟩⟩
      show cfg.threads - (i + 1) + 1 = cfg.threads - i
      omega

theorem left_of_loop {s t : State cfg} (hp : s.scatter.pushes cfg.threads = false)
    (h : ScatterStep s t) :
    t.scatter.left cfg.threads = s.scatter.left cfg.threads := by
  cases h with
  | last hs =>
      rw [hs]
      show cfg.threads - 0 = 0 * cfg.threads + cfg.threads
      omega
  | @divide ii left hs hn =>
      rw [hs]
      have hzero : cfg.threads = 0 := by
        unfold Config.threads
        omega
      show 0 = (ii :: left).length * cfg.threads + cfg.threads
      rw [hzero, Nat.mul_zero]
  | @enter ii left hs hn =>
      rw [hs]
      show (cfg.threads - 0) + (left.length * cfg.threads + cfg.threads) =
        (left.length + 1) * cfg.threads + cfg.threads
      rw [Nat.add_mul]
      omega
  | part hs hv =>
      rw [hs] at hp
      exact absurd (decide_eq_true hv) (by rw [← Bool.not_eq_true] at hp; exact hp)
  | @leave ii left v hs hv =>
      rw [hs]
      show left.length * cfg.threads + cfg.threads =
        (cfg.threads - v.i) + (left.length * cfg.threads + cfg.threads)
      omega
  | eos hs hi =>
      rw [hs] at hp
      exact absurd (decide_eq_true hi) (by rw [← Bool.not_eq_true] at hp; exact hp)

end Watermark.Map
