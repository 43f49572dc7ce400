import Watermark.Map.Refinement

/-!
# Progress — map.cpp cannot get stuck

The collector never waits, so a run may go on for ever with empty polls.  `State.measure` is
decreased by every other step; a state in which only empty polls are left to do is one in which
the collector has all its marks.
-/

namespace Watermark.Map

open Function Reasoning

variable {cfg : Config}

/-- The collector is about to look at a queue that is empty. -/
def EmptyPoll (s : State cfg) (a : Action cfg.threads) : Prop :=
  a = .collector ∧ ∃ i, s.collector.poll = .isEmpty i ∧ (s.worker_to_collecter i).contents = []

/-! ## The measure -/

/-- Steps that scatter has left. -/
def Scatter.measure (n : ℕ) : Scatter → ℕ
  | .photos left => left.length * (n + 2) + n + 1
  | .parts _ left v => (n - v.i) + 1 + (left.length * (n + 2) + n + 1)
  | .eos i => n - i
  | .divided => 0

/-- Steps a worker has left with what it holds, and what its push is worth to the collector. -/
def Worker.measure : Worker → ℕ
  | .pop => 0
  | .mark _ t => t.fuel + 6
  | .test => 3
  | .stamp => 2
  | .bump => 1
  | .pushEos => 3
  | .returned => 0

/-- An upper bound on the accesses of the marking loop for a part. -/
def Config.accesses (cfg : Config) (ii : Image) : ℕ :=
  9 * (forPart (loadHeap cfg.copies ii.P_Pointer) ii.starting ii.total_parts).length

def tokenMeasure (cfg : Config) : Option Image → ℕ
  | some ii => cfg.accesses ii + 7
  | none => 4

def Poll.measure {n : ℕ} : Poll n → ℕ
  | .isEmpty _ => 1
  | _ => 0

namespace State

def laneMeasure (s : State cfg) (i : Fin cfg.threads) : ℕ :=
  (s.workers i).measure + ((s.inbound i).map (tokenMeasure cfg)).sum +
    2 * (s.worker_to_collecter i).contents.length

def measure (s : State cfg) : ℕ :=
  s.scatter.measure cfg.threads + s.collector.poll.measure + ∑ i, s.laneMeasure i

end State

theorem measure_scatterStep (hneg : 0 ≤ cfg.number_workers) {s t : State cfg}
    (hs : (system cfg).Reachable s) (h : ScatterStep s t) : t.measure < s.measure := by
  have hlanes : ∀ i, t.laneMeasure i = s.laneMeasure i := by
    intro i
    have hsame : t.worker_to_collecter = s.worker_to_collecter ∧ t.workers = s.workers := by
      cases h <;> exact ⟨rfl, rfl⟩
    unfold State.laneMeasure
    rw [inbound_scatterStep hneg hs h, hsame.1, hsame.2]
  have hpoll : t.collector = s.collector := by cases h <;> rfl
  have hscatter : t.scatter.measure cfg.threads < s.scatter.measure cfg.threads := by
    cases h with
    | last hs =>
        rw [hs]
        simp only [State.setScatter, Scatter.measure, List.length_nil]
        omega
    | divide hs hn =>
        rw [hs]
        simp only [State.setScatter, Scatter.measure]
        omega
    | enter hs hn =>
        rw [hs]
        simp only [State.setScatter, Scatter.measure, PartLoop.enter, List.length_cons,
          Nat.succ_mul]
        omega
    | @part ii left v hs h =>
        have hnext : v.body.2.i = v.i + 1 := rfl
        rw [hs]
        simp only [State.setScatter, Scatter.measure, hnext]
        omega
    | leave hs h =>
        rw [hs]
        simp only [State.setScatter, Scatter.measure]
        omega
    | eos hs h =>
        rw [hs]
        simp only [State.setScatter, Scatter.measure]
        omega
  have hsum : ∑ i, t.laneMeasure i = ∑ i, s.laneMeasure i :=
    Finset.sum_congr rfl fun i _ => hlanes i
  unfold State.measure
  rw [hpoll, hsum]
  omega

-- A worker's step is paid by its own lane.
theorem measure_setWorker {s s' : State cfg} {id : Fin cfg.threads} {w : Worker}
    (hworkers : s'.workers = s.workers) (hscatter : s'.scatter = s.scatter)
    (hcollector : s'.collector = s.collector)
    (hne : ∀ j, j ≠ id → s'.inbound j = s.inbound j ∧
      s'.worker_to_collecter j = s.worker_to_collecter j)
    (h : w.measure + ((s'.inbound id).map (tokenMeasure cfg)).sum +
      2 * (s'.worker_to_collecter id).contents.length < s.laneMeasure id) :
    (s'.setWorker id w).measure < s.measure := by
  have hself : (s'.setWorker id w).laneMeasure id < s.laneMeasure id := by
    change (update s'.workers id w id).measure + ((s'.inbound id).map (tokenMeasure cfg)).sum +
      2 * (s'.worker_to_collecter id).contents.length < _
    rwa [update_self]
  have hothers : ∑ j ∈ Finset.univ.erase id, (s'.setWorker id w).laneMeasure j =
      ∑ j ∈ Finset.univ.erase id, s.laneMeasure j := by
    refine Finset.sum_congr rfl fun j hj => ?_
    have hji := Finset.ne_of_mem_erase hj
    change (update s'.workers id w j).measure + ((s'.inbound j).map (tokenMeasure cfg)).sum +
      2 * (s'.worker_to_collecter j).contents.length = _
    rw [update_of_ne hji, hworkers, (hne j hji).1, (hne j hji).2]
    rfl
  have hsplit := sum_split (fun n : ℕ => n) (s'.setWorker id w).laneMeasure id
  have hsplit' := sum_split (fun n : ℕ => n) s.laneMeasure id
  have hpc : (s'.setWorker id w).scatter = s.scatter ∧
      (s'.setWorker id w).collector = s.collector := ⟨hscatter, hcollector⟩
  unfold State.measure
  rw [hpc.1, hpc.2]
  omega

theorem measure_workerStep {s t : State cfg} {id : Fin cfg.threads} {ms : ℤ}
    (hs : (system cfg).Reachable s) (h : WorkerStep s id ms t) : t.measure < s.measure := by
  cases h with
  | @popPart ii q hw hq =>
      refine measure_setWorker (by rfl) (by rfl) (by rfl) (fun j hj => ?_) ?_
      · simp only [State.inbound, update_of_ne hj, and_self]
      · -- the loop is as long as the part was when the photo was loaded
        have hlen := forPart_congr (dims hs ii.P_Pointer).1 ii.starting ii.total_parts
        simp only [State.laneMeasure, State.inbound, update_self, hq, hw, List.cons_append,
          List.map_cons, List.sum_cons, Worker.measure, tokenMeasure, Config.accesses,
          Marking.fuel_start, hlen]
        omega
  | @popEos q hw hq =>
      refine measure_setWorker (by rfl) (by rfl) (by rfl) (fun j hj => ?_) ?_
      · simp only [State.inbound, update_of_ne hj, and_self]
      · simp only [State.laneMeasure, State.inbound, update_self, hq, hw, List.cons_append,
          List.map_cons, List.sum_cons, Worker.measure, tokenMeasure]
        omega
  | @mark ii m m' memory hw hm =>
      refine measure_setWorker (by rfl) (by rfl) (by rfl) (fun j hj => ⟨rfl, rfl⟩) ?_
      have hfuel := Marking.fuel_step hm
      simp only [State.laneMeasure, State.inbound, hw, Worker.measure]
      omega
  | push hw hm =>
      refine measure_setWorker (by rfl) (by rfl) (by rfl) (fun j hj => ?_) ?_
      · simp only [State.forward, State.inbound, update_of_ne hj, and_self]
      · simp only [State.laneMeasure, State.forward, State.inbound, update_self, hw,
          Worker.measure, Queue.contents_push, List.length_append, List.length_singleton]
        omega
  | test hw h =>
      refine measure_setWorker (by rfl) (by rfl) (by rfl) (fun j hj => ⟨rfl, rfl⟩) ?_
      rcases h with rfl | rfl
      · simp only [State.laneMeasure, hw, Worker.measure]
        omega
      · simp only [State.laneMeasure, hw, Worker.measure]
        omega
  | stamp hw =>
      refine measure_setWorker (by rfl) (by rfl) (by rfl) (fun j hj => ⟨rfl, rfl⟩) ?_
      simp only [State.laneMeasure, State.inbound, hw, Worker.measure]
      omega
  | bump hw =>
      refine measure_setWorker (by rfl) (by rfl) (by rfl) (fun j hj => ⟨rfl, rfl⟩) ?_
      simp only [State.laneMeasure, State.inbound, hw, Worker.measure]
      omega
  | pushEos hw =>
      refine measure_setWorker (by rfl) (by rfl) (by rfl) (fun j hj => ?_) ?_
      · simp only [State.forward, State.inbound, update_of_ne hj, and_self]
      · simp only [State.laneMeasure, State.forward, State.inbound, update_self, hw,
          Worker.measure, Queue.contents_push, List.length_append, List.length_singleton]
        omega

theorem Poll.measure_le {n : ℕ} (p : Poll n) : p.measure ≤ 1 := by
  cases p <;> simp [measure]

-- Taking an element off the queue pays for the next round.
theorem measure_take {s : State cfg} {i : Fin cfg.threads} {ii : Option Image}
    {q : Queue (Option Image)} (hq : (s.worker_to_collecter i).contents = ii :: q.contents) :
    ((s.received i ii q).collect i ii).measure < s.measure := by
  have hlanes :
      ((s.received i ii q).collect i ii).laneMeasure = (s.received i ii q).laneMeasure := by
    cases ii <;> rfl
  have hscatter : ((s.received i ii q).collect i ii).scatter = s.scatter := by cases ii <;> rfl
  have hself : (s.received i ii q).laneMeasure i + 2 = s.laneMeasure i := by
    simp only [State.laneMeasure, State.received, State.inbound, update_self, hq,
      List.length_cons]
    omega
  have hothers : ∑ j ∈ Finset.univ.erase i, (s.received i ii q).laneMeasure j =
      ∑ j ∈ Finset.univ.erase i, s.laneMeasure j := by
    refine Finset.sum_congr rfl fun j hj => ?_
    simp only [State.laneMeasure, State.received, State.inbound,
      update_of_ne (Finset.ne_of_mem_erase hj)]
  have hsplit := sum_split (fun n : ℕ => n) (s.received i ii q).laneMeasure i
  have hsplit' := sum_split (fun n : ℕ => n) s.laneMeasure i
  have hpoll := ((s.received i ii q).collect i ii).collector.poll.measure_le
  unfold State.measure
  rw [hlanes, hscatter]
  omega

theorem measure_step (hneg : 0 ≤ cfg.number_workers) {s t : State cfg} {a : Action cfg.threads}
    (hs : (system cfg).Reachable s) (hne : ¬EmptyPoll s a) (h : (system cfg).step s a = some t) :
    t.measure < s.measure := by
  cases a with
  | scatter => exact measure_scatterStep hneg hs (scatterStep_cases h)
  | worker id ms => exact measure_workerStep hs (workerStep_cases h)
  | collector =>
      cases collectorStep_cases h with
      | @skip i hp hq => exact absurd ⟨rfl, i, hp, hq⟩ hne
      | @found i hp hq =>
          have hpoll : s.collector.poll.measure = 1 := by rw [hp]; rfl
          change s.scatter.measure cfg.threads + 0 + ∑ i, s.laneMeasure i < _
          unfold State.measure
          omega
      | take hp hq => exact measure_take hq

/-! ## Some thread can always go on -/

-- When only the collector can step and its queues are empty, it has its marks.
theorem counter_of_others (hn : 0 < cfg.threads) {s : State cfg} (hs : (system cfg).Reachable s)
    (hsc : ¬(system cfg).Enabled s .scatter) (hw : ∀ id, ¬(system cfg).Enabled s (.worker id 0))
    (hq : ∀ i, (s.worker_to_collecter i).contents = []) :
    s.ScatterReturned ∧ (∀ i, s.workers i = .returned) ∧ cfg.threads ≤ s.collector.counter := by
  have hneg := number_workers_nonneg hn
  have hscatter : s.ScatterReturned := by
    by_contra hr
    refine hsc (scatter_enabled (fun hd => ?_) hr)
    have hinv := scatterInv hneg hs
    unfold State.ScatterInv at hinv
    rw [hd] at hinv
    change cfg.number_workers = 0 at hinv
    rw [number_workers_eq hn] at hinv
    omega
  obtain ⟨m, hm, heos⟩ := hscatter
  have hworkers : ∀ i, s.workers i = .returned := by
    intro i
    by_contra hr
    refine hw i (worker_enabled 0 hr fun hpop hempty => ?_)
    -- a worker that waits for ever has an empty lane, so its mark is behind it
    have hfuture : ¬m ≤ (i : ℕ) := by omega
    have hrest : s.rest i = [] := by
      simp only [State.rest, State.inbound, hq i, hpop, hempty, heos, Worker.hand, Scatter.future,
        hfuture, if_false, List.append_nil]
    have hmark := (rest_eq_nil_iff hneg hs i).mp hrest
    have hpassed := passedInv hs i
    rw [hq i, List.append_nil, hmark, hpop] at hpassed
    exact Nat.one_ne_zero hpassed
  refine ⟨⟨m, hm, heos⟩, hworkers, ?_⟩
  have hmark : ∀ i, marks (s.popped i) = 1 := by
    intro i
    have hpassed := passedInv hs i
    rwa [hq i, List.append_nil, hworkers i] at hpassed
  rw [(countInv hneg hs).counter, Finset.sum_congr rfl fun i _ => hmark i, Finset.sum_const,
    Finset.card_univ, Fintype.card_fin, smul_eq_mul, mul_one]

theorem step_skip {s : State cfg} {i : Fin cfg.threads} (hp : s.collector.poll = .isEmpty i)
    (hq : (s.worker_to_collecter i).contents = []) :
    (system cfg).step s .collector = some { s with
      collector := { s.collector with poll := Poll.next s.collector.counter i } } := by
  change s.collectorStep = _
  unfold State.collectorStep
  rw [hp]
  simp only [Queue.isEmpty_iff.mpr hq, if_true]

-- Three places the collector can go after round `i` of its `for` loop.
theorem Poll.next_of_lt {n counter : ℕ} {i : Fin n} (h : (i : ℕ) + 1 < n) :
    Poll.next counter i = .isEmpty ⟨i + 1, h⟩ := by
  unfold Poll.next
  rw [dif_pos h]

theorem Poll.next_of_last {n counter : ℕ} {i : Fin n} (h : ¬(i : ℕ) + 1 < n) (hc : counter < n) :
    Poll.next counter i = .isEmpty ⟨0, Nat.zero_lt_of_lt hc⟩ := by
  unfold Poll.next Poll.whileTest
  rw [dif_neg h, dif_pos hc]

theorem Poll.next_of_end {n counter : ℕ} {i : Fin n} (h : ¬(i : ℕ) + 1 < n) (hc : ¬counter < n) :
    Poll.next counter i = .returned := by
  unfold Poll.next Poll.whileTest
  rw [dif_neg h, dif_neg hc]

-- The collector's last sweep, from queue `i` on.
theorem finish_sweep {s : State cfg} (hsc : s.ScatterReturned) (hw : ∀ i, s.workers i = .returned)
    (hc : cfg.threads ≤ s.collector.counter)
    (hq : ∀ i, (s.worker_to_collecter i).contents = []) {i : Fin cfg.threads}
    (hp : s.collector.poll = .isEmpty i) (left : ℕ) (hleft : i + left + 1 = cfg.threads) :
    ∃ t, (system cfg).exec s (List.replicate (left + 1) .collector) = some t ∧ t.AllReturned := by
  induction left generalizing s i with
  | zero =>
      have hlast : Poll.next s.collector.counter i = .returned :=
        Poll.next_of_end (by omega) (Nat.not_lt.mpr hc)
      refine ⟨{ s with collector := { s.collector with poll := .returned } }, ?_, hsc, hw, rfl⟩
      change ((system cfg).step s .collector).bind _ = _
      rw [step_skip hp (hq i), hlast]
      rfl
  | succ left ih =>
      have hi : (i : ℕ) + 1 < cfg.threads := by omega
      have hnext : Poll.next s.collector.counter i = .isEmpty ⟨i + 1, hi⟩ := Poll.next_of_lt hi
      let u : State cfg := { s with
        collector := { s.collector with poll := .isEmpty ⟨i + 1, hi⟩ } }
      have hstep : (system cfg).step s .collector = some u := by
        rw [step_skip hp (hq i), hnext]
      obtain ⟨t, ht, hr⟩ := ih (s := u) hsc hw hc hq rfl (by simp only; omega)
      refine ⟨t, ?_, hr⟩
      change ((system cfg).step s .collector).bind _ = _
      rw [hstep]
      exact ht

/-- The collector has as many marks as there are workers and is in its last sweep: its next steps
alone end the run. -/
def State.LastSweep (s : State cfg) : Prop :=
  (s.collector.counter : ℤ) = cfg.number_workers ∧
    ∃ i left, s.collector.poll = .isEmpty i ∧ (i : ℕ) + left = cfg.threads ∧
      ∃ t, (system cfg).exec s (List.replicate left .collector) = some t ∧ t.AllReturned

theorem progress (hn : 0 < cfg.threads) {s : State cfg} (hs : (system cfg).Reachable s)
    (hr : ¬s.AllReturned) :
    (∃ a, a ≠ .collector ∧ (system cfg).Enabled s a) ∨
    (∃ i, (s.worker_to_collecter i).contents ≠ []) ∨ s.LastSweep := by
  by_cases ha : ∃ a, a ≠ .collector ∧ (system cfg).Enabled s a
  · exact Or.inl ha
  by_cases hq : ∃ i, (s.worker_to_collecter i).contents ≠ []
  · exact Or.inr (Or.inl hq)
  have hempty : ∀ i, (s.worker_to_collecter i).contents = [] := by
    intro i
    by_contra hne
    exact hq ⟨i, hne⟩
  obtain ⟨hsc, hw, hc⟩ := counter_of_others hn hs (fun he => ha ⟨.scatter, by simp, he⟩)
    (fun id he => ha ⟨.worker id 0, by simp, he⟩) hempty
  have hcount := (counter_le (number_workers_nonneg hn) hs).antisymm hc
  refine Or.inr (Or.inr ⟨by rw [hcount, number_workers_eq hn], ?_⟩)
  cases hp : s.collector.poll with
  | isEmpty i =>
      have hi := i.isLt
      have hleft : (i : ℕ) + (cfg.threads - i - 1) + 1 = cfg.threads := by omega
      obtain ⟨t, ht, hret⟩ := finish_sweep hsc hw hc hempty hp _ hleft
      exact ⟨i, cfg.threads - i - 1 + 1, rfl, by omega, t, ht, hret⟩
  | pop i => exact absurd (hempty i) ((pollInv hs).pop i hp)
  | returned => exact absurd ⟨hsc, hw, hp⟩ hr

/-! ## How runs end -/

-- The collector has counted one mark from each lane.
theorem marks_returned (hneg : 0 ≤ cfg.number_workers) {s : State cfg}
    (hs : (system cfg).Reachable s) (hr : s.AllReturned) :
    s.collector.counter = cfg.threads ∧ ∀ i, marks (s.popped i) = 1 := by
  have hc := (pollInv hs).returned hr.2.2
  exact ⟨(counter_le hneg hs).antisymm hc, marks_of_counter hneg hs hc⟩

-- Nobody is left behind by a collector that has returned.
theorem returned_of_collector (hn : 0 < cfg.threads) {s : State cfg} (hs : (system cfg).Reachable s)
    (hsc : ¬(system cfg).Enabled s .scatter) (hw : ∀ id, ¬(system cfg).Enabled s (.worker id 0))
    (hp : s.collector.poll = .returned) : s.AllReturned := by
  have hrest := rest_of_counter (number_workers_nonneg hn) hs ((pollInv hs).returned hp)
  have hempty : ∀ i, (s.worker_to_collecter i).contents = [] :=
    fun i => (queues_of_rest (hrest i)).2
  obtain ⟨hscatter, hworkers, _⟩ := counter_of_others hn hs hsc hw hempty
  exact ⟨hscatter, hworkers, hp⟩

theorem stuck_of_returned {s : State cfg} (h : s.AllReturned) : (system cfg).Stuck s := by
  obtain ⟨⟨i, hi, heos⟩, hworkers, hpoll⟩ := h
  intro a
  cases a with
  | scatter =>
      show s.scatterStep = none
      unfold State.scatterStep
      rw [heos]
      exact dif_neg (Nat.not_lt.mpr hi)
  | worker id ms =>
      show s.workerStep id ms = none
      unfold State.workerStep
      rw [hworkers id]
  | collector =>
      show s.collectorStep = none
      unfold State.collectorStep
      rw [hpoll]

theorem returned_of_stuck (hn : 0 < cfg.threads) {s : State cfg} (hs : (system cfg).Reachable s)
    (hstuck : (system cfg).Stuck s) : s.AllReturned := by
  have hp : s.collector.poll = .returned := by
    by_contra hp
    exact hstuck.not_enabled _ (collector_enabled hp (pollInv hs).pop)
  exact returned_of_collector hn hs (hstuck.not_enabled _) (fun id => hstuck.not_enabled _) hp

/-! ## The end can always be reached -/

/-- Rounds of the `for` loop before the collector comes to a queue that is not empty. -/
def State.distance (s : State cfg) : ℕ :=
  match s.collector.poll with
  | .isEmpty i => cfg.threads - i +
      if ∃ j, i ≤ j ∧ (s.worker_to_collecter j).contents ≠ [] then 0 else cfg.threads
  | _ => 0

def State.potential (s : State cfg) : ℕ := (2 * cfg.threads + 1) * s.measure + s.distance

theorem distance_le (s : State cfg) : s.distance ≤ 2 * cfg.threads := by
  unfold State.distance
  split
  · split <;> omega
  · omega

theorem potential_lt {s t : State cfg} (h : t.measure < s.measure) : t.potential < s.potential := by
  have hmul : (2 * cfg.threads + 1) * (t.measure + 1) ≤ (2 * cfg.threads + 1) * s.measure :=
    Nat.mul_le_mul_left _ h
  have hle := distance_le t
  rw [Nat.mul_add, Nat.mul_one] at hmul
  unfold State.potential
  omega

theorem distance_skip {s : State cfg} {i : Fin cfg.threads} (hp : s.collector.poll = .isEmpty i)
    (hq : (s.worker_to_collecter i).contents = [])
    (h : (∃ j, (s.worker_to_collecter j).contents ≠ []) ∨ cfg.threads ≤ s.collector.counter) :
    ({ s with collector := { s.collector with poll := Poll.next s.collector.counter i } } :
      State cfg).distance < s.distance := by
  have hi := i.isLt
  unfold State.distance
  rw [hp]
  by_cases hlast : (i : ℕ) + 1 < cfg.threads
  · -- the queue just seen was empty, so nothing is missed
    have hsame : (∃ j, (⟨i + 1, hlast⟩ : Fin cfg.threads) ≤ j ∧
        (s.worker_to_collecter j).contents ≠ []) ↔
        ∃ j, i ≤ j ∧ (s.worker_to_collecter j).contents ≠ [] := by
      constructor
      · rintro ⟨j, hj, hne⟩
        exact ⟨j, Nat.le_of_succ_le hj, hne⟩
      · rintro ⟨j, hj, hne⟩
        refine ⟨j, Nat.lt_of_le_of_ne hj fun heq => hne ?_, hne⟩
        rw [← Fin.ext heq]
        exact hq
    simp only [Poll.next_of_lt hlast, hsame]
    omega
  · have hnone : ¬∃ j, i ≤ j ∧ (s.worker_to_collecter j).contents ≠ [] := by
      rintro ⟨j, hj, hne⟩
      have hji : i = j := by
        have hj' : (i : ℕ) ≤ j := hj
        have hlt := j.isLt
        exact Fin.ext (by omega)
      exact hne (hji ▸ hq)
    simp only [hnone, if_false]
    by_cases hc : s.collector.counter < cfg.threads
    · -- the next sweep begins at queue 0 and finds the element
      obtain ⟨j, hj⟩ := h.resolve_right (Nat.not_le.mpr hc)
      have hsome : ∃ j, (⟨0, Nat.zero_lt_of_lt hc⟩ : Fin cfg.threads) ≤ j ∧
          (s.worker_to_collecter j).contents ≠ [] := ⟨j, Nat.zero_le _, hj⟩
      simp only [Poll.next_of_last hlast hc, hsome, if_true]
      omega
    · simp only [Poll.next_of_end hlast hc]
      omega

-- An empty poll brings the collector closer to the next element, or to its return.
theorem potential_skip {s : State cfg} {i : Fin cfg.threads} (hp : s.collector.poll = .isEmpty i)
    (hq : (s.worker_to_collecter i).contents = [])
    (h : (∃ j, (s.worker_to_collecter j).contents ≠ []) ∨ cfg.threads ≤ s.collector.counter) :
    ({ s with collector := { s.collector with poll := Poll.next s.collector.counter i } } :
      State cfg).potential < s.potential := by
  have hmeasure : ({ s with collector := { s.collector with
      poll := Poll.next s.collector.counter i } } : State cfg).measure ≤ s.measure := by
    have hone : s.collector.poll.measure = 1 := by
      rw [hp]
      rfl
    have hle := (Poll.next s.collector.counter i).measure_le
    change s.scatter.measure cfg.threads + (Poll.next s.collector.counter i).measure +
      ∑ j, s.laneMeasure j ≤ s.scatter.measure cfg.threads + s.collector.poll.measure +
        ∑ j, s.laneMeasure j
    omega
  have hdistance := distance_skip hp hq h
  have hmul := Nat.mul_le_mul_left (2 * cfg.threads + 1) hmeasure
  unfold State.potential
  omega

-- From every reachable state some interleaving lets all threads return.
theorem reaches_end (hn : 0 < cfg.threads) {s : State cfg} (hs : (system cfg).Reachable s) :
    ∃ t, (system cfg).Reachable t ∧ t.AllReturned := by
  refine hs.exists_goal (μ := State.potential) fun s hs hr => ?_
  have hneg := number_workers_nonneg hn
  -- one step that is not an empty poll is enough
  have hstep : ∀ a, (system cfg).Enabled s a → ¬EmptyPoll s a →
      ∃ as t, (system cfg).exec s as = some t ∧ t.potential < s.potential := by
    intro a ha hne
    obtain ⟨t, ht⟩ := System.enabled_iff.mp ha
    refine ⟨[a], t, ?_, potential_lt (measure_step hneg hs hne ht)⟩
    change ((system cfg).step s a).bind _ = _
    rw [ht]
    rfl
  by_cases ha : ∃ a, a ≠ .collector ∧ (system cfg).Enabled s a
  · obtain ⟨a, hne, ha⟩ := ha
    exact hstep a ha fun he => hne he.1
  have hmore : (∃ j, (s.worker_to_collecter j).contents ≠ []) ∨
      cfg.threads ≤ s.collector.counter := by
    refine ((progress hn hs hr).resolve_left ha).imp_right fun hlast => ?_
    have hcount := hlast.1
    rw [number_workers_eq hn] at hcount
    omega
  have hp : s.collector.poll ≠ .returned := by
    intro hp
    exact hr (returned_of_collector hn hs (fun he => ha ⟨.scatter, by simp, he⟩)
      (fun id he => ha ⟨.worker id 0, by simp, he⟩) hp)
  by_cases hpoll : EmptyPoll s .collector
  · obtain ⟨_, i, hi, hq⟩ := hpoll
    refine ⟨[.collector], _, ?_, potential_skip hi hq hmore⟩
    change ((system cfg).step s .collector).bind _ = _
    rw [step_skip hi hq]
    rfl
  · exact hstep .collector (collector_enabled hp (pollInv hs).pop) hpoll

/-- The collector's `pop` never waits, no state is a dead end, only empty polls fail to decrease
the measure, and a run that does not poll for ever ends with all marks counted. -/
theorem never_stuck (cfg : Config) (hn : 1 ≤ cfg.number_workers) :
    (∀ s, (system cfg).Reachable s → ∀ i, s.collector.poll = .pop i →
      (s.worker_to_collecter i).contents ≠ []) ∧
    (∀ s, (system cfg).Reachable s → ¬s.AllReturned →
      (∃ a, a ≠ .collector ∧ (system cfg).Enabled s a) ∨
      (∃ i, (s.worker_to_collecter i).contents ≠ []) ∨ s.LastSweep) ∧
    (∀ s a t, (system cfg).Reachable s → ¬EmptyPoll s a → (system cfg).step s a = some t →
      t.measure < s.measure) ∧
    (∀ (r : (system cfg).InfiniteRun) (m : ℕ), ∃ k, m ≤ k ∧ EmptyPoll (r.state k) (r.action k)) ∧
    (∀ s, (system cfg).Reachable s → (system cfg).Stuck s → s.AllReturned ∧
      (s.collector.counter : ℤ) = cfg.number_workers ∧ ∀ i, marks (s.popped i) = 1) := by
  have hpos : 0 < cfg.threads := by
    unfold Config.threads
    omega
  have hneg := number_workers_nonneg hpos
  refine ⟨fun s hs => (pollInv hs).pop, fun s hs hr => progress hpos hs hr,
    fun s a t hs hne ha => measure_step hneg hs hne ha,
    fun r m => r.idle_infinitely_often (fun s a t hs hne ha => measure_step hneg hs hne ha) m,
    fun s hs hstuck => ?_⟩
  have hr := returned_of_stuck hpos hs hstuck
  obtain ⟨hcount, hmarks⟩ := marks_returned hneg hs hr
  exact ⟨hr, by rw [hcount, number_workers_eq hpos], hmarks⟩

/-- The first worker has not finished with the pixel of its part. -/
def marking : State twoWorkers :=
  ((system twoWorkers).exec (system twoWorkers).init (twoWorkersRun.take 12)).get
    (by decide +kernel)

/-- The collector has seen that the queue of the first worker is not empty. -/
def polled : State twoWorkers :=
  ((system twoWorkers).exec (system twoWorkers).init (twoWorkersRun.take 29)).get
    (by decide +kernel)

theorem never_stuck_twoWorkers :
    (∃ a, a ≠ .collector ∧ (system twoWorkers).Enabled marking a) ∧
      (polled.worker_to_collecter ⟨0, Nat.two_pos⟩).contents ≠ [] ∧
      (twoWorkersEnd.collector.counter : ℤ) = 2 ∧ ∀ i, marks (twoWorkersEnd.popped i) = 1 := by
  obtain ⟨hpop, hprogress, _, _, hend⟩ := never_stuck twoWorkers (by decide)
  refine ⟨?_, hpop polled (System.reachable_get _) _ (by decide +kernel), ?_⟩
  · have hempty : ∀ i, (marking.worker_to_collecter i).contents = [] := by decide +kernel
    have hpoll : marking.collector.counter = 0 ∧ marking.collector.poll ≠ .returned := by
      decide +kernel
    rcases hprogress marking (System.reachable_get _) (fun hr => hpoll.2 hr.2.2) with
      ha | ⟨i, hi⟩ | hlast
    · exact ha
    · exact absurd (hempty i) hi
    · have hcounter := hlast.1
      rw [hpoll.1] at hcounter
      exact absurd hcounter (by decide)
  · have hreturned : twoWorkersEnd.AllReturned :=
      ⟨⟨2, le_refl 2, by decide +kernel⟩, by decide +kernel, by decide +kernel⟩
    exact (hend twoWorkersEnd twoWorkersEnd_reachable (stuck_of_returned hreturned)).2

end Watermark.Map
