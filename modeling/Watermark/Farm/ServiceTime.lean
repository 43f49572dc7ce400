import Watermark.Farm.Progress

/-!
# ServiceTime — when farm.cpp measures its ideal service time

A worker increments `counter_worker` before its pixel loop and stores a time span if the counter is
1 when it comes out.  The span is stored at most once, and it is lost when a second worker counts
its photo before the first has looked.
-/

namespace Watermark.Farm

open Function Reasoning

variable {cfg : Config}

/-- The time span a step of `Worker_Farm` stores in `ideal_service_time_worker`. -/
def State.measured (s : State cfg) : Action cfg.threads → List ℤ
  | .worker i ms => if s.workers i = .stamp then [ms] else []
  | _ => []

/-- farm.cpp, with the spans that are stored written down. -/
abbrev timed (cfg : Config) : System (State cfg × List ℤ) (Action cfg.threads) :=
  (system cfg).record State.measured

/-- One execution of the loop body has taken the branch, and `main` prints what it has measured. -/
def ServiceTimeMeasured (p : State cfg × List ℤ) : Prop :=
  p.1.stamps = 1 ∧ p.2 = [p.1.ideal_service_time_worker]

namespace Worker

/-- Between the increment of `counter_worker` and the test. -/
def untested : Worker → ℕ
  | .mark _ _ => 1
  | .test => 1
  | _ => 0

def marking : Worker → ℕ
  | .mark _ _ => 1
  | _ => 0

/-- Before the increment. -/
def uncounted : Worker → ℕ
  | .count _ => 1
  | _ => 0

/-- In the branch, before the span is stored. -/
def passed : Worker → ℕ
  | .stamp => 1
  | _ => 0

/-- In the branch, after the span is stored. -/
def stored : Worker → ℕ
  | .bump => 1
  | _ => 0

theorem untested_le_one (w : Worker) : w.untested ≤ 1 := by
  cases w <;> simp [untested]

end Worker

namespace State

/-- The sum of a quantity over the workers. -/
def tally (s : State cfg) (f : Worker → ℕ) : ℕ := ∑ i, f (s.workers i)

/-- The photos that have been pushed to `marked_photos`. -/
def delivered (s : State cfg) : ℕ :=
  s.Photos_Done.length + (items s.marked_photos.contents).length

/-- How often the branch has been taken, the span stored or not. -/
def branches (s : State cfg) : ℕ := s.stamps + s.tally Worker.passed

/-- Worker `i` counts its photo in a state in which `counter_worker` is 1 and the worker that made
it 1 has not tested it yet. -/
def Overtakes (s : State cfg) : Action cfg.threads → Prop
  | .worker i _ => (∃ q, s.workers i = .count q) ∧ s.counter_worker = 1 ∧
      ∃ j, (s.workers j).untested = 1
  | _ => False

end State

theorem tally_setWorker (s : State cfg) (f : Worker → ℕ) (i : Fin cfg.threads) (w : Worker) :
    (s.setWorker i w).tally f + f (s.workers i) = s.tally f + f w := sum_update f s.workers i w

theorem le_tally (s : State cfg) (f : Worker → ℕ) (i : Fin cfg.threads) :
    f (s.workers i) ≤ s.tally f :=
  Finset.single_le_sum (f := fun j => f (s.workers j)) (fun _ _ => Nat.zero_le _)
    (Finset.mem_univ i)

theorem tally_eq_zero {s : State cfg} {f : Worker → ℕ} (h : ∀ i, f (s.workers i) = 0) :
    s.tally f = 0 :=
  Finset.sum_eq_zero fun i _ => h i

/-! ## The counter -/

/-- What `counter_worker` says about the photos that have been delivered or are being marked and
about the workers that are behind it. -/
structure Counted (counter : ℤ) (delivered marking untested passed stored stamps : ℕ) : Prop where
  -- It counts the photos that have passed the first increment, and the branches that have ended.
  balance : counter + stored = delivered + marking + stamps
  stored_le : stored ≤ stamps
  zero : counter = 0 → untested = 0 ∧ stamps + passed = 0
  -- At 1 the worker that made it 1 has not got to the second increment.
  one : counter = 1 → untested = 1 ∧ stamps + passed = 0 ∨
    untested = 0 ∧ stamps + passed = 1 ∧ passed + stored = 1
  once : stamps + passed ≤ 1

def State.Counted (s : State cfg) : Prop :=
  Farm.Counted s.counter_worker s.delivered (s.tally Worker.marking) (s.tally Worker.untested)
    (s.tally Worker.passed) (s.tally Worker.stored) s.stamps

-- A statement of worker `i` changes the sums by what it changes about `i`.
theorem counted_setWorker {s t : State cfg} {i : Fin cfg.threads} {w : Worker}
    (hworkers : t.workers = s.workers)
    (h : ∀ marking untested passed stored,
      marking + (s.workers i).marking = s.tally Worker.marking + w.marking →
      untested + (s.workers i).untested = s.tally Worker.untested + w.untested →
      passed + (s.workers i).passed = s.tally Worker.passed + w.passed →
      stored + (s.workers i).stored = s.tally Worker.stored + w.stored →
      Counted t.counter_worker t.delivered marking untested passed stored t.stamps) :
    (t.setWorker i w).Counted := by
  have htally : ∀ f, (t.setWorker i w).tally f = (s.setWorker i w).tally f := by
    intro f
    show ∑ j, f (update t.workers i w j) = ∑ j, f (update s.workers i w j)
    rw [hworkers]
  unfold State.Counted
  rw [htally, htally, htally, htally]
  apply h
  · exact tally_setWorker s Worker.marking i w
  · exact tally_setWorker s Worker.untested i w
  · exact tally_setWorker s Worker.passed i w
  · exact tally_setWorker s Worker.stored i w

-- A statement that touches neither the counter nor the time span.
theorem counted_setWorker_same {s t : State cfg} {i : Fin cfg.threads} {w : Worker}
    (hworkers : t.workers = s.workers) (hcounter : t.counter_worker = s.counter_worker)
    (hdelivered : t.delivered = s.delivered) (hstamps : t.stamps = s.stamps)
    (hmarking : w.marking = (s.workers i).marking)
    (huntested : w.untested = (s.workers i).untested) (hpassed : w.passed = (s.workers i).passed)
    (hstored : w.stored = (s.workers i).stored) (h : s.Counted) : (t.setWorker i w).Counted := by
  refine counted_setWorker hworkers fun marking untested passed stored hm hu hp hb => ?_
  rw [hcounter, hdelivered, hstamps, show marking = s.tally Worker.marking by omega,
    show untested = s.tally Worker.untested by omega,
    show passed = s.tally Worker.passed by omega, show stored = s.tally Worker.stored by omega]
  exact h

theorem counted_workerStep {s t : State cfg} {i : Fin cfg.threads} {ms : ℤ} (h : s.Counted)
    (hs : WorkerStep s i ms t) : t.Counted := by
  have ⟨hbalance, hstored, hzero, hone, honce⟩ := h
  cases hs with
  | popPhoto hw hq =>
      apply counted_setWorker_same (s := s) rfl rfl rfl rfl _ _ _ _ h
      all_goals rw [hw]; rfl
  | popEos hw hq =>
      apply counted_setWorker_same (s := s) rfl rfl rfl rfl _ _ _ _ h
      all_goals rw [hw]; rfl
  | mark hw hm =>
      apply counted_setWorker_same (s := s) rfl rfl rfl rfl _ _ _ _ h
      all_goals rw [hw]; rfl
  | pushEos hw =>
      refine counted_setWorker_same (s := s) rfl rfl ?_ rfl ?_ ?_ ?_ ?_ h
      · simp [State.delivered]
      all_goals rw [hw]; rfl
  | count hw =>
      refine counted_setWorker (s := s) rfl fun marking untested passed stored hm hu hp hb => ?_
      simp only [hw, Worker.marking, Worker.untested, Worker.passed, Worker.stored] at hm hu hp hb
      constructor <;> simp only [State.delivered] at hbalance ⊢ <;> omega
  | push hw hm =>
      refine counted_setWorker (s := s) rfl fun marking untested passed stored hm hu hp hb => ?_
      simp only [hw, Worker.marking, Worker.untested, Worker.passed, Worker.stored] at hm hu hp hb
      constructor <;> simp only [State.delivered, Queue.contents_push, items_append, items_some,
        items_nil, List.length_append, List.length_singleton] at hbalance ⊢ <;> omega
  | testStamp hw hc =>
      refine counted_setWorker (s := s) rfl fun marking untested passed stored hm hu hp hb => ?_
      simp only [hw, Worker.marking, Worker.untested, Worker.passed, Worker.stored] at hm hu hp hb
      constructor <;> omega
  | testPop hw hc =>
      refine counted_setWorker (s := s) rfl fun marking untested passed stored hm hu hp hb => ?_
      simp only [hw, Worker.marking, Worker.untested, Worker.passed, Worker.stored] at hm hu hp hb
      constructor <;> omega
  | stamp hw =>
      refine counted_setWorker (s := s) rfl fun marking untested passed stored hm hu hp hb => ?_
      simp only [hw, Worker.marking, Worker.untested, Worker.passed, Worker.stored] at hm hu hp hb
      constructor <;> simp only [State.delivered] at hbalance ⊢ <;> omega
  | bump hw =>
      refine counted_setWorker (s := s) rfl fun marking untested passed stored hm hu hp hb => ?_
      simp only [hw, Worker.marking, Worker.untested, Worker.passed, Worker.stored] at hm hu hp hb
      constructor <;> simp only [State.delivered] at hbalance ⊢ <;> omega

theorem counted {s : State cfg} (hs : (system cfg).Reachable s) : s.Counted := by
  apply hs.invariant (P := State.Counted)
  · have htally : ∀ f : Worker → ℕ, f .pop = 0 → (system cfg).init.tally f = 0 := by
      intro f hf
      exact tally_eq_zero fun _ => hf
    unfold State.Counted
    rw [htally _ rfl, htally _ rfl, htally _ rfl, htally _ rfl]
    constructor <;> simp [system, State.delivered]
  · intro s a t _ ih ha
    cases a with
    | emitter =>
        have hsame : t.counter_worker = s.counter_worker ∧ t.delivered = s.delivered ∧
            t.workers = s.workers ∧ t.stamps = s.stamps := by
          cases emitterStep_cases ha <;> exact ⟨rfl, rfl, rfl, rfl⟩
        unfold State.Counted State.tally at ih ⊢
        rwa [hsame.1, hsame.2.1, hsame.2.2.1, hsame.2.2.2]
    | worker i ms => exact counted_workerStep ih (workerStep_cases ha)
    | collector ms =>
        have hsame : t.counter_worker = s.counter_worker ∧ t.delivered = s.delivered ∧
            t.workers = s.workers ∧ t.stamps = s.stamps := by
          cases collectorStep_cases ha with
          | photo hc hq =>
              refine ⟨rfl, ?_, rfl, rfl⟩
              simp only [State.delivered, hq, items_some, List.length_append, List.length_cons,
                List.length_nil]
              omega
          | eos hc hq =>
              refine ⟨rfl, ?_, rfl, rfl⟩
              simp only [State.delivered, hq, items_none]
        unfold State.Counted State.tally at ih ⊢
        rwa [hsame.1, hsame.2.1, hsame.2.2.1, hsame.2.2.2]

/-! ## How often the branch is taken -/

theorem branches_setWorker {s t : State cfg} {i : Fin cfg.threads} {w : Worker}
    (hworkers : t.workers = s.workers)
    (h : t.stamps + w.passed = s.stamps + (s.workers i).passed) :
    (t.setWorker i w).branches = s.branches := by
  have hsum := tally_setWorker t Worker.passed i w
  rw [hworkers] at hsum
  have htally : t.tally Worker.passed = s.tally Worker.passed := by
    unfold State.tally
    rw [hworkers]
  show t.stamps + (t.setWorker i w).tally Worker.passed = s.stamps + s.tally Worker.passed
  omega

-- The steps that move the counter or enter the branch.
theorem branches_workerStep {s t : State cfg} {i : Fin cfg.threads} {ms : ℤ}
    (h : WorkerStep s i ms t) :
    ((∀ q, s.workers i ≠ .count q) ∧ t.counter_worker = s.counter_worker ∧
      t.branches = s.branches) ∨
    ((∃ q, s.workers i = .count q) ∧ t.counter_worker = s.counter_worker + 1 ∧
      t.branches = s.branches) ∨
    (s.workers i = .test ∧ s.counter_worker = 1 ∧ t.counter_worker = 1) ∨
    (s.workers i = .bump ∧ t.counter_worker = s.counter_worker + 1 ∧
      t.branches = s.branches) := by
  cases h with
  | count hw =>
      exact Or.inr (Or.inl ⟨⟨_, hw⟩, rfl, branches_setWorker rfl (by rw [hw]; rfl)⟩)
  | testStamp hw hc => exact Or.inr (Or.inr (Or.inl ⟨hw, hc, hc⟩))
  | bump hw =>
      exact Or.inr (Or.inr (Or.inr ⟨hw, rfl, branches_setWorker rfl (by rw [hw]; rfl)⟩))
  | _ hw => exact Or.inl ⟨by simp [hw], rfl, branches_setWorker rfl (by rw [hw]; rfl)⟩

theorem branches_other {s t : State cfg} {a : Action cfg.threads}
    (ha : (system cfg).step s a = some t) (hw : ∀ i ms, a ≠ .worker i ms) :
    t.counter_worker = s.counter_worker ∧ t.branches = s.branches := by
  cases a with
  | emitter => cases emitterStep_cases ha <;> exact ⟨rfl, rfl⟩
  | worker i ms => exact absurd rfl (hw i ms)
  | collector ms => cases collectorStep_cases ha <;> exact ⟨rfl, rfl⟩

namespace State

/-- The counter has got past 1 and nobody has taken the branch. -/
def Missed (s : State cfg) : Prop := 2 ≤ s.counter_worker ∧ s.branches = 0

/-- The counter does not get past 1 before somebody takes the branch. -/
def Kept (s : State cfg) : Prop := 2 ≤ s.counter_worker → s.branches = 1

end State

theorem missed_step {s t : State cfg} {a : Action cfg.threads} (h : s.Missed)
    (ha : (system cfg).step s a = some t) : t.Missed := by
  obtain ⟨hcounter, hbranches⟩ := h
  cases a with
  | worker i ms =>
      rcases branches_workerStep (workerStep_cases ha) with ⟨_, hc, hb⟩ | ⟨_, hc, hb⟩ |
        ⟨_, hc, _⟩ | ⟨_, hc, hb⟩
      · exact ⟨by omega, by omega⟩
      · exact ⟨by omega, by omega⟩
      · omega
      · exact ⟨by omega, by omega⟩
  | emitter =>
      obtain ⟨hc, hb⟩ := branches_other ha (by simp)
      exact ⟨by omega, by omega⟩
  | collector ms =>
      obtain ⟨hc, hb⟩ := branches_other ha (by simp)
      exact ⟨by omega, by omega⟩

-- The worker that is overtaken does not find 1 any more.
theorem missed_of_overtakes {s t : State cfg} {a : Action cfg.threads}
    (hs : (system cfg).Reachable s) (h : s.Overtakes a) (ha : (system cfg).step s a = some t) :
    t.Missed := by
  cases a with
  | emitter => exact h.elim
  | collector ms => exact h.elim
  | worker i ms =>
      obtain ⟨⟨q, hw⟩, hcounter, j, hj⟩ := h
      have huntested := le_tally s Worker.untested j
      have hone := (counted hs).one hcounter
      rcases branches_workerStep (workerStep_cases ha) with ⟨hw', _⟩ | ⟨_, hc, hb⟩ | ⟨hw', _⟩ |
        ⟨hw', _⟩
      · exact absurd hw (hw' q)
      · refine ⟨by omega, ?_⟩
        rw [hb]
        unfold State.branches
        omega
      · rw [hw] at hw'
        cases hw'
      · rw [hw] at hw'
        cases hw'

theorem kept_step {s t : State cfg} {a : Action cfg.threads} (hs : (system cfg).Reachable s)
    (h : s.Kept) (hno : ¬s.Overtakes a) (ha : (system cfg).step s a = some t) : t.Kept := by
  have hcounted := counted hs
  intro hcounter
  cases a with
  | worker i ms =>
      rcases branches_workerStep (workerStep_cases ha) with ⟨_, hc, hb⟩ | ⟨hw, hc, hb⟩ |
        ⟨_, _, hc⟩ | ⟨hw, hc, hb⟩
      · rw [hb]
        exact h (by omega)
      · rw [hb]
        by_cases hone : s.counter_worker = 1
        · -- the worker that made the counter 1 has tested it already
          have huntested : s.tally Worker.untested = 0 := by
            apply tally_eq_zero
            intro j
            have hle := (s.workers j).untested_le_one
            have hne : (s.workers j).untested ≠ 1 := fun hj => hno ⟨hw, hone, j, hj⟩
            omega
          have hcases := hcounted.one hone
          unfold State.branches
          omega
        · exact h (by omega)
      · omega
      · rw [hb]
        by_cases hone : s.counter_worker = 1
        · have hcases := hcounted.one hone
          have hstored := le_tally s Worker.stored i
          have hle := hcounted.stored_le
          rw [hw] at hstored
          simp only [Worker.stored] at hstored
          unfold State.branches
          omega
        · exact h (by omega)
  | emitter =>
      obtain ⟨hc, hb⟩ := branches_other ha (by simp)
      rw [hb]
      exact h (by omega)
  | collector ms =>
      obtain ⟨hc, hb⟩ := branches_other ha (by simp)
      rw [hb]
      exact h (by omega)

/-! ## The end of a run -/

-- At the end the counter has got past 1.
theorem counter_returned (hn : 0 < cfg.threads) (hphotos : cfg.copies ≠ []) {s : State cfg}
    (hs : (system cfg).Reachable s) (hr : s.AllReturned) :
    2 ≤ s.counter_worker ∧ s.branches = s.stamps := by
  have hzero : ∀ f : Worker → ℕ, f .returned = 0 → s.tally f = 0 := by
    intro f hf
    apply tally_eq_zero
    intro i
    rw [hr.2.1 i]
    exact hf
  have hcounted := counted hs
  have hbalance := hcounted.balance
  have hone := hcounted.one
  rw [hzero Worker.stored rfl, hzero Worker.marking rfl] at hbalance
  rw [hzero Worker.untested rfl, hzero Worker.passed rfl, hzero Worker.stored rfl] at hone
  have hdone := (returned_clean hn hs hr).2.2.2.length_eq
  have hlen := length_photos cfg
  have hpos := List.length_pos_iff.mpr hphotos
  refine ⟨?_, congrArg (s.stamps + ·) (hzero Worker.passed rfl)⟩
  unfold State.delivered at hbalance
  omega

-- What is written down are the spans stored, the last of which is in the variable.
theorem measured_step {s t : State cfg} {a : Action cfg.threads}
    (ha : (system cfg).step s a = some t) :
    (s.measured a = [] ∧ t.stamps = s.stamps ∧
      t.ideal_service_time_worker = s.ideal_service_time_worker) ∨
    ∃ ms, s.measured a = [ms] ∧ t.stamps = s.stamps + 1 ∧ t.ideal_service_time_worker = ms := by
  cases a with
  | emitter => cases emitterStep_cases ha <;> exact Or.inl ⟨rfl, rfl, rfl⟩
  | collector ms => cases collectorStep_cases ha <;> exact Or.inl ⟨rfl, rfl, rfl⟩
  | worker i ms =>
      have hnil : s.workers i ≠ .stamp → s.measured (.worker i ms) = [] := fun h => if_neg h
      cases workerStep_cases ha with
      | stamp hw => exact Or.inr ⟨ms, if_pos hw, rfl, rfl⟩
      | _ hw => exact Or.inl ⟨hnil (by simp [hw]), rfl, rfl⟩

theorem spans_eq {p : State cfg × List ℤ} (hp : (timed cfg).Reachable p) :
    p.2.length = p.1.stamps ∧ ∀ ms ∈ p.2.getLast?, p.1.ideal_service_time_worker = ms := by
  let I : State cfg × List ℤ → Prop := fun p =>
    p.2.length = p.1.stamps ∧ ∀ ms ∈ p.2.getLast?, p.1.ideal_service_time_worker = ms
  apply hp.invariant (P := I)
  · exact ⟨rfl, by simp [timed, System.record]⟩
  · intro p a q _ ⟨hlen, hlast⟩ ha
    obtain ⟨ha, hspans⟩ := System.record_step.mp ha
    show q.2.length = q.1.stamps ∧ _
    rcases measured_step ha with ⟨hnil, hstamps, hideal⟩ | ⟨ms, hms, hstamps, hideal⟩
    · rw [hspans, hnil, List.append_nil, hstamps, hideal]
      exact ⟨hlen, hlast⟩
    · rw [hspans, hms, hstamps, hideal, List.getLast?_concat, List.length_append, hlen]
      refine ⟨rfl, fun ms' hms' => ?_⟩
      exact Option.some.inj hms'

theorem measured_iff {p : State cfg × List ℤ} (hp : (timed cfg).Reachable p) :
    ServiceTimeMeasured p ↔ p.1.stamps = 1 := by
  obtain ⟨hlen, hlast⟩ := spans_eq hp
  refine ⟨fun h => h.1, fun h => ⟨h, ?_⟩⟩
  rw [h, List.length_eq_one_iff] at hlen
  obtain ⟨ms, hms⟩ := hlen
  rw [hms] at hlast ⊢
  rw [hlast ms rfl]

theorem measured_iff_along (hn : 0 < cfg.threads) (hphotos : cfg.copies ≠ [])
    {as : List (Action cfg.threads)} {p : State cfg × List ℤ}
    (hrun : (timed cfg).exec (timed cfg).init as = some p) (hr : p.1.AllReturned) :
    ServiceTimeMeasured p ↔
      (timed cfg).Along (fun p a => ¬p.1.Overtakes a) (timed cfg).init as := by
  have hp : (timed cfg).Reachable p := System.Reachable.init.exec hrun
  obtain ⟨hcounter, hstamps⟩ := counter_returned hn hphotos hp.of_record hr
  rw [measured_iff hp]
  constructor
  · intro hone
    by_contra hno
    have hmissed : p.1.Missed := by
      apply System.of_not_along (J := fun p => p.1.Missed) _ _ .init hno hrun
      · intro p a q hp hover ha
        exact missed_of_overtakes hp.of_record (not_not.mp hover) (System.record_step.mp ha).1
      · intro p a q _ h ha
        exact missed_step h (System.record_step.mp ha).1
    have hzero := hmissed.2
    omega
  · intro halong
    have hkept : p.1.Kept := by
      apply halong.keeps (I := fun p => p.1.Kept) _ .init _ hrun
      · intro p a q hp h hno ha
        exact kept_step hp.of_record h hno (System.record_step.mp ha).1
      · intro h
        have h : (2 : ℤ) ≤ 0 := h
        omega
    have hone := hkept hcounter
    omega

/-! ## The arguments for which no run misses the span -/

theorem held_length (s : State cfg) : ∑ i, (s.pipeline.hands i).held.length =
    s.tally Worker.uncounted + s.tally Worker.marking := by
  unfold State.tally
  rw [← Finset.sum_add_distrib]
  apply Finset.sum_congr rfl
  intro i _
  show (s.workers i).hand.held.length = _
  cases s.workers i <;> rfl

theorem delivered_length (s : State cfg) : s.pipeline.delivered.length = s.delivered :=
  List.length_append

-- Nobody can overtake when there is one worker, or one photo.
theorem not_overtakes (h : cfg.threads = 1 ∨ cfg.copies.length = 1) {s : State cfg}
    (hs : (system cfg).Reachable s) (a : Action cfg.threads) : ¬s.Overtakes a := by
  intro hover
  cases a with
  | emitter => exact hover
  | collector ms => exact hover
  | worker i ms =>
      obtain ⟨⟨q, hw⟩, hcounter, j, hj⟩ := hover
      have hij : i ≠ j := by
        rintro rfl
        rw [hw] at hj
        cases hj
      rcases h with hone | hone
      · have hi := i.isLt
        have hj := j.isLt
        exact hij (Fin.ext (by omega))
      · -- the photo of `i` and the one that was counted are two
        have hcounted := counted hs
        have hbalance := hcounted.balance
        have huntested := le_tally s Worker.untested j
        have hcases := hcounted.one hcounter
        have hlen := (pipelineInv hs).length_eq
        have hphotos := length_photos cfg
        have huncounted := le_tally s Worker.uncounted i
        rw [hw] at huncounted
        rw [held_length, delivered_length, hphotos] at hlen
        simp only [Worker.uncounted] at huncounted
        omega

-- Two workers pop the first two photos,
theorem exists_two_popped (hthreads : 2 ≤ cfg.threads) (hcopies : 2 ≤ cfg.copies.length) :
    ∃ s i j q q', (system cfg).Reachable s ∧ j ≠ i ∧ s.workers i = .count q ∧
      s.workers j = .count q' ∧ s.counter_worker = 0 := by
  obtain ⟨q, q', rest, hphotos⟩ : ∃ q q' rest, cfg.photos = q :: q' :: rest := by
    have hlen := length_photos cfg
    match hp : cfg.photos with
    | [] => simp [hp] at hlen; omega
    | [q] => simp [hp] at hlen; omega
    | q :: q' :: rest => exact ⟨q, q', rest, rfl⟩
  obtain ⟨j, i, hji⟩ := (Fin.nontrivial_iff_two_le.mpr hthreads).exists_pair_ne
  obtain ⟨s, hs, hworkers, hrest, hempty, hcounter⟩ := pop_first hphotos i
  have hj : s.workers j = .pop := by
    rw [hworkers, update_of_ne hji]
  obtain ⟨t, ht, htworkers, _, _, htcounter⟩ := emit_and_pop hs hrest hempty hj
  refine ⟨t, i, j, q, q', ht, hji, ?_, ?_, htcounter.trans hcounter⟩
  · rw [htworkers, update_of_ne hji.symm, hworkers, update_self]
  · rw [htworkers, update_self]

-- and both count before either has tested.
theorem exists_missed (hthreads : 2 ≤ cfg.threads) (hcopies : 2 ≤ cfg.copies.length) :
    ∃ s, (system cfg).Reachable s ∧ s.Missed := by
  obtain ⟨t, i, j, q, q', ht, hji, hti, htj, htcounter⟩ := exists_two_popped hthreads hcopies
  let w : Worker := .mark q (Marking.start q.P_pointer (forXY (t.memory.heap q.P_pointer)))
  let u : State cfg := { t with counter_worker := t.counter_worker + 1 }.setWorker i w
  have hu : (system cfg).step t (.worker i 0) = some u := by
    show t.workerStep i 0 = some u
    unfold State.workerStep
    rw [hti]
  have huj : u.workers j = .count q' := by
    show update t.workers i w j = _
    rw [update_of_ne hji]
    exact htj
  have hui : (u.workers i).untested = 1 := by
    show (update t.workers i w i).untested = 1
    rw [update_self]
    rfl
  have hcount : u.counter_worker = 1 := by
    show t.counter_worker + 1 = 1
    omega
  obtain ⟨v, hv⟩ : ∃ v, (system cfg).step u (.worker j 0) = some v := by
    rw [← System.enabled_iff]
    apply worker_enabled
    · rw [huj]
      exact fun h => by cases h
    · intro hpop
      rw [huj] at hpop
      cases hpop
  have hover : u.Overtakes (.worker j 0) := ⟨⟨q', huj⟩, hcount, i, hui⟩
  exact ⟨v, (ht.next hu).next hv, missed_of_overtakes (ht.next hu) hover hv⟩

theorem exists_run_missed (hn : 0 < cfg.threads) (hphotos : cfg.copies ≠ []) {s : State cfg}
    (hs : (system cfg).Reachable s) (h : s.Missed) :
    ∃ p, (timed cfg).Reachable p ∧ p.1.AllReturned ∧ ¬ServiceTimeMeasured p := by
  obtain ⟨as, t, hrun, hmissed, hr⟩ :=
    runs_to_end (I := State.Missed) (fun _ _ _ _ h ha => missed_step h ha) hs h
  obtain ⟨l, hp⟩ := (hs.exec hrun).exists_record State.measured
  refine ⟨(t, l), hp, hr, fun hmeasured => ?_⟩
  have hend := (counter_returned hn hphotos hp.of_record hr).2
  have hzero := hmissed.2
  have hone : t.stamps = 1 := hmeasured.1
  have hend : t.branches = t.stamps := hend
  omega

/-- In a complete run the ideal service time is measured by exactly one worker, unless a worker
counts its photo between the first increment of `counter_worker` and the test that follows it.  So
it is measured in every run exactly when there is one worker or one photo. -/
theorem service_time_measured_iff (cfg : Config) (hn : 1 ≤ cfg.number_of_workers)
    (hphotos : cfg.copies ≠ []) :
    (∀ as p, (timed cfg).exec (timed cfg).init as = some p → p.1.AllReturned →
      (ServiceTimeMeasured p ↔
        (timed cfg).Along (fun p a => ¬p.1.Overtakes a) (timed cfg).init as)) ∧
    ((∀ p, (timed cfg).Reachable p → p.1.AllReturned → ServiceTimeMeasured p) ↔
      cfg.number_of_workers = 1 ∨ cfg.copies.length = 1) := by
  have hpos : 0 < cfg.threads := by
    unfold Config.threads
    omega
  refine ⟨fun as p hrun hr => measured_iff_along hpos hphotos hrun hr, fun hall => ?_,
    fun hone p hp hr => ?_⟩
  · by_contra hno
    have hlen := List.length_pos_iff.mpr hphotos
    have hthreads : 2 ≤ cfg.threads := by
      unfold Config.threads
      omega
    obtain ⟨s, hs, hmissed⟩ := exists_missed hthreads (by omega)
    obtain ⟨p, hp, hr, hbad⟩ := exists_run_missed hpos hphotos hs hmissed
    exact hbad (hall p hp hr)
  · obtain ⟨as, hrun⟩ := hp.exists_exec
    apply (measured_iff_along hpos hphotos hrun hr).mpr
    apply System.along_of_forall _ .init
    intro p a hp
    apply not_overtakes _ hp.of_record
    unfold Config.threads
    omega

/-! ## Runs that measure and runs that do not -/

def twoWorkersTimed : State twoWorkers × List ℤ :=
  ((timed twoWorkers).exec (timed twoWorkers).init twoWorkersRun).get (by decide +kernel)

theorem twoWorkersTimed_reachable : (timed twoWorkers).Reachable twoWorkersTimed :=
  System.reachable_get _

theorem service_time_measured_iff_twoWorkers : ServiceTimeMeasured twoWorkersTimed := by
  have h := service_time_measured_iff twoWorkers (by decide) (by decide)
  apply h.2.mpr (Or.inr rfl) twoWorkersTimed twoWorkersTimed_reachable
  decide +kernel

/-- Two workers and two photos of one pixel. -/
def twoPhotos : Config where
  number_of_workers := 2
  overlay := onePixelOverlay
  copies := [onePixelPhoto, onePixelPhoto]

/-- Both workers pop and count a photo before either has marked its own. -/
def twoPhotosRun : List (Action twoPhotos.threads) :=
  List.flatten [List.replicate 4 .emitter, List.replicate 2 (.worker ⟨0, by decide⟩ 0),
    List.replicate 2 (.worker ⟨1, by decide⟩ 0), List.replicate 13 (.worker ⟨0, by decide⟩ 0),
    List.replicate 13 (.worker ⟨1, by decide⟩ 0), List.replicate 4 (.collector 0)]

def twoPhotosEnd : State twoPhotos × List ℤ :=
  ((timed twoPhotos).exec (timed twoPhotos).init twoPhotosRun).get (by decide +kernel)

theorem not_service_time_measured_twoPhotos :
    (timed twoPhotos).Reachable twoPhotosEnd ∧ twoPhotosEnd.1.AllReturned ∧
      twoPhotosEnd.1.stamps = 0 ∧ ¬ServiceTimeMeasured twoPhotosEnd := by
  have hstamps : twoPhotosEnd.1.stamps = 0 := by decide +kernel
  refine ⟨System.reachable_get _, by decide +kernel, hstamps, fun h => ?_⟩
  rw [h.1] at hstamps
  exact absurd hstamps (by decide)

end Watermark.Farm
