import Watermark.Reasoning.Runs
import Watermark.Reasoning.Threads
import Watermark.Util.Queue

/-!
# BlockingQueue — the mutex and the condition variable inside queue

`push` is a critical section and, after the lock is released, a `notify_one`.  `pop` is a critical
section that takes the back element when there is one and else sleeps on `d_condition`; a woken
consumer runs it again.  A wake-up may be spurious.  The file shows that seen from outside this is
the queue of `Util.Queue`, and that no consumer is left asleep beside a queue with elements.
-/

namespace Watermark.BlockingQueue

open Function Reasoning

variable {α : Type*} {m n : ℕ}

/-- A thread that calls `push`. -/
inductive Producer where
  | idle
  -- before `d_condition.notify_one()`
  | notify
deriving DecidableEq

/-- A thread that calls `pop`. -/
inductive Consumer where
  | idle
  -- inside `d_condition.wait`, the lock released
  | asleep
  -- woken up, before it tests `!d_queue.empty()` again
  | woken
deriving DecidableEq

structure State (α : Type*) (m n : ℕ) where
  d_queue : Queue α
  producers : Fin m → Producer
  consumers : Fin n → Consumer
  -- history: the values pushed and popped, in the order of the lock
  pushed : List α
  popped : List α

/-- A step of one thread; the environment chooses the value that is pushed and the sleeper that is
notified. -/
inductive Action (α : Type*) (m n : ℕ) where
  | push (i : Fin m) (value : α)
  | notify (i : Fin m) (sleeper : Option (Fin n))
  | pop (j : Fin n)
  | spurious (j : Fin n)

namespace State

def setProducer (s : State α m n) (i : Fin m) (p : Producer) : State α m n :=
  { s with producers := update s.producers i p }

def setConsumer (s : State α m n) (j : Fin n) (c : Consumer) : State α m n :=
  { s with consumers := update s.consumers j c }

/-- The critical section of `push`. -/
def pushStep (s : State α m n) (i : Fin m) (value : α) : Option (State α m n) :=
  match s.producers i with
  | .idle => some ({ s with
      d_queue := s.d_queue.push value
      pushed := s.pushed ++ [value] }.setProducer i .notify)
  | .notify => none

/-- `d_condition.notify_one()`: wakes a sleeper if there is one. -/
def notifyStep (s : State α m n) (i : Fin m) (sleeper : Option (Fin n)) : Option (State α m n) :=
  match s.producers i, sleeper with
  | .idle, _ => none
  | .notify, some j =>
    if s.consumers j = .asleep then some ((s.setConsumer j .woken).setProducer i .idle) else none
  | .notify, none =>
    if ∀ j, s.consumers j ≠ .asleep then some (s.setProducer i .idle) else none

/-- The critical section of `pop`, entered for the first time or after a wake-up. -/
def popStep (s : State α m n) (j : Fin n) : Option (State α m n) :=
  match s.consumers j with
  | .asleep => none
  | _ =>
    match s.d_queue.pop with
    | none => some (s.setConsumer j .asleep)
    | some (rc, d_queue) =>
      some ({ s with d_queue, popped := s.popped ++ [rc] }.setConsumer j .idle)

def spuriousStep (s : State α m n) (j : Fin n) : Option (State α m n) :=
  if s.consumers j = .asleep then some (s.setConsumer j .woken) else none

def step (s : State α m n) : Action α m n → Option (State α m n)
  | .push i value => s.pushStep i value
  | .notify i sleeper => s.notifyStep i sleeper
  | .pop j => s.popStep j
  | .spurious j => s.spuriousStep j

end State

/-- `m` producers and `n` consumers on a queue that is empty at first. -/
def system (α : Type*) (m n : ℕ) : System (State α m n) (Action α m n) where
  init := {
    d_queue := ⟨[]⟩
    producers := fun _ => .idle
    consumers := fun _ => .idle
    pushed := []
    popped := [] }
  step := State.step

/-! ## What a step can do -/

inductive Step (s : State α m n) : Action α m n → State α m n → Prop where
  | push {i : Fin m} {value : α} (hi : s.producers i = .idle) :
      Step s (.push i value) ({ s with
        d_queue := s.d_queue.push value
        pushed := s.pushed ++ [value] }.setProducer i .notify)
  | wake {i : Fin m} {j : Fin n} (hi : s.producers i = .notify) (hj : s.consumers j = .asleep) :
      Step s (.notify i (some j)) ((s.setConsumer j .woken).setProducer i .idle)
  | lost {i : Fin m} (hi : s.producers i = .notify) (hall : ∀ j, s.consumers j ≠ .asleep) :
      Step s (.notify i none) (s.setProducer i .idle)
  | sleep {j : Fin n} (hj : s.consumers j ≠ .asleep) (hq : s.d_queue.contents = []) :
      Step s (.pop j) (s.setConsumer j .asleep)
  | take {j : Fin n} {rc : α} {d_queue : Queue α} (hj : s.consumers j ≠ .asleep)
      (hq : s.d_queue.contents = rc :: d_queue.contents) :
      Step s (.pop j) ({ s with d_queue, popped := s.popped ++ [rc] }.setConsumer j .idle)
  | spurious {j : Fin n} (hj : s.consumers j = .asleep) :
      Step s (.spurious j) (s.setConsumer j .woken)

theorem popStep_cases {s t : State α m n} {j : Fin n} (h : s.popStep j = some t) :
    Step s (.pop j) t := by
  have hj : s.consumers j ≠ .asleep := by
    intro hj
    simp [State.popStep, hj] at h
  have hbody : (match s.d_queue.pop with
      | none => some (s.setConsumer j .asleep)
      | some (rc, d_queue) =>
        some ({ s with d_queue, popped := s.popped ++ [rc] }.setConsumer j .idle)) = some t := by
    cases hc : s.consumers j with
    | asleep => exact absurd hc hj
    | idle => simpa only [State.popStep, hc] using h
    | woken => simpa only [State.popStep, hc] using h
  cases hq : s.d_queue.pop with
  | none =>
      rw [hq] at hbody
      cases hbody
      exact .sleep hj (Queue.pop_eq_none_iff.mp hq)
  | some r =>
      rw [hq] at hbody
      cases hbody
      exact .take hj (Queue.contents_of_pop hq)

theorem step_cases {s t : State α m n} {a : Action α m n} (h : (system α m n).step s a = some t) :
    Step s a t := by
  cases a with
  | push i value =>
      have h : s.pushStep i value = some t := h
      unfold State.pushStep at h
      cases hi : s.producers i with
      | notify => simp [hi] at h
      | idle =>
          simp only [hi, Option.some.injEq] at h
          subst h
          exact .push hi
  | notify i sleeper =>
      have h : s.notifyStep i sleeper = some t := h
      unfold State.notifyStep at h
      cases hi : s.producers i with
      | idle => simp [hi] at h
      | notify =>
          cases sleeper with
          | none =>
              simp only [hi, Option.ite_none_right_eq_some, Option.some.injEq] at h
              obtain ⟨hall, rfl⟩ := h
              exact .lost hi hall
          | some j =>
              simp only [hi, Option.ite_none_right_eq_some, Option.some.injEq] at h
              obtain ⟨hj, rfl⟩ := h
              exact .wake hi hj
  | pop j => exact popStep_cases h
  | spurious j =>
      have h : s.spuriousStep j = some t := h
      simp only [State.spuriousStep, Option.ite_none_right_eq_some, Option.some.injEq] at h
      obtain ⟨hj, rfl⟩ := h
      exact .spurious hj

/-! ## The queue of `Util.Queue` -/

-- What a thread outside can see of a step: a push, a pop, or nothing.
theorem queue_step {s t : State α m n} {a : Action α m n} (h : Step s a t) :
    (∃ value, t.d_queue = s.d_queue.push value ∧ t.pushed = s.pushed ++ [value] ∧
      t.popped = s.popped) ∨
    (∃ rc, s.d_queue.contents = rc :: t.d_queue.contents ∧ t.pushed = s.pushed ∧
      t.popped = s.popped ++ [rc]) ∨
    (t.d_queue = s.d_queue ∧ t.pushed = s.pushed ∧ t.popped = s.popped) := by
  cases h with
  | push hi => exact Or.inl ⟨_, rfl, rfl, rfl⟩
  | take hj hq => exact Or.inr (Or.inl ⟨_, hq, rfl, rfl⟩)
  | wake hi hj => exact Or.inr (Or.inr ⟨rfl, rfl, rfl⟩)
  | lost hi hall => exact Or.inr (Or.inr ⟨rfl, rfl, rfl⟩)
  | sleep hj hq => exact Or.inr (Or.inr ⟨rfl, rfl, rfl⟩)
  | spurious hj => exact Or.inr (Or.inr ⟨rfl, rfl, rfl⟩)

theorem fifo {s : State α m n} (hs : (system α m n).Reachable s) :
    s.popped ++ s.d_queue.contents = s.pushed := by
  apply hs.invariant (P := fun s => s.popped ++ s.d_queue.contents = s.pushed) rfl
  intro s a t _ ih ha
  show t.popped ++ t.d_queue.contents = t.pushed
  rcases queue_step (step_cases ha) with ⟨value, hq, hpush, hpop⟩ | ⟨rc, hq, hpush, hpop⟩ |
    ⟨hq, hpush, hpop⟩
  · rw [hpop, hq, hpush, Queue.contents_push, ← List.append_assoc, ih]
  · rw [hpop, hpush, ← ih, hq, List.append_assoc, List.singleton_append]
  · rw [hpop, hq, hpush, ih]

/-! ## No lost wake-up -/

def Producer.pending : Producer → ℕ
  | .notify => 1
  | .idle => 0

def Consumer.woke : Consumer → ℕ
  | .woken => 1
  | _ => 0

/-- What a consumer can still do before it is awake for good. -/
def Consumer.measure : Consumer → ℕ
  | .asleep => 2
  | .woken => 1
  | .idle => 0

namespace State

/-- The calls of `notify_one` that are still to be issued. -/
def pending (s : State α m n) : ℕ := ∑ i, (s.producers i).pending

/-- The woken consumers that have not tested the queue again. -/
def woken (s : State α m n) : ℕ := ∑ j, (s.consumers j).woke

def measure (s : State α m n) : ℕ := ∑ j, (s.consumers j).measure

/-- Elements beside which a consumer sleeps are paid for by somebody who will see to them. -/
def Attended (s : State α m n) : Prop :=
  ∀ j, s.consumers j = .asleep → s.d_queue.contents.length ≤ s.pending + s.woken

end State

theorem pending_setProducer (s : State α m n) (i : Fin m) (p : Producer) :
    (s.setProducer i p).pending + (s.producers i).pending = s.pending + p.pending :=
  sum_update Producer.pending s.producers i p

theorem woken_setConsumer (s : State α m n) (j : Fin n) (c : Consumer) :
    (s.setConsumer j c).woken + (s.consumers j).woke = s.woken + c.woke :=
  sum_update Consumer.woke s.consumers j c

theorem measure_setConsumer (s : State α m n) (j : Fin n) (c : Consumer) :
    (s.setConsumer j c).measure + (s.consumers j).measure = s.measure + c.measure :=
  sum_update Consumer.measure s.consumers j c

theorem asleep_setConsumer {s : State α m n} {j k : Fin n} {c : Consumer} (hc : c ≠ .asleep)
    (hk : (s.setConsumer j c).consumers k = .asleep) : s.consumers k = .asleep := by
  have hk : update s.consumers j c k = .asleep := hk
  by_cases hkj : k = j
  · rw [hkj, update_self] at hk
    exact absurd hk hc
  · rwa [update_of_ne hkj] at hk

theorem attended_step {s t : State α m n} {a : Action α m n} (h : s.Attended) (hs : Step s a t) :
    t.Attended := by
  intro k hk
  cases hs with
  | @push i value hi =>
      have hlen := h k hk
      have hsum := pending_setProducer s i .notify
      rw [hi] at hsum
      show (s.d_queue.push value).contents.length ≤ (s.setProducer i .notify).pending + s.woken
      rw [Queue.contents_push, List.length_append, List.length_singleton]
      simp only [Producer.pending] at hsum
      omega
  | @wake i j hi hj =>
      -- the notification becomes a woken consumer
      have hlen := h j hj
      have hpending := pending_setProducer s i .idle
      have hwoken := woken_setConsumer s j .woken
      rw [hi] at hpending
      rw [hj] at hwoken
      show s.d_queue.contents.length ≤
        (s.setProducer i .idle).pending + (s.setConsumer j .woken).woken
      simp only [Producer.pending, Consumer.woke] at hpending hwoken
      omega
  | lost hi hall => exact absurd hk (hall k)
  | sleep hj hq =>
      show s.d_queue.contents.length ≤ _
      rw [hq]
      exact Nat.zero_le _
  | @take j rc d_queue hj hq =>
      -- the element is gone, and with it at most one woken consumer
      have hlen := h k (asleep_setConsumer (by decide) hk)
      have hwoken := woken_setConsumer s j .idle
      have hle : (s.consumers j).woke ≤ 1 := by cases s.consumers j <;> decide
      rw [hq, List.length_cons] at hlen
      show d_queue.contents.length ≤ s.pending + (s.setConsumer j .idle).woken
      simp only [Consumer.woke] at hwoken hle
      omega
  | @spurious j hj =>
      have hlen := h j hj
      have hwoken := woken_setConsumer s j .woken
      rw [hj] at hwoken
      show s.d_queue.contents.length ≤ s.pending + (s.setConsumer j .woken).woken
      simp only [Consumer.woke] at hwoken
      omega

theorem attended {s : State α m n} (hs : (system α m n).Reachable s) : s.Attended := by
  apply hs.invariant (P := State.Attended)
  · intro j hj
    exact Nat.zero_le _
  · intro s a t _ ih ha
    exact attended_step ih (step_cases ha)

/-! ## No consumer sleeps for good beside an element -/

/-- Weak fairness for what is under way: a pending `notify_one` is issued some time, and a woken
consumer gets the lock some time. -/
structure Fair (r : (system α m n).InfiniteRun) : Prop where
  notified : ∀ k i, (r.state k).producers i = .notify →
    ∃ l, k ≤ l ∧ ∃ sleeper, r.action l = .notify i sleeper
  tested : ∀ k j, (r.state k).consumers j = .woken →
    ∃ l, k ≤ l ∧ (r.state l).consumers j = .woken ∧ r.action l = .pop j

-- Beside an element nobody falls asleep.
theorem measure_le {s t : State α m n} {a : Action α m n} (hq : s.d_queue.contents ≠ [])
    (h : Step s a t) : t.measure ≤ s.measure := by
  cases h with
  | push hi => exact Nat.le_refl _
  | @wake i j hi hj =>
      have hsum := measure_setConsumer s j .woken
      rw [hj] at hsum
      show (s.setConsumer j .woken).measure ≤ s.measure
      simp only [Consumer.measure] at hsum
      omega
  | lost hi hall => exact Nat.le_refl _
  | sleep hj hempty => exact absurd hempty hq
  | @take j rc d_queue hj hcons =>
      have hsum := measure_setConsumer s j .idle
      show (s.setConsumer j .idle).measure ≤ s.measure
      simp only [Consumer.measure] at hsum
      omega
  | @spurious j hj =>
      have hsum := measure_setConsumer s j .woken
      rw [hj] at hsum
      simp only [Consumer.measure] at hsum
      omega

theorem measure_notify {s t : State α m n} {i : Fin m} {j : Fin n} {sleeper : Option (Fin n)}
    (hj : s.consumers j = .asleep) (h : Step s (.notify i sleeper) t) : t.measure < s.measure := by
  cases h with
  | lost hi hall => exact absurd hj (hall j)
  | @wake _ k hi hk =>
      have hsum := measure_setConsumer s k .woken
      rw [hk] at hsum
      show (s.setConsumer k .woken).measure < s.measure
      simp only [Consumer.measure] at hsum
      omega

theorem measure_tested {s t : State α m n} {j : Fin n} (hj : s.consumers j = .woken)
    (hq : s.d_queue.contents ≠ []) (h : Step s (.pop j) t) : t.measure < s.measure := by
  cases h with
  | sleep _ hempty => exact absurd hempty hq
  | take _ hcons =>
      have hsum := measure_setConsumer s j .idle
      rw [hj] at hsum
      show (s.setConsumer j .idle).measure < s.measure
      simp only [Consumer.measure] at hsum
      omega

theorem exists_notify {s : State α m n} (h : 0 < s.pending) : ∃ i, s.producers i = .notify := by
  obtain ⟨i, _, hi⟩ := Finset.exists_ne_zero_of_sum_ne_zero (Nat.pos_iff_ne_zero.mp h)
  refine ⟨i, ?_⟩
  cases hp : s.producers i with
  | notify => rfl
  | idle =>
      rw [hp] at hi
      exact absurd rfl hi

theorem exists_woken {s : State α m n} (h : 0 < s.woken) : ∃ j, s.consumers j = .woken := by
  obtain ⟨j, _, hj⟩ := Finset.exists_ne_zero_of_sum_ne_zero (Nat.pos_iff_ne_zero.mp h)
  refine ⟨j, ?_⟩
  cases hc : s.consumers j with
  | woken => rfl
  | idle =>
      rw [hc] at hj
      exact absurd rfl hj
  | asleep =>
      rw [hc] at hj
      exact absurd rfl hj

theorem awake_or_empty (r : (system α m n).InfiniteRun) (hfair : Fair r) (k : ℕ) (j : Fin n) :
    ∃ l, k ≤ l ∧ ((r.state l).consumers j ≠ .asleep ∨ (r.state l).d_queue.contents = []) := by
  by_contra hno
  have hasleep : ∀ l, k ≤ l → (r.state l).consumers j = .asleep := by
    intro l hl
    by_contra hj
    exact hno ⟨l, hl, Or.inl hj⟩
  have hqueue : ∀ l, k ≤ l → (r.state l).d_queue.contents ≠ [] := by
    intro l hl hq
    exact hno ⟨l, hl, Or.inr hq⟩
  have hstep : ∀ l, Step (r.state l) (r.action l) (r.state (l + 1)) := by
    intro l
    apply step_cases
    exact r.next l
  have hle : ∀ l, k ≤ l → (r.state (l + 1)).measure ≤ (r.state l).measure := by
    intro l hl
    exact measure_le (hqueue l hl) (hstep l)
  apply r.not_decreasing_forever hle
  intro l hl
  -- somebody sees to the elements, and fairness lets him move
  have hlen := attended (r.reachable l) j (hasleep l hl)
  have hpos := List.length_pos_iff.mpr (hqueue l hl)
  by_cases hpending : 0 < (r.state l).pending
  · obtain ⟨i, hi⟩ := exists_notify hpending
    obtain ⟨l', hl', sleeper, ha⟩ := hfair.notified l i hi
    have hmove := hstep l'
    rw [ha] at hmove
    exact ⟨l', hl', measure_notify (hasleep l' (hl.trans hl')) hmove⟩
  · obtain ⟨j', hj'⟩ := exists_woken (s := r.state l) (by omega)
    obtain ⟨l', hl', hwoken, ha⟩ := hfair.tested l j' hj'
    have hmove := hstep l'
    rw [ha] at hmove
    exact ⟨l', hl', measure_tested hwoken (hqueue l' (hl.trans hl')) hmove⟩

/-- The values are popped in the order in which they were pushed, and as long as a consumer sleeps
every element is attended to.  So no consumer sleeps for good beside an element. -/
theorem fifo_no_lost_wakeup (α : Type*) (producers consumers : ℕ) :
    (∀ s, (system α producers consumers).Reachable s →
      s.popped ++ s.d_queue.contents = s.pushed ∧
      ∀ j, s.consumers j = .asleep → s.d_queue.contents.length ≤ s.pending + s.woken) ∧
    ∀ r : (system α producers consumers).InfiniteRun, Fair r → ∀ k j,
      ∃ l, k ≤ l ∧
        ((r.state l).consumers j ≠ .asleep ∨ (r.state l).d_queue.contents = []) := by
  refine ⟨fun s hs => ⟨fifo hs, attended hs⟩, fun r hfair k j => ?_⟩
  exact awake_or_empty r hfair k j

/-! ## A notification that is stolen, and one that is not -/

/-- Two consumers sleep; the first is woken for the value 7, which the third takes. -/
def stolenRun : List (Action ℕ 1 3) :=
  [.pop 0, .pop 1, .push 0 7, .notify 0 (some 0), .pop 2, .push 0 8]

def stolen : State ℕ 1 3 :=
  ((system ℕ 1 3).exec (system ℕ 1 3).init stolenRun).get (by decide +kernel)

theorem stolen_reachable : (system ℕ 1 3).Reachable stolen :=
  System.reachable_get _

/-- One producer and one consumer. -/
def couple (d_queue : List ℕ) (p : Producer) (c : Consumer) (pushed popped : List ℕ) :
    State ℕ 1 1 :=
  ⟨⟨d_queue⟩, fun _ => p, fun _ => c, pushed, popped⟩

theorem update_one {β : Type} (a b : β) : update (fun _ : Fin 1 => a) 0 b = fun _ => b := by
  funext i
  rw [Subsingleton.elim i 0, update_self]

theorem couple_setProducer (q : List ℕ) (p p' : Producer) (c : Consumer) (l l' : List ℕ) :
    (couple q p c l l').setProducer 0 p' = couple q p' c l l' := by
  unfold couple State.setProducer
  rw [update_one]

theorem couple_setConsumer (q : List ℕ) (p : Producer) (c c' : Consumer) (l l' : List ℕ) :
    (couple q p c l l').setConsumer 0 c' = couple q p c' l l' := by
  unfold couple State.setConsumer
  rw [update_one]

/-- The consumer falls asleep again and again, and wakes up spuriously. -/
def restless : ℕ → Consumer
  | 0 => .idle
  | k + 1 => if restless k = .asleep then .woken else .asleep

/-- The consumer sleeps, is woken for the value 7, takes it, and finds nothing any more. -/
def servedRun : (system ℕ 1 1).InfiniteRun where
  state
    | 0 => couple [] .idle .idle [] []
    | 1 => couple [] .idle .asleep [] []
    | 2 => couple [7] .notify .asleep [7] []
    | 3 => couple [7] .idle .woken [7] []
    | k + 4 => couple [] .idle (restless k) [7] [7]
  action
    | 0 => .pop 0
    | 1 => .push 0 7
    | 2 => .notify 0 (some 0)
    | 3 => .pop 0
    | k + 4 => if restless k = .asleep then .spurious 0 else .pop 0
  start := rfl
  next
    | 0 => congrArg some (couple_setConsumer [] .idle .idle .asleep [] [])
    | 1 => congrArg some (couple_setProducer [7] .idle .notify .asleep [7] [])
    | 2 => by
        show some (((couple [7] .notify .asleep [7] []).setConsumer 0 .woken).setProducer 0 .idle) =
          some _
        rw [couple_setConsumer, couple_setProducer]
    | 3 => congrArg some (couple_setConsumer [] .idle .woken .idle [7] [7])
    | k + 4 => by
        show State.step (couple [] .idle (restless k) [7] [7])
            (if restless k = .asleep then .spurious 0 else .pop 0) =
          some (couple [] .idle (if restless k = .asleep then .woken else .asleep) [7] [7])
        cases restless k with
        | asleep => exact congrArg some (couple_setConsumer [] .idle .asleep .woken [7] [7])
        | idle => exact congrArg some (couple_setConsumer [] .idle .idle .asleep [7] [7])
        | woken => exact congrArg some (couple_setConsumer [] .idle .woken .asleep [7] [7])

theorem servedRun_fair : Fair servedRun where
  notified
    | 0, _, h => by cases h
    | 1, _, h => by cases h
    | 2, i, _ => ⟨2, Nat.le_refl 2, some 0, by rw [Subsingleton.elim i 0]; rfl⟩
    | 3, _, h => by cases h
    | _ + 4, _, h => by cases h
  tested
    | 0, _, h => by cases h
    | 1, _, h => by cases h
    | 2, _, h => by cases h
    | 3, j, hj => ⟨3, Nat.le_refl 3, hj, by rw [Subsingleton.elim j 0]; rfl⟩
    | k + 4, j, hj => by
        refine ⟨k + 4, Nat.le_refl _, hj, ?_⟩
        have hk : restless k = .woken := hj
        show (if restless k = .asleep then Action.spurious 0 else Action.pop 0) = .pop j
        rw [hk, Subsingleton.elim j 0]
        rfl

/-- The consumer of `servedRun` sleeps beside the value 7, but not for good. -/
theorem fifo_no_lost_wakeup_stolen :
    (stolen.popped ++ stolen.d_queue.contents = stolen.pushed ∧
      stolen.d_queue.contents.length ≤ stolen.pending + stolen.woken) ∧
    ((servedRun.state 2).consumers 0 = .asleep ∧ (servedRun.state 2).d_queue.contents = [7]) ∧
    ∃ l, 2 ≤ l ∧ ((servedRun.state l).consumers 0 ≠ .asleep ∨
      (servedRun.state l).d_queue.contents = []) := by
  obtain ⟨hfifo, hasleep⟩ := (fifo_no_lost_wakeup ℕ 1 3).1 stolen stolen_reachable
  have hrun := (fifo_no_lost_wakeup ℕ 1 1).2 servedRun servedRun_fair
  exact ⟨⟨hfifo, hasleep 1 (by decide +kernel)⟩, ⟨rfl, rfl⟩, hrun 2 0⟩

end Watermark.BlockingQueue
