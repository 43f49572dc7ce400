import Mathlib.Logic.Function.Basic
import Watermark.Reasoning.Runs
import Watermark.Reasoning.Threads

/-!
# Barrier — spinBarrier

The barrier of ff/barrier.hpp, at which the threads of a farm wait for each other before they begin.
It can be used again and again, since a thread takes the two counters in turns.  A step is an access
to a counter; the place of a thread in `barArray` is its own.
-/

namespace Watermark.FastFlow.SpinBarrier

open Function Reasoning

/-- A thread, in `doBarrier`. -/
inductive Thread where
  | outside
  -- `long c = ++B[whichBar]`
  | arrive (whichBar : Bool)
  -- `B[whichBar]=0`
  | reset (whichBar : Bool)
  -- `c = B[whichBar]`
  | spin (whichBar : Bool)
deriving DecidableEq

structure State (ι : Type*) where
  barArray : ι → Bool
  B : Bool → ℕ
  thread : ι → Thread
  -- history: how often a thread has come to the barrier, and has left it
  arrived : ι → ℕ
  left : ι → ℕ

inductive Action (ι : Type*) where
  | call (tid : ι)
  | step (tid : ι)
deriving DecidableEq

variable {ι : Type*} [DecidableEq ι]

namespace State

def setThread (s : State ι) (tid : ι) (x : Thread) : State ι :=
  { s with thread := update s.thread tid x }

/-- `return` -/
def leave (s : State ι) (tid : ι) : State ι :=
  { s with thread := update s.thread tid .outside, left := update s.left tid (s.left tid + 1) }

/-- `const int whichBar = (barArray[tid] ^= true)` -/
def call (s : State ι) (tid : ι) : Option (State ι) :=
  match s.thread tid with
  | .outside =>
    let whichBar := !s.barArray tid
    some ({ s with barArray := update s.barArray tid whichBar }.setThread tid (.arrive whichBar))
  | _ => none

/-- `doBarrier` -/
def doBarrier (barrier : ℕ) (s : State ι) (tid : ι) : Option (State ι) :=
  match s.thread tid with
  | .outside => none
  | .arrive whichBar =>
    let c := s.B whichBar + 1
    some ({ s with
      B := update s.B whichBar c
      arrived := update s.arrived tid (s.arrived tid + 1) }.setThread tid
        (if c = barrier then .reset whichBar else .spin whichBar))
  | .reset whichBar => some ({ s with B := update s.B whichBar 0 }.leave tid)
  | .spin whichBar => if s.B whichBar = 0 then some (s.leave tid) else some s

def step (barrier : ℕ) (s : State ι) : Action ι → Option (State ι)
  | .call tid => s.call tid
  | .step tid => s.doBarrier barrier tid

end State

/-- The barrier when `barrierSetup` has been called with the number of threads. -/
def system (ι : Type*) [Fintype ι] [DecidableEq ι] : System (State ι) (Action ι) where
  init := {
    barArray := fun _ => false
    B := fun _ => 0
    thread := fun _ => .outside
    arrived := fun _ => 0
    left := fun _ => 0 }
  step := State.step (Fintype.card ι)

/-! ## What a step can do -/

inductive Step (barrier : ℕ) (s : State ι) (tid : ι) : State ι → Prop where
  | call (h : s.thread tid = .outside) :
      Step barrier s tid ({ s with
        barArray := update s.barArray tid (!s.barArray tid) }.setThread tid
          (.arrive !s.barArray tid))
  | arrive {w : Bool} (h : s.thread tid = .arrive w) (hc : s.B w + 1 ≠ barrier) :
      Step barrier s tid ({ s with
        B := update s.B w (s.B w + 1)
        arrived := update s.arrived tid (s.arrived tid + 1) }.setThread tid (.spin w))
  | last {w : Bool} (h : s.thread tid = .arrive w) (hc : s.B w + 1 = barrier) :
      Step barrier s tid ({ s with
        B := update s.B w (s.B w + 1)
        arrived := update s.arrived tid (s.arrived tid + 1) }.setThread tid (.reset w))
  | reset {w : Bool} (h : s.thread tid = .reset w) :
      Step barrier s tid ({ s with B := update s.B w 0 }.leave tid)
  | leave {w : Bool} (h : s.thread tid = .spin w) (hB : s.B w = 0) :
      Step barrier s tid (s.leave tid)
  | wait {w : Bool} (h : s.thread tid = .spin w) (hB : s.B w ≠ 0) : Step barrier s tid s

theorem call_cases {barrier : ℕ} {s t : State ι} {tid : ι} (h : s.call tid = some t) :
    Step barrier s tid t := by
  unfold State.call at h
  split at h
  · rename_i ho
    cases h
    exact .call ho
  · cases h

theorem doBarrier_cases {barrier : ℕ} {s t : State ι} {tid : ι}
    (h : s.doBarrier barrier tid = some t) : Step barrier s tid t := by
  unfold State.doBarrier at h
  split at h
  · cases h
  · rename_i w ha
    cases h
    split
    · rename_i hc
      exact .last ha hc
    · rename_i hc
      exact .arrive ha hc
  · rename_i w hr
    cases h
    exact .reset hr
  · rename_i w hw
    split at h
    · rename_i hB
      cases h
      exact .leave hw hB
    · rename_i hB
      cases h
      exact .wait hw hB

/-- The thread that takes a step. -/
def Action.tid : Action ι → ι
  | .call tid => tid
  | .step tid => tid

theorem step_cases {barrier : ℕ} {s t : State ι} {a : Action ι} (h : s.step barrier a = some t) :
    Step barrier s a.tid t := by
  cases a with
  | call tid => exact call_cases h
  | step tid => exact doBarrier_cases h

/-! ## The rounds -/

/-- The counter of a round. -/
def whichBar (round : ℕ) : Bool := decide (round % 2 = 1)

theorem whichBar_succ (round : ℕ) : whichBar (round + 1) = !whichBar round := by
  unfold whichBar
  rw [← decide_not]
  congr 1
  rw [eq_iff_iff]
  omega

theorem whichBar_succ_ne (round : ℕ) : whichBar (round + 1) ≠ whichBar round := by
  rw [whichBar_succ]
  exact Bool.not_ne_self _

/-- Where a thread can be when all have come for `round` and some are missing for the next one. -/
def Place (round : ℕ) : Thread → Bool → ℕ → ℕ → Prop
  | .outside, bar, arrived, left => bar = whichBar round ∧ arrived = round ∧ left = round
  | .arrive w, bar, arrived, left =>
    w = whichBar (round + 1) ∧ bar = w ∧ arrived = round ∧ left = round
  | .reset w, bar, arrived, left =>
    w = whichBar round ∧ bar = w ∧ arrived = round ∧ left + 1 = round
  | .spin w, bar, arrived, left => bar = w ∧ arrived = left + 1 ∧
    (w = whichBar round ∧ arrived = round ∨ w = whichBar (round + 1) ∧ arrived = round + 1)

variable [Fintype ι]

structure Inv (round : ℕ) (s : State ι) : Prop where
  place : ∀ i, Place round (s.thread i) (s.barArray i) (s.arrived i) (s.left i)
  count : s.B (whichBar (round + 1)) = ∑ i, (s.arrived i - round)
  missing : ∃ i, s.arrived i = round
  -- the last one to come sets the counter to zero before anybody leaves
  release : s.B (whichBar round) = 0 ∧ (∀ i w, s.thread i ≠ .reset w) ∨
    s.B (whichBar round) = Fintype.card ι ∧ ∃ i, s.thread i = .reset (whichBar round) ∧
      ∀ j, j ≠ i → s.thread j = .spin (whichBar round)

namespace Place

variable {round arrived left : ℕ} {x : Thread} {bar : Bool}

theorem arrived_bounds (h : Place round x bar arrived left) :
    round ≤ arrived ∧ arrived ≤ round + 1 := by
  cases x with
  | outside => obtain ⟨_, rfl, _⟩ := h; omega
  | arrive w => obtain ⟨_, _, rfl, _⟩ := h; omega
  | reset w => obtain ⟨_, _, rfl, _⟩ := h; omega
  | spin w => obtain ⟨_, _, ⟨_, rfl⟩ | ⟨_, rfl⟩⟩ := h <;> omega

theorem left_bounds (h : Place round x bar arrived left) : round ≤ left + 1 ∧ left ≤ round := by
  cases x with
  | outside => obtain ⟨_, _, rfl⟩ := h; omega
  | arrive w => obtain ⟨_, _, _, rfl⟩ := h; omega
  | reset w => obtain ⟨_, _, _, hl⟩ := h; omega
  | spin w => obtain ⟨_, hl, ⟨_, ha⟩ | ⟨_, ha⟩⟩ := h <;> omega

theorem arrived_le (h : Place round x bar arrived left) : arrived ≤ left + 1 := by
  cases x with
  | outside => obtain ⟨_, rfl, rfl⟩ := h; omega
  | arrive w => obtain ⟨_, _, rfl, rfl⟩ := h; omega
  | reset w => obtain ⟨_, _, rfl, hl⟩ := h; omega
  | spin w => obtain ⟨_, rfl, _⟩ := h; omega

-- Who has come for the next round waits there.
theorem spin_of_next (h : Place round x bar (round + 1) left) :
    x = .spin (whichBar (round + 1)) := by
  cases x with
  | outside => obtain ⟨_, ha, _⟩ := h; omega
  | arrive w => obtain ⟨_, _, ha, _⟩ := h; omega
  | reset w => obtain ⟨_, _, ha, _⟩ := h; omega
  | spin w =>
      obtain ⟨_, _, ⟨_, ha⟩ | ⟨rfl, _⟩⟩ := h
      · omega
      · rfl

end Place

namespace Inv

variable {round : ℕ} {s t : State ι} {tid : ι}

-- While the last one has not set the counter to zero, the others wait.
theorem quiet (h : Inv round s) (tid : ι) (hr : ∀ w, s.thread tid ≠ .reset w)
    (hs : s.thread tid ≠ .spin (whichBar round)) :
    s.B (whichBar round) = 0 ∧ ∀ i w, s.thread i ≠ .reset w := by
  rcases h.release with hquiet | ⟨_, i, hi, hothers⟩
  · exact hquiet
  · by_cases heq : tid = i
    · exact absurd (heq ▸ hi) (hr _)
    · exact absurd (hothers tid heq) hs

omit [Fintype ι] in
theorem reset_update {thread : ι → Thread} {x : Thread} (hx : ∀ w, x ≠ .reset w)
    (h : ∀ i w, thread i ≠ .reset w) : ∀ i w, update thread tid x i ≠ .reset w :=
  forall_update (fun _ x => ∀ w, x ≠ Thread.reset w) hx fun j _ => h j

theorem of_call (h : Inv round s) (ho : s.thread tid = .outside) :
    Inv round ({ s with barArray := update s.barArray tid (!s.barArray tid) }.setThread tid
      (.arrive !s.barArray tid)) where
  place i := by
    have hplace := h.place i
    simp only [State.setThread]
    by_cases hi : i = tid
    · subst hi
      rw [ho] at hplace
      obtain ⟨hbar, harrived, hleft⟩ := hplace
      rw [update_self, update_self, hbar, ← whichBar_succ]
      exact ⟨rfl, rfl, harrived, hleft⟩
    · rw [update_of_ne hi, update_of_ne hi]
      exact hplace
  count := h.count
  missing := h.missing
  release := by
    obtain ⟨hB, hreset⟩ := h.quiet tid (by simp [ho]) (by simp [ho])
    exact Or.inl ⟨hB, reset_update (fun _ => Thread.noConfusion) hreset⟩

-- One more has come.
theorem sum_arrived (h : Inv round s) (ha : s.arrived tid = round) :
    ∑ i, (update s.arrived tid (s.arrived tid + 1) i - round) = s.B (whichBar (round + 1)) + 1 := by
  have hsum := sum_update (fun a => a - round) s.arrived tid (s.arrived tid + 1)
  have hcount := h.count
  rw [ha] at hsum ⊢
  omega

theorem of_arrive {w : Bool} (h : Inv round s) (hi : s.thread tid = .arrive w)
    (hc : s.B w + 1 ≠ Fintype.card ι) :
    Inv round ({ s with
      B := update s.B w (s.B w + 1)
      arrived := update s.arrived tid (s.arrived tid + 1) }.setThread tid (.spin w)) := by
  have hplace := h.place tid
  rw [hi] at hplace
  obtain ⟨rfl, hbar, harrived, hleft⟩ := hplace
  have hsum := h.sum_arrived harrived
  obtain ⟨hB, hreset⟩ := h.quiet tid (by simp [hi]) (by simp [hi])
  have hplaces : ∀ i, Place round (update s.thread tid (.spin (whichBar (round + 1))) i)
      (s.barArray i) (update s.arrived tid (s.arrived tid + 1) i) (s.left i) := by
    intro i
    by_cases htid : i = tid
    · subst htid
      rw [update_self, update_self]
      exact ⟨hbar, by omega, Or.inr ⟨rfl, by omega⟩⟩
    · rw [update_of_ne htid, update_of_ne htid]
      exact h.place i
  refine ⟨hplaces, ?_, ?_, Or.inl ⟨?_, reset_update (fun _ => Thread.noConfusion) hreset⟩⟩
  · exact (update_self _ _ _).trans hsum.symm
  · -- otherwise they would all have been counted
    by_contra hno
    have hone : ∀ i ∈ Finset.univ, update s.arrived tid (s.arrived tid + 1) i - round = 1 := by
      intro i _
      have hbounds := (hplaces i).arrived_bounds
      have hne : update s.arrived tid (s.arrived tid + 1) i ≠ round := fun heq => hno ⟨i, heq⟩
      omega
    rw [Finset.sum_congr rfl hone, Finset.sum_const, Finset.card_univ, smul_eq_mul, mul_one] at hsum
    exact hc hsum.symm
  · exact (update_of_ne (whichBar_succ_ne round).symm _ _).trans hB

-- The last one begins the next round.
theorem of_last {w : Bool} (h : Inv round s) (hi : s.thread tid = .arrive w)
    (hc : s.B w + 1 = Fintype.card ι) :
    Inv (round + 1) ({ s with
      B := update s.B w (s.B w + 1)
      arrived := update s.arrived tid (s.arrived tid + 1) }.setThread tid (.reset w)) := by
  have hplace := h.place tid
  rw [hi] at hplace
  obtain ⟨rfl, hbar, harrived, hleft⟩ := hplace
  have hsum := h.sum_arrived harrived
  obtain ⟨hB, -⟩ := h.quiet tid (by simp [hi]) (by simp [hi])
  have hbounds : ∀ i, round ≤ update s.arrived tid (s.arrived tid + 1) i ∧
      update s.arrived tid (s.arrived tid + 1) i ≤ round + 1 := by
    refine forall_update (fun _ a => round ≤ a ∧ a ≤ round + 1) (by omega) fun i _ => ?_
    exact (h.place i).arrived_bounds
  have hall : ∀ i, update s.arrived tid (s.arrived tid + 1) i = round + 1 := by
    intro i
    have hone := eq_one_of_sum_eq_card
      (fun i => update s.arrived tid (s.arrived tid + 1) i - round)
      (fun i => by have hb := hbounds i; omega) (hsum.trans hc) i
    have hb := hbounds i
    omega
  have hothers : ∀ i, i ≠ tid → s.arrived i = round + 1 := fun i htid =>
    (update_of_ne htid _ _).symm.trans (hall i)
  have hwaits : ∀ i, i ≠ tid → s.thread i = .spin (whichBar (round + 1)) := fun i htid =>
    Place.spin_of_next (hothers i htid ▸ h.place i)
  refine ⟨fun i => ?_, ?_, ⟨tid, hall tid⟩, Or.inr ⟨?_, tid, update_self _ _ _, fun i htid => ?_⟩⟩
  · simp only [State.setThread]
    by_cases htid : i = tid
    · subst htid
      rw [update_self, update_self]
      exact ⟨rfl, hbar, by omega, by omega⟩
    · have hothers := h.place i
      rw [hwaits i htid] at hothers
      obtain ⟨hbar', hleft', _⟩ := hothers
      rw [update_of_ne htid, update_of_ne htid, hwaits i htid]
      exact ⟨hbar', hleft', Or.inl ⟨rfl, hothers i htid⟩⟩
  · have hzero : ∀ i ∈ Finset.univ,
        update s.arrived tid (s.arrived tid + 1) i - (round + 1) = 0 := fun i _ => by
      rw [hall i, Nat.sub_self]
    refine Eq.trans ?_ (Finset.sum_eq_zero hzero).symm
    show update s.B _ _ (whichBar (round + 1 + 1)) = 0
    rw [update_of_ne (whichBar_succ_ne (round + 1)), whichBar_succ, whichBar_succ, Bool.not_not]
    exact hB
  · exact (update_self _ _ _).trans hc
  · exact (update_of_ne htid _ _).trans (hwaits i htid)

-- One more has left.
theorem place_leave (h : Inv round s) (hbar : s.barArray tid = whichBar round)
    (harrived : s.arrived tid = round) (hleft : s.left tid + 1 = round) (i : ι) :
    Place round ((s.leave tid).thread i) (s.barArray i) (s.arrived i) ((s.leave tid).left i) := by
  simp only [State.leave]
  by_cases htid : i = tid
  · subst htid
    rw [update_self, update_self]
    exact ⟨hbar, harrived, hleft⟩
  · rw [update_of_ne htid, update_of_ne htid]
    exact h.place i

theorem of_reset {w : Bool} (h : Inv round s) (hi : s.thread tid = .reset w) :
    Inv round ({ s with B := update s.B w 0 }.leave tid) := by
  have hplace := h.place tid
  rw [hi] at hplace
  obtain ⟨rfl, hbar, harrived, hleft⟩ := hplace
  refine ⟨h.place_leave hbar harrived hleft, ?_, h.missing, Or.inl ⟨update_self _ _ _, ?_⟩⟩
  · exact (update_of_ne (whichBar_succ_ne round) _ _).trans h.count
  · rcases h.release with ⟨_, hreset⟩ | ⟨_, i, _, hothers⟩
    · exact absurd hi (hreset tid _)
    · have htid : i = tid := by
        by_contra hne
        have hspin := hothers tid (Ne.symm hne)
        rw [hi] at hspin
        cases hspin
      subst htid
      refine forall_update (fun _ x => ∀ w, x ≠ Thread.reset w) (fun _ => Thread.noConfusion) ?_
      intro j hj w hw
      have hspin := hothers j hj
      rw [hw] at hspin
      cases hspin

theorem of_leave {w : Bool} (h : Inv round s) (hi : s.thread tid = .spin w) (hB : s.B w = 0) :
    Inv round (s.leave tid) := by
  have hplace := h.place tid
  rw [hi] at hplace
  obtain ⟨hbar, hleft, hwhich⟩ := hplace
  have hthis : w = whichBar round ∧ s.arrived tid = round := by
    refine hwhich.resolve_right fun ⟨hw, harrived⟩ => ?_
    -- it has been counted itself
    have hle : s.arrived tid - round ≤ ∑ i, (s.arrived i - round) :=
      Finset.single_le_sum (f := fun i => s.arrived i - round) (fun _ _ => Nat.zero_le _)
        (Finset.mem_univ tid)
    rw [hw, h.count] at hB
    omega
  obtain ⟨rfl, harrived⟩ := hthis
  refine ⟨h.place_leave hbar harrived (by omega), h.count, h.missing, Or.inl ⟨hB, ?_⟩⟩
  rcases h.release with ⟨_, hreset⟩ | ⟨hfull, _⟩
  · exact reset_update (fun _ => Thread.noConfusion) hreset
  · have hpos := Fintype.card_pos_iff.mpr ⟨tid⟩
    omega

theorem of_step (h : Inv round s) (hs : Step (Fintype.card ι) s tid t) :
    Inv round t ∨ Inv (round + 1) t := by
  cases hs with
  | call ho => exact Or.inl (h.of_call ho)
  | arrive hi hc => exact Or.inl (h.of_arrive hi hc)
  | last hi hc => exact Or.inr (h.of_last hi hc)
  | reset hi => exact Or.inl (h.of_reset hi)
  | leave hi hB => exact Or.inl (h.of_leave hi hB)
  | wait => exact Or.inl h

omit [DecidableEq ι] in
-- A counter never shows more than there are threads.
theorem counter_le (h : Inv round s) (w : Bool) : s.B w ≤ Fintype.card ι := by
  have hw : w = whichBar round ∨ w = whichBar (round + 1) := by
    rw [whichBar_succ]
    cases w <;> cases whichBar round <;> decide
  rcases hw with rfl | rfl
  · rcases h.release with ⟨hB, _⟩ | ⟨hB, _⟩ <;> omega
  · rw [h.count]
    have hle : ∑ i, (s.arrived i - round) ≤ ∑ _i : ι, 1 := by
      refine Finset.sum_le_sum fun i _ => ?_
      have hbounds := (h.place i).arrived_bounds
      omega
    rwa [Finset.sum_const, Finset.card_univ, smul_eq_mul, mul_one] at hle

omit [DecidableEq ι] in
-- Who waits although all have come is about to be let go.
theorem released (h : Inv round s) {w : Bool} (hi : s.thread tid = .spin w)
    (hall : ∀ j, s.arrived tid ≤ s.arrived j) : s.B w = 0 ∨ ∃ j, s.thread j = .reset w := by
  have hplace := h.place tid
  rw [hi] at hplace
  obtain ⟨_, _, ⟨rfl, _⟩ | ⟨_, harrived⟩⟩ := hplace
  · rcases h.release with ⟨hB, _⟩ | ⟨_, j, hj, _⟩
    · exact Or.inl hB
    · exact Or.inr ⟨j, hj⟩
  · obtain ⟨j, hj⟩ := h.missing
    have hle := hall j
    omega

end Inv

theorem exists_inv [Nonempty ι] {s : State ι} (hs : (system ι).Reachable s) :
    ∃ round, Inv round s := by
  apply hs.invariant (P := fun s => ∃ round, Inv round s)
  · refine ⟨0, fun _ => ⟨rfl, rfl, rfl⟩, ?_, ⟨Classical.arbitrary ι, rfl⟩, Or.inl ⟨rfl, ?_⟩⟩
    · exact (Finset.sum_eq_zero fun _ _ => rfl).symm
    · exact fun _ _ => Thread.noConfusion
  · rintro s a t _ ⟨round, h⟩ ha
    rcases h.of_step (step_cases ha) with h | h
    · exact ⟨round, h⟩
    · exact ⟨round + 1, h⟩

theorem left_le_arrived [Nonempty ι] {s : State ι} (hs : (system ι).Reachable s) (i j : ι) :
    s.left i ≤ s.arrived j := by
  obtain ⟨round, h⟩ := exists_inv hs
  exact (h.place i).left_bounds.2.trans (h.place j).arrived_bounds.1

/-- However often and in whatever order the threads come, none leaves a round before all have come
for it, and when one comes for the round after the next all have left it.  Who waits although all
have come finds the counter at zero as soon as the last one has set it. -/
theorem doBarrier_separates [Nonempty ι] (s : State ι) (hs : (system ι).Reachable s) :
    (∀ i j, s.left i ≤ s.arrived j) ∧ (∀ i j, s.arrived i ≤ s.left j + 2) ∧
      (∀ w, s.B w ≤ Fintype.card ι) ∧
      ∀ i w, s.thread i = .spin w → (∀ j, s.arrived i ≤ s.arrived j) →
        s.B w = 0 ∨ ∃ j, s.thread j = .reset w := by
  obtain ⟨round, h⟩ := exists_inv hs
  refine ⟨left_le_arrived hs, fun i j => ?_, h.counter_le, fun i w hi hall => h.released hi hall⟩
  have harrived := (h.place i).arrived_bounds
  have hleft := (h.place j).left_bounds
  omega

def first : Fin 2 := ⟨0, Nat.two_pos⟩

def second : Fin 2 := ⟨1, Nat.one_lt_two⟩

/-- The second thread comes for the next round while the first has not looked at its counter. -/
def overtakingRun : List (Action (Fin 2)) :=
  [.call first, .step first, .call second, .step second, .step second, .call second, .step second]

def overtaken : State (Fin 2) :=
  ((system (Fin 2)).exec (system (Fin 2)).init overtakingRun).get (by decide +kernel)

theorem doBarrier_separates_overtaken :
    overtaken.arrived second = overtaken.left first + 2 ∧ overtaken.left second = 1 ∧
      overtaken.left second ≤ overtaken.arrived first ∧
      (overtaken.B true = 0 ∨ ∃ j, overtaken.thread j = .reset true) := by
  obtain ⟨hleft, _, _, hreleased⟩ := doBarrier_separates overtaken (System.reachable_get _)
  refine ⟨by decide +kernel, by decide +kernel, hleft second first, ?_⟩
  exact hreleased first true (by decide +kernel) (by decide +kernel)

/-! ## Who comes is let go -/

namespace Inv

variable {round : ℕ} {s : State ι} {tid : ι}

omit [DecidableEq ι] in
-- When the threads inside all wait, one that is outside has not come.
theorem exists_missing (h : Inv round s)
    (hall : ∀ j, s.thread j = .outside ∨ ∃ w, s.thread j = .spin w ∧ s.B w ≠ 0)
    (hin : s.thread tid ≠ .outside) :
    ∃ j, s.thread j = .outside ∧ s.arrived j < s.arrived tid := by
  have hB : s.B (whichBar round) = 0 := by
    rcases h.release with ⟨hB, _⟩ | ⟨_, j, hj, _⟩
    · exact hB
    · rcases hall j with ho | ⟨w, hw, _⟩
      · cases hj.symm.trans ho
      · cases hj.symm.trans hw
  have hnext : ∀ j w, s.thread j = .spin w → s.B w ≠ 0 → s.arrived j = round + 1 := by
    intro j w hw hne
    have hplace := h.place j
    rw [hw] at hplace
    obtain ⟨_, _, ⟨rfl, _⟩ | ⟨_, harrived⟩⟩ := hplace
    · exact absurd hB hne
    · exact harrived
  obtain ⟨w, hw, hne⟩ := (hall tid).resolve_left hin
  have harrived := hnext tid w hw hne
  obtain ⟨j, hj⟩ := h.missing
  refine ⟨j, (hall j).resolve_right fun ⟨v, hv, hv0⟩ => ?_, by omega⟩
  have hj' := hnext j v hv hv0
  omega

end Inv

def Thread.stage : Thread → ℕ
  | .outside => 0
  | .arrive _ => 1
  | _ => 2

theorem Thread.stage_le (x : Thread) : x.stage ≤ 2 := by
  cases x <;> simp [Thread.stage]

omit [Fintype ι] [DecidableEq ι] in
/-- The steps thread `i` has taken, except for waiting. -/
def State.position (s : State ι) (i : ι) : ℕ := 3 * s.left i + (s.thread i).stage

/-- Thread `tid` waits. -/
def State.Waits (s : State ι) (tid : ι) : Prop := ∃ w, s.thread tid = .spin w ∧ s.B w ≠ 0

omit [Fintype ι] in
theorem position_setThread {s t : State ι} {tid : ι} {x : Thread} (hl : t.left = s.left)
    (ht : t.thread = update s.thread tid x) (hx : x.stage = (s.thread tid).stage + 1) :
    t.position = update s.position tid (s.position tid + 1) := by
  funext i
  unfold State.position
  rw [hl, ht]
  by_cases htid : i = tid
  · subst htid
    rw [update_self, update_self, hx]
    rfl
  · rw [update_of_ne htid, update_of_ne htid]

omit [Fintype ι] in
theorem position_leave {s t : State ι} {tid : ι} (hl : t.left = update s.left tid (s.left tid + 1))
    (ht : t.thread = update s.thread tid .outside) (hx : (s.thread tid).stage = 2) :
    t.position = update s.position tid (s.position tid + 1) := by
  funext i
  unfold State.position
  rw [hl, ht]
  by_cases htid : i = tid
  · subst htid
    rw [update_self, update_self, update_self, hx]
    rfl
  · rw [update_of_ne htid, update_of_ne htid, update_of_ne htid]

omit [Fintype ι] in
theorem position_step {barrier : ℕ} {s t : State ι} {tid : ι} (h : Step barrier s tid t) :
    t = s ∧ s.Waits tid ∨ t.position = update s.position tid (s.position tid + 1) := by
  cases h with
  | call ho => exact Or.inr (position_setThread rfl rfl (by rw [ho]; rfl))
  | arrive hi hc => exact Or.inr (position_setThread rfl rfl (by rw [hi]; rfl))
  | last hi hc => exact Or.inr (position_setThread rfl rfl (by rw [hi]; rfl))
  | reset hi => exact Or.inr (position_leave rfl rfl (by rw [hi]; rfl))
  | leave hi hB => exact Or.inr (position_leave rfl rfl (by rw [hi]; rfl))
  | wait hi hB => exact Or.inl ⟨rfl, _, hi, hB⟩

omit [Fintype ι] in
-- Who leaves is outside.
theorem left_of_inside {barrier : ℕ} {s t : State ι} {tid i : ι} (h : Step barrier s tid t)
    (hin : t.thread i ≠ .outside) : t.left i = s.left i := by
  have hleave : ∀ l : ι → ℕ, update s.thread tid .outside i ≠ .outside →
      update l tid (l tid + 1) i = l i := by
    intro l hne
    by_cases htid : i = tid
    · subst htid
      rw [update_self] at hne
      exact absurd rfl hne
    · rw [update_of_ne htid]
  cases h with
  | reset hi => exact hleave s.left hin
  | leave hi hB => exact hleave s.left hin
  | _ => rfl

omit [Fintype ι] in
theorem left_of_return {barrier : ℕ} {s t : State ι} {tid : ι} (h : Step barrier s tid t)
    (hin : s.thread tid ≠ .outside) (hout : t.thread tid = .outside) :
    t.left tid = s.left tid + 1 := by
  cases h with
  | call ho => exact absurd ho hin
  | arrive hi hc => cases (update_self _ _ _).symm.trans hout
  | last hi hc => cases (update_self _ _ _).symm.trans hout
  | reset hi => exact update_self _ _ _
  | leave hi hB => exact update_self _ _ _
  | wait hi hB => exact absurd hout hin

omit [Fintype ι] in
theorem inside_of_call {s t : State ι} {tid : ι} (h : s.call tid = some t) :
    t.thread tid ≠ .outside ∧ t.left = s.left := by
  unfold State.call at h
  split at h
  · cases h
    refine ⟨fun hout => ?_, rfl⟩
    cases (update_self _ _ _).symm.trans hout
  · cases h

omit [Fintype ι] in
-- The other threads are where they were.
theorem others_of_step {barrier : ℕ} {s t : State ι} {tid i : ι} (h : Step barrier s tid t)
    (hi : i ≠ tid) : t.thread i = s.thread i ∧ t.arrived i = s.arrived i ∧ t.left i = s.left i := by
  cases h with
  | call ho => exact ⟨update_of_ne hi _ _, rfl, rfl⟩
  | arrive ha hc => exact ⟨update_of_ne hi _ _, update_of_ne hi _ _, rfl⟩
  | last ha hc => exact ⟨update_of_ne hi _ _, update_of_ne hi _ _, rfl⟩
  | reset hr => exact ⟨update_of_ne hi _ _, rfl, update_of_ne hi _ _⟩
  | leave hw hB => exact ⟨update_of_ne hi _ _, rfl, update_of_ne hi _ _⟩
  | wait hw hB => exact ⟨rfl, rfl, rfl⟩

omit [Fintype ι] in
-- A thread can always go on, if only by waiting.
theorem exists_call {s : State ι} {tid : ι} (h : s.thread tid = .outside) :
    (s.call tid).isSome = true := by
  simp only [State.call, h]
  rfl

omit [Fintype ι] in
theorem exists_doBarrier (barrier : ℕ) {s : State ι} {tid : ι} (h : s.thread tid ≠ .outside) :
    (s.doBarrier barrier tid).isSome = true := by
  unfold State.doBarrier
  split
  · contradiction
  · rfl
  · rfl
  · split <;> rfl

/-- A thread in `doBarrier` gets its turn sooner or later. -/
def Fair (r : (system ι).InfiniteRun) : Prop :=
  ∀ i m, (∀ k, m ≤ k → (r.state k).thread i ≠ .outside) → ∃ k, m ≤ k ∧ r.action k = .step i

section Returns

variable [Nonempty ι] {r : (system ι).InfiniteRun} {i : ι} {m : ℕ}

omit [Nonempty ι] in
theorem left_of_stays (hin : ∀ k, m ≤ k → (r.state k).thread i ≠ .outside) {k : ℕ} (hk : m ≤ k) :
    (r.state k).left i = (r.state m).left i := by
  induction k, hk using Nat.le_induction with
  | base => rfl
  | succ k hk ih =>
      have hleft := left_of_inside (step_cases (r.next k)) (hin (k + 1) (Nat.le_succ_of_le hk))
      exact hleft.trans ih

-- While one thread stays inside, the others are soon at their last step.
theorem position_lt (hin : ∀ k, m ≤ k → (r.state k).thread i ≠ .outside) {k : ℕ} (hk : m ≤ k)
    (j : ι) : (r.state k).position j < 3 * ((r.state m).left i + 2) := by
  obtain ⟨round, h⟩ := exists_inv (r.reachable k)
  have hj := (h.place j).left_bounds
  have hi := (h.place i).left_bounds
  have hleft := left_of_stays hin hk
  have hstage := ((r.state k).thread j).stage_le
  unfold State.position
  omega

theorem eventually_waits (hin : ∀ k, m ≤ k → (r.state k).thread i ≠ .outside) :
    ∃ n, m ≤ n ∧ ∀ k, n ≤ k → r.state (k + 1) = r.state k ∧
      (r.state k).Waits (r.action k).tid := by
  let bound := 3 * ((r.state m).left i + 2)
  let μ : State ι → ℕ := fun s => ∑ j, (bound - s.position j)
  have hstep : ∀ k, m ≤ k → (r.state (k + 1) = r.state k ∧ (r.state k).Waits (r.action k).tid) ∨
      μ (r.state (k + 1)) < μ (r.state k) := by
    intro k hk
    refine (position_step (step_cases (r.next k))).imp id fun hpos => ?_
    have hsum := sum_update (fun p => bound - p) (r.state k).position (r.action k).tid
      ((r.state k).position (r.action k).tid + 1)
    have hlt := position_lt hin hk (r.action k).tid
    show ∑ j, (bound - (r.state (k + 1)).position j) < ∑ j, (bound - (r.state k).position j)
    rw [hpos]
    omega
  have hle : ∀ k, m ≤ k → μ (r.state (k + 1)) ≤ μ (r.state k) := by
    intro k hk
    rcases hstep k hk with ⟨heq, _⟩ | hlt
    · rw [heq]
    · exact Nat.le_of_lt hlt
  by_contra hno
  refine r.not_decreasing_forever hle fun n hn => ?_
  by_contra hnever
  refine hno ⟨n, hn, fun k hk => (hstep k (hn.trans hk)).resolve_right fun hlt => ?_⟩
  exact hnever ⟨k, hk, hlt⟩

/-- A call of `doBarrier` returns, unless some thread that has come less often stays away for
good. -/
theorem doBarrier_returns (r : (system ι).InfiniteRun) (hfair : Fair r) (i : ι) (m : ℕ) :
    (∃ k, m ≤ k ∧ (r.state k).thread i = .outside) ∨
      ∃ j n, ∀ k, n ≤ k → (r.state k).thread j = .outside ∧
        (r.state k).arrived j < (r.state k).arrived i := by
  by_cases hout : ∃ k, m ≤ k ∧ (r.state k).thread i = .outside
  · exact Or.inl hout
  have hin : ∀ k, m ≤ k → (r.state k).thread i ≠ .outside := fun k hk ho => hout ⟨k, hk, ho⟩
  obtain ⟨n, hn, hwaits⟩ := eventually_waits hin
  have hsame : ∀ k, n ≤ k → r.state k = r.state n := by
    intro k hk
    induction k, hk using Nat.le_induction with
    | base => rfl
    | succ k hk ih => exact (hwaits k hk).1.trans ih
  have hall : ∀ j, (r.state n).thread j = .outside ∨ (r.state n).Waits j := by
    intro j
    refine or_iff_not_imp_left.mpr fun hj => ?_
    obtain ⟨k, hk, hstep⟩ := hfair j n fun k hk => by rwa [hsame k hk]
    have hwait := (hwaits k hk).2
    rwa [hsame k hk, hstep] at hwait
  obtain ⟨round, h⟩ := exists_inv (r.reachable n)
  obtain ⟨j, hj, hlt⟩ := h.exists_missing hall (hin n hn)
  refine Or.inr ⟨j, n, fun k hk => ?_⟩
  rw [hsame k hk]
  exact ⟨hj, hlt⟩

end Returns

-- A run is fair when in the end one thread waits and the others are outside.
theorem fair_lasso {s : State ι} {as : List (Action ι)} {tid : ι}
    {h : (system ι).exec (system ι).init as = some s}
    {ha : (system ι).step s (.step tid) = some s} (hout : ∀ j, j ≠ tid → s.thread j = .outside) :
    Fair (System.InfiniteRun.lasso as (.step tid) h ha) := by
  intro j m hin
  refine ⟨m + as.length, Nat.le_add_right _ _, ?_⟩
  rw [System.InfiniteRun.lasso_action (Nat.le_add_left _ _)]
  by_contra hne
  have hj := hin (m + as.length) (Nat.le_add_right _ _)
  rw [System.InfiniteRun.lasso_state (Nat.le_add_left _ _)] at hj
  exact hj (hout j fun heq => hne (congrArg Action.step heq.symm))

/-- The first thread has come, and the second has not. -/
def waiting : State (Fin 2) :=
  ((system (Fin 2)).exec (system (Fin 2)).init [.call first, .step first]).get (by decide +kernel)

def waitingRun : (system (Fin 2)).InfiniteRun :=
  .lasso [.call first, .step first] (.step first) (s := waiting) (Option.some_get _).symm rfl

/-- Both threads have come and gone, and the first has come again. -/
def comeAndGo : List (Action (Fin 2)) :=
  [.call first, .step first, .call second, .step second, .step second, .step first,
    .call first, .step first]

def comeAgain : State (Fin 2) :=
  ((system (Fin 2)).exec (system (Fin 2)).init comeAndGo).get (by decide +kernel)

def comeAgainRun : (system (Fin 2)).InfiniteRun :=
  .lasso comeAndGo (.step first) (s := comeAgain) (Option.some_get _).symm rfl

/-- The second thread, which comes as the last one, returns; where it never comes, the first one
waits for it. -/
theorem doBarrier_returns_waiting :
    ((comeAgainRun.state 4).thread second = .reset true ∧
      ∃ k, 4 ≤ k ∧ (comeAgainRun.state k).thread second = .outside) ∧
    ∃ j n, ∀ k, n ≤ k → (waitingRun.state k).thread j = .outside ∧
      (waitingRun.state k).arrived j < (waitingRun.state k).arrived first := by
  refine ⟨⟨rfl, ?_⟩, ?_⟩
  · have hfair : Fair comeAgainRun := fair_lasso (by decide +kernel)
    refine (doBarrier_returns comeAgainRun hfair second 4).resolve_right ?_
    rintro ⟨j, n, hstays⟩
    have hj := hstays (n + 8) (Nat.le_add_right n 8)
    rw [show comeAgainRun.state (n + 8) = comeAgain from
      System.InfiniteRun.lasso_state (Nat.le_add_left 8 n)] at hj
    have hnone : ∀ j, ¬(comeAgain.thread j = .outside ∧
        comeAgain.arrived j < comeAgain.arrived second) := by decide +kernel
    exact hnone j hj
  · have hfair : Fair waitingRun := fair_lasso (by decide +kernel)
    refine (doBarrier_returns waitingRun hfair first 2).resolve_left ?_
    rintro ⟨k, hk, hout⟩
    rw [show waitingRun.state k = waiting from System.InfiniteRun.lasso_state hk] at hout
    revert hout
    decide +kernel

end Watermark.FastFlow.SpinBarrier
