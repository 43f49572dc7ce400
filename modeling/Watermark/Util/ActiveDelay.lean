import Watermark.Reasoning.Clock

/-!
# ActiveDelay — the busy wait of util.cpp

The loop reads the clock until more than `msecs` whole milliseconds have gone by since the first
reading.  A reading is its position in the sequence the thread sees.
-/

namespace Watermark

open Reasoning

/-- `std::chrono::duration_cast<std::chrono::milliseconds>(elapsed).count()` -/
def milliseconds (elapsed : ℤ) : ℤ := elapsed.tdiv 1000000

theorem lt_milliseconds_iff {elapsed msecs : ℤ} (h : 0 ≤ elapsed) :
    msecs < milliseconds elapsed ↔ (msecs + 1) * 1000000 ≤ elapsed := by
  unfold milliseconds
  rw [Int.tdiv_eq_ediv_of_nonneg h, ← Int.add_one_le_iff]
  exact Int.le_ediv_iff_mul_le (by decide)

theorem milliseconds_add_le {elapsed longer msecs : ℤ} (h : 0 ≤ elapsed) (h' : 0 ≤ longer)
    (hle : elapsed + msecs * 1000000 ≤ longer) :
    milliseconds elapsed + msecs ≤ milliseconds longer := by
  unfold milliseconds
  rw [Int.tdiv_eq_ediv_of_nonneg h, Int.tdiv_eq_ediv_of_nonneg h']
  omega

theorem milliseconds_mono {elapsed longer : ℤ} (h : 0 ≤ elapsed) (hle : elapsed ≤ longer) :
    milliseconds elapsed ≤ milliseconds longer := by
  have hadd : milliseconds elapsed + 0 ≤ milliseconds longer :=
    milliseconds_add_le h (h.trans hle) (by omega)
  omega

theorem le_milliseconds {elapsed msecs : ℤ} (h : 0 ≤ elapsed) (hle : msecs * 1000000 ≤ elapsed) :
    msecs ≤ milliseconds elapsed := by
  have hadd := milliseconds_add_le (Int.le_refl 0) h (by omega : 0 + msecs * 1000000 ≤ elapsed)
  have hzero : milliseconds 0 = 0 := by decide
  omega

theorem milliseconds_nonneg {elapsed : ℤ} (h : 0 ≤ elapsed) : 0 ≤ milliseconds elapsed :=
  le_milliseconds h (by omega)

-- If there was time for several delays, there was time for one.
theorem add_delay_le {since now msecs k : ℤ} (hk : 1 ≤ k) (hsince : since ≤ now)
    (h : since + k * (msecs + 1) * 1000000 ≤ now) : since + (msecs + 1) * 1000000 ≤ now := by
  rcases Int.le_total 0 (msecs + 1) with hd | hd
  · have hmul := mul_le_mul_of_nonneg_right hk hd
    omega
  · omega

theorem lt_milliseconds_of_le {elapsed msecs : ℤ} (h : (max msecs 0 + 1) * 1000000 ≤ elapsed) :
    msecs < milliseconds elapsed := by
  rw [lt_milliseconds_iff (by omega)]
  omega

/-- `while(!end)`, before reading `k`: the reading at which the loop is left. -/
def delayLoop (c : Clock) (start msecs : ℤ) (k : ℕ) : ℕ :=
  if msecs < milliseconds (c.now k - start) then k else delayLoop c start msecs (k + 1)
termination_by c.ticksTo (start + (max msecs 0 + 1) * 1000000) - k
decreasing_by
  rename_i h
  have hlt : c.now k < start + (max msecs 0 + 1) * 1000000 := by
    by_contra hge
    apply h
    apply lt_milliseconds_of_le
    omega
  have hticks := Clock.lt_ticksTo hlt
  omega

/-- `active_delay(msecs)`, called before reading `k`, which becomes `start`. -/
def active_delay (c : Clock) (k : ℕ) (msecs : ℤ) : ℕ := delayLoop c (c.now k) msecs (k + 1)

theorem isFirst_delayLoop {c : Clock} {start msecs : ℤ} {k : ℕ} (h : start ≤ c.now k) :
    c.IsFirst k (start + (msecs + 1) * 1000000) (delayLoop c start msecs k) := by
  induction k using delayLoop.induct c start msecs with
  | case1 k hexit =>
      rw [delayLoop, if_pos hexit]
      rw [lt_milliseconds_iff (by omega)] at hexit
      apply Clock.isFirst_self
      omega
  | case2 k hstay ih =>
      rw [delayLoop, if_neg hstay]
      rw [lt_milliseconds_iff (by omega)] at hstay
      apply Clock.IsFirst.of_succ (by omega)
      exact ih (h.trans (c.mono (Nat.le_succ k)))

-- The loop is left at the first reading taken `msecs + 1` milliseconds after `start`.
theorem isFirst_active_delay (c : Clock) (k : ℕ) (msecs : ℤ) :
    c.IsFirst (k + 1) (c.now k + (msecs + 1) * 1000000) (active_delay c k msecs) :=
  isFirst_delayLoop (c.mono (Nat.le_succ k))

/-- Some reading after the one at `k` is taken in the millisecond in which `msecs` have gone by. -/
def ReadsInLastMillisecond (c : Clock) (k : ℕ) (msecs : ℤ) : Prop :=
  ∃ i, k < i ∧ c.now k + msecs * 1000000 ≤ c.now i ∧ c.now i < c.now k + (msecs + 1) * 1000000

/-- The delay ends at the first reading taken `msecs` milliseconds after `start`. -/
def DelayAskedFor (c : Clock) (k : ℕ) (msecs : ℤ) (left : ℕ) : Prop :=
  c.IsFirst (k + 1) (c.now k + msecs * 1000000) left

theorem delayAskedFor_iff (c : Clock) (k : ℕ) (msecs : ℤ) :
    DelayAskedFor c k msecs (active_delay c k msecs) ↔ ¬ReadsInLastMillisecond c k msecs := by
  unfold DelayAskedFor ReadsInLastMillisecond
  rw [(isFirst_active_delay c k msecs).iff_no_reading (by omega)]
  simp only [not_exists, Nat.lt_iff_add_one_le]
  exact ⟨fun h i hi => h i hi.1 hi.2, fun h i hki hi => h i ⟨hki, hi⟩⟩

/-! ## In a thread among others -/

/-- A call of `active_delay`: the statement the thread is about to execute. -/
inductive Delay where
  -- `auto start = ...`
  | called
  -- `while(!end)`
  | spin (start : ℤ)
  | returned
deriving DecidableEq

namespace Delay

/-- The next reading of the clock, which shows `now`. -/
def read (msecs : ℤ) (d : Delay) (now : ℤ) : Option Delay :=
  match d with
  | .called => some (.spin now)
  | .spin start => some (if msecs < milliseconds (now - start) then .returned else .spin start)
  | .returned => none

/-- The call was made at `since` or later. -/
def CalledFrom (since msecs now : ℤ) : Delay → Prop
  | .called => since ≤ now
  | .spin start => since ≤ start ∧ start ≤ now
  | .returned => since ≤ now ∧ since + (msecs + 1) * 1000000 ≤ now

variable {since msecs now : ℤ} {d d' : Delay}

theorem CalledFrom.wait {later : ℤ} (h : d.CalledFrom since msecs now) (hle : now ≤ later) :
    d.CalledFrom since msecs later := by
  cases d with
  | called => exact h.trans hle
  | spin start => exact ⟨h.1, h.2.trans hle⟩
  | returned => exact ⟨h.1.trans hle, h.2.trans hle⟩

theorem CalledFrom.le (h : d.CalledFrom since msecs now) : since ≤ now := by
  cases d with
  | called => exact h
  | spin start => exact h.1.trans h.2
  | returned => exact h.1

theorem CalledFrom.read (h : d.CalledFrom since msecs now) (hd : d.read msecs now = some d') :
    d'.CalledFrom since msecs now := by
  cases d with
  | called =>
      cases hd
      exact ⟨h, le_refl now⟩
  | spin start =>
      obtain ⟨hsince, hnow⟩ := h
      cases hd
      split
      · rename_i hexit
        rw [lt_milliseconds_iff (by omega)] at hexit
        exact ⟨by omega, by omega⟩
      · exact ⟨hsince, hnow⟩
  | returned => cases hd

theorem eq_returned_of_read (h : d.read msecs now = none) : d = .returned := by
  cases d with
  | returned => rfl
  | called => cases h
  | spin start => cases h

theorem read_spin {start : ℤ} (h : (spin start).read msecs now = some d) :
    d = .returned ∨ d = .spin start := by
  cases h
  split
  · exact Or.inl rfl
  · exact Or.inr rfl

-- The loop is left when it is late enough.
theorem read_spin_of_le {start : ℤ} (h : start + (max msecs 0 + 1) * 1000000 ≤ now) :
    (spin start).read msecs now = some .returned := by
  show some (if msecs < milliseconds (now - start) then returned else spin start) = some returned
  rw [if_pos (lt_milliseconds_of_le (by omega))]

end Delay

theorem le_delayLoop (c : Clock) (start msecs : ℤ) (k : ℕ) : k ≤ delayLoop c start msecs k := by
  induction k using delayLoop.induct c start msecs with
  | case1 k hexit =>
      rw [delayLoop, if_pos hexit]
  | case2 k hstay ih =>
      rw [delayLoop, if_neg hstay]
      omega

theorem foldlM_read_spin (c : Clock) (start msecs : ℤ) (k : ℕ) :
    ((List.range' k (delayLoop c start msecs k + 1 - k)).map c.now).foldlM (Delay.read msecs)
      (.spin start) = some .returned := by
  induction k using delayLoop.induct c start msecs with
  | case1 k hexit =>
      rw [delayLoop, if_pos hexit, Nat.add_sub_cancel_left]
      show (Delay.spin start).read msecs (c.now k) >>= _ = _
      simp only [Delay.read, if_pos hexit]
      rfl
  | case2 k hstay ih =>
      have hle := le_delayLoop c start msecs (k + 1)
      rw [delayLoop, if_neg hstay, show delayLoop c start msecs (k + 1) + 1 - k =
        (delayLoop c start msecs (k + 1) + 1 - (k + 1)) + 1 by omega]
      show (Delay.spin start).read msecs (c.now k) >>= _ = _
      simp only [Delay.read, if_neg hstay]
      exact ih

-- A thread that takes the readings from `k` on is through with the one at `active_delay c k msecs`.
theorem foldlM_read_called (c : Clock) (k : ℕ) (msecs : ℤ) :
    ((List.range' k (active_delay c k msecs + 1 - k)).map c.now).foldlM (Delay.read msecs)
      .called = some .returned := by
  have hle := le_delayLoop c (c.now k) msecs (k + 1)
  unfold active_delay
  rw [show delayLoop c (c.now k) msecs (k + 1) + 1 - k =
    (delayLoop c (c.now k) msecs (k + 1) + 1 - (k + 1)) + 1 by omega]
  exact foldlM_read_spin c (c.now k) msecs (k + 1)

end Watermark
