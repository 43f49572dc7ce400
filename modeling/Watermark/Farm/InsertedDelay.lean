import Watermark.Farm.Model
import Watermark.Util.ActiveDelay

/-!
# InsertedDelay — the time Emitter_Farm spends before it pushes a photo

`main` prints `inserted_delay` as the inter-arrival time.  This file follows the readings of the
clock the emitter takes; the pushes themselves are those of `Farm.Model`.
-/

namespace Watermark.Farm

open Reasoning

/-- One round of the first loop of `Emitter_Farm`: the readings at which `active_delay` starts and
is left, and the photo that is pushed then. -/
structure Emission where
  point : Image
  start : ℕ
  left : ℕ

/-- `for (Image *point : photos)`, before reading `k` of the clock. -/
def emitterLoop (c : Clock) (inserted_delay : ℤ) : List Image → ℕ → ℕ → List Emission
  | [], _, _ => []
  | point :: rest, counter_emitter, k =>
    -- `tCompletionStart` and `tparallel_start`
    let k := if counter_emitter = 0 then k + 2 else k
    let counter_emitter := if counter_emitter = 0 then 1 else counter_emitter
    let left := active_delay c k inserted_delay
    ⟨point, k, left⟩ :: emitterLoop c inserted_delay rest counter_emitter (left + 1)

/-- `Emitter_Farm`; the first reading is `start_Emitter`. -/
def Emitter_Farm (c : Clock) (inserted_delay : ℤ) (photos : List Image) : List Emission :=
  emitterLoop c inserted_delay photos 0 1

-- Before each push the emitter has called `active_delay(inserted_delay)`.
theorem left_of_mem_emitterLoop {c : Clock} {inserted_delay : ℤ} {photos : List Image}
    {counter_emitter k : ℕ} {e : Emission}
    (he : e ∈ emitterLoop c inserted_delay photos counter_emitter k) :
    e.left = active_delay c e.start inserted_delay := by
  induction photos generalizing counter_emitter k with
  | nil => exact absurd he List.not_mem_nil
  | cons point rest ih =>
      rw [emitterLoop] at he
      rcases List.mem_cons.mp he with rfl | he
      · rfl
      · exact ih he

/-- `active_delay` is left at the first reading at which the delay asked for has passed, and the
emitter spends the reported inter-arrival time before each push, exactly when the clock is not read
in the millisecond that follows. -/
theorem delay_askedFor_iff (c : Clock) :
    (∀ (k : ℕ) (msecs : ℤ), DelayAskedFor c k msecs (active_delay c k msecs) ↔
      ¬ReadsInLastMillisecond c k msecs) ∧
    ∀ (inserted_delay : ℤ) (photos : List Image),
      (∀ e ∈ Emitter_Farm c inserted_delay photos,
        DelayAskedFor c e.start inserted_delay e.left) ↔
      ∀ e ∈ Emitter_Farm c inserted_delay photos,
        ¬ReadsInLastMillisecond c e.start inserted_delay := by
  refine ⟨delayAskedFor_iff c, fun inserted_delay photos => ?_⟩
  apply forall₂_congr
  intro e he
  rw [left_of_mem_emitterLoop he]
  exact delayAskedFor_iff c e.start inserted_delay

/-- A clock that is read once a millisecond. -/
def millisecondClock : Clock where
  now k := k * 1000000
  mono i j hij := by
    show (i : ℤ) * 1000000 ≤ j * 1000000
    omega
  unbounded b := ⟨b.toNat, by omega⟩

/-- A delay of 5 milliseconds ends one reading late, also before the push of a photo. -/
theorem not_delay_askedFor_millisecond :
    ¬DelayAskedFor millisecondClock 0 5 (active_delay millisecondClock 0 5) ∧
      ∃ e ∈ Emitter_Farm millisecondClock 5 [⟨"0.jpg", 0⟩],
        ¬DelayAskedFor millisecondClock e.start 5 e.left := by
  have hread : ∀ k, ReadsInLastMillisecond millisecondClock k 5 := by
    intro k
    refine ⟨k + 5, by omega, ?_, ?_⟩
    · show (k : ℤ) * 1000000 + 5 * 1000000 ≤ ((k + 5 : ℕ) : ℤ) * 1000000
      omega
    · show ((k + 5 : ℕ) : ℤ) * 1000000 < (k : ℤ) * 1000000 + (5 + 1) * 1000000
      omega
  refine ⟨fun h => (delayAskedFor_iff _ _ _).mp h (hread 0), ?_⟩
  refine ⟨⟨⟨"0.jpg", 0⟩, 3, active_delay millisecondClock 3 5⟩, List.mem_cons_self, ?_⟩
  intro h
  exact (delayAskedFor_iff _ _ _).mp h (hread 3)

end Watermark.Farm
