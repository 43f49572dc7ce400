import Mathlib.Data.Nat.Notation
import Mathlib.Logic.Function.Defs

/-!
# Title — the titles main gives to the copies of the photo

The map programs count the parts of a photo by its title, so two photos must not share one.
-/

namespace Watermark

/-- `std::to_string(i)+".jpg"` -/
def photoTitle (i : ℕ) : String := toString i ++ ".jpg"

theorem photoTitle_injective : Function.Injective photoTitle := by
  intro i j h
  have hrepr : Nat.repr i = Nat.repr j := (String.append_left_inj ".jpg").mp h
  have hdigits := congrArg String.toList hrepr
  rw [Nat.toList_repr, Nat.toList_repr] at hdigits
  have hvalue := congrArg (fun l => Nat.ofDigitChars 10 l 0) hdigits
  simpa using hvalue

end Watermark
