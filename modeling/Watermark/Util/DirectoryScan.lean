import Watermark.Reasoning.Search

/-!
# DirectoryScan — how the mains choose the photo they copy

All five mains contain the same loop over `readdir`.  It takes the first name in which ".jpg"
occurs somewhere, while `findJPG` of util.h, which no main calls, asks for names that end in it.
Names are byte strings.
-/

namespace Watermark

open Reasoning

/-- The contents of a `std::string`. -/
abbrev Bytes := List UInt8

def bytes (s : String) : Bytes := s.toList.map fun c => UInt8.ofNat c.toNat

/-- `ext` -/
def jpg : Bytes := bytes ".jpg"

/-- `findJPG` -/
def findJPG (check : Bytes) : Bool :=
  if check.length ≥ jpg.length then
    (check.drop (check.length - jpg.length)).take jpg.length == jpg
  else false

/-- `file_name.find(".jpg") != std::string::npos` -/
def hasJPG (file_name : Bytes) : Bool := (find jpg file_name).isSome

/-- `while ((ent = readdir(dir)) != NULL)`, over the names that are left. -/
def readdirLoop (input_directory : Bytes) : List Bytes → ℤ → Bytes → Bytes
  | [], _, target_image => target_image
  | file_name :: rest, counter, target_image =>
    if hasJPG file_name then
      if counter = 0 then
        readdirLoop input_directory rest (counter + 1) (input_directory ++ file_name)
      -- `break`
      else target_image
    else readdirLoop input_directory rest counter target_image

/-- `target_image` after the loop, for a directory with these entries. -/
def target_image (input_directory : Bytes) (names : List Bytes) : Bytes :=
  readdirLoop input_directory names 0 []

theorem findJPG_iff {name : Bytes} : findJPG name = true ↔ jpg <:+ name := by
  rw [← drop_eq_iff_suffix, findJPG]
  by_cases hlen : name.length ≥ jpg.length
  · rw [if_pos hlen, beq_iff_eq]
    exact (and_iff_right hlen).symm
  · rw [if_neg hlen]
    exact iff_of_false Bool.false_ne_true fun h => hlen h.1

theorem hasJPG_of_findJPG {name : Bytes} (h : findJPG name = true) : hasJPG name = true :=
  isSome_find_of_suffix (findJPG_iff.mp h)

theorem ne_nil_of_hasJPG {name : Bytes} (h : hasJPG name = true) : name ≠ [] := by
  rintro rfl
  exact absurd h (by decide)

/-! ## What the loop computes -/

-- Once an image is chosen the loop only looks for a reason to stop.
theorem readdirLoop_chosen (input_directory : Bytes) (names : List Bytes) {counter : ℤ}
    (hc : counter ≠ 0) (target_image : Bytes) :
    readdirLoop input_directory names counter target_image = target_image := by
  induction names with
  | nil => rfl
  | cons name names ih =>
      rw [readdirLoop, if_neg hc, ih]
      exact ite_self _

theorem target_image_eq (input_directory : Bytes) (names : List Bytes) :
    target_image input_directory names =
      ((names.find? hasJPG).map (input_directory ++ ·)).getD [] := by
  unfold target_image
  induction names with
  | nil => rfl
  | cons name names ih =>
      rw [readdirLoop]
      by_cases hname : hasJPG name = true
      · rw [if_pos hname, if_pos rfl, readdirLoop_chosen _ _ (by decide),
          List.find?_cons_of_pos hname]
        rfl
      · rw [if_neg hname, ih, List.find?_cons_of_neg hname]

/-- The loop ends with the first name that ends in ".jpg", and with nothing if there is none. -/
def ChoosesJPG (input_directory : Bytes) (names : List Bytes) : Prop :=
  target_image input_directory names =
      ((names.find? findJPG).map (input_directory ++ ·)).getD [] ∧
    (target_image input_directory names = [] ↔ ∀ name ∈ names, findJPG name = false)

-- Different choices show in `target_image`: a chosen name is not empty.
theorem getD_map_append_inj (input_directory : Bytes) {x y : Option Bytes}
    (hx : ∀ name ∈ x, name ≠ []) (hy : ∀ name ∈ y, name ≠ [])
    (h : (x.map (input_directory ++ ·)).getD [] = (y.map (input_directory ++ ·)).getD []) :
    x = y := by
  cases x with
  | none =>
      cases y with
      | none => rfl
      | some name => exact absurd (List.append_eq_nil_iff.mp h.symm).2 (hy name rfl)
  | some name =>
      cases y with
      | none => exact absurd (List.append_eq_nil_iff.mp h).2 (hx name rfl)
      | some name' => exact congrArg some (List.append_cancel_left h)

theorem choosesJPG_iff_find? (input_directory : Bytes) (names : List Bytes) :
    ChoosesJPG input_directory names ↔ names.find? hasJPG = names.find? findJPG := by
  have hne : ∀ name ∈ names.find? hasJPG, name ≠ [] := fun name h =>
    ne_nil_of_hasJPG (List.find?_some h)
  have hne' : ∀ name ∈ names.find? findJPG, name ≠ [] := fun name h =>
    ne_nil_of_hasJPG (hasJPG_of_findJPG (List.find?_some h))
  unfold ChoosesJPG
  rw [target_image_eq]
  constructor
  · intro h
    exact getD_map_append_inj input_directory hne hne' h.1
  · intro h
    rw [h]
    refine ⟨rfl, ?_⟩
    rw [show (∀ name ∈ names, findJPG name = false) ↔ names.find? findJPG = none by simp]
    cases hfind : names.find? findJPG with
    | none => simp
    | some name => simp [hne' name hfind]

/-- The scan chooses the JPEG exactly when every name that contains ".jpg" without ending in it
comes after a name that ends in it. -/
theorem choosesJPG_iff (input_directory : Bytes) (names : List Bytes) :
    ChoosesJPG input_directory names ↔
      ∀ before name after, names = before ++ name :: after →
        jpg <:+: name → ¬jpg <:+ name → ∃ name' ∈ before, jpg <:+ name' := by
  rw [choosesJPG_iff_find?, find?_eq_find?_iff fun _ => hasJPG_of_findJPG]
  unfold Preceded
  simp only [← findJPG_iff, ← isSome_find_iff, Bool.not_eq_true]
  rfl

/-- A picture that has been converted from a JPEG stands before the JPEG. -/
theorem not_choosesJPG_converted :
    target_image (bytes "in/") [bytes "a.jpg.png", bytes "b.jpg"] = bytes "in/a.jpg.png" ∧
      ¬ChoosesJPG (bytes "in/") [bytes "a.jpg.png", bytes "b.jpg"] := by
  refine ⟨by decide +kernel, ?_⟩
  rw [choosesJPG_iff_find?]
  decide +kernel

end Watermark
