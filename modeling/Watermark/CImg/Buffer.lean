import Mathlib.Data.Nat.Basic
import Mathlib.Tactic.Ring

/-!
# Buffer — the image type and its unchecked pixel access

`CImg<unsigned char>` keeps its planes one after another in a flat array, and `operator()` turns
a pixel coordinate into an index without looking at the dimensions.  All photos and watermarks
are flat pictures, so the depth is 1 and the coordinate z is left out.  An access past the end is
undefined in the source; here it reads 0 and writes nothing, and `Marking.Bounds` says which
images never cause one.
-/

namespace Watermark

/-- `CImg<unsigned char>` of depth 1; the buffer always has the size its dimensions say.  The
dimensions fit an `int`, to which `width()`, `height()` and `cimg_for1` convert them. -/
structure CImg where
  width : ℕ
  height : ℕ
  spectrum : ℕ
  data : Array UInt8
  size_eq : data.size = width * height * spectrum
  width_lt : width < 2 ^ 31
  height_lt : height < 2 ^ 31
deriving DecidableEq

namespace CImg

/-- The flat index of `operator()(x,y,0,c)`, which is computed in 64 bits (`ulongT`). -/
def offset (img : CImg) (x y c : ℕ) : ℕ :=
  x + y * img.width + c * (img.width * img.height)

/-- `img(x,y,0,c)` as an rvalue. -/
def get (img : CImg) (x y c : ℕ) : UInt8 :=
  img.data.getD (img.offset x y c) 0

/-- `img(x,y,0,c) = v`. -/
def set (img : CImg) (x y c : ℕ) (v : UInt8) : CImg :=
  { img with
    data := img.data.setIfInBounds (img.offset x y c) v
    size_eq := by rw [Array.size_setIfInBounds, img.size_eq] }

/-- The flat index of `operator()(x,y)`: `x + y*_width` without the cast of the other overloads,
so it is computed in `unsigned int`. -/
def planeOffset (img : CImg) (x y : ℕ) : ℕ := (x + y * img.width) % 2 ^ 32

/-- `img(x,y)` as an rvalue. -/
def plane (img : CImg) (x y : ℕ) : UInt8 := img.data.getD (img.planeOffset x y) 0

/-- `CImg<unsigned char>(width,height,1,spectrum,value)` -/
def filled (width height spectrum : ℕ) (value : UInt8) (width_lt : width < 2 ^ 31)
    (height_lt : height < 2 ^ 31) : CImg where
  width
  height
  spectrum
  data := Array.replicate (width * height * spectrum) value
  size_eq := Array.size_replicate
  width_lt
  height_lt

@[simp] theorem set_width (img : CImg) (x y c : ℕ) (v : UInt8) :
    (img.set x y c v).width = img.width := rfl

@[simp] theorem set_height (img : CImg) (x y c : ℕ) (v : UInt8) :
    (img.set x y c v).height = img.height := rfl

@[simp] theorem set_spectrum (img : CImg) (x y c : ℕ) (v : UInt8) :
    (img.set x y c v).spectrum = img.spectrum := rfl

/-! ## Flat indices -/

theorem offset_lt {img : CImg} {x y c : ℕ} (hx : x < img.width) (hy : y < img.height)
    (hc : c < img.spectrum) : img.offset x y c < img.data.size := by
  have hrow : x + y * img.width < img.width * img.height := by
    calc x + y * img.width < img.width + y * img.width := Nat.add_lt_add_right hx _
      _ = img.width * (y + 1) := by ring
      _ ≤ img.width * img.height := Nat.mul_le_mul_left _ hy
  rw [img.size_eq]
  calc img.offset x y c < img.width * img.height + c * (img.width * img.height) :=
        Nat.add_lt_add_right hrow _
    _ = img.width * img.height * (c + 1) := by ring
    _ ≤ img.width * img.height * img.spectrum := Nat.mul_le_mul_left _ hc

theorem size_le_offset {img : CImg} (x y : ℕ) {c : ℕ} (hc : img.spectrum ≤ c) :
    img.data.size ≤ img.offset x y c := by
  rw [img.size_eq]
  calc img.width * img.height * img.spectrum ≤ img.width * img.height * c :=
        Nat.mul_le_mul_left _ hc
    _ = c * (img.width * img.height) := Nat.mul_comm _ _
    _ ≤ img.offset x y c := Nat.le_add_left _ _

-- Different coordinates inside the picture have different flat indices.
theorem offset_inj {img : CImg} {x y c x' y' c' : ℕ} (hx : x < img.width) (hy : y < img.height)
    (hx' : x' < img.width) (hy' : y' < img.height)
    (h : img.offset x y c = img.offset x' y' c') : x = x' ∧ y = y' ∧ c = c' := by
  have hw : 0 < img.width := by omega
  have hh : 0 < img.height := by omega
  have hform : ∀ x y c, img.offset x y c = x + img.width * (y + img.height * c) := by
    intro x y c
    unfold offset
    ring
  rw [hform, hform] at h
  have hmod := congrArg (· % img.width) h
  have hdiv := congrArg (· / img.width) h
  simp only [Nat.add_mul_mod_self_left, Nat.mod_eq_of_lt hx, Nat.mod_eq_of_lt hx',
    Nat.add_mul_div_left _ _ hw, Nat.div_eq_of_lt hx, Nat.div_eq_of_lt hx', Nat.zero_add]
    at hmod hdiv
  have hmod' := congrArg (· % img.height) hdiv
  have hdiv' := congrArg (· / img.height) hdiv
  simp only [Nat.add_mul_mod_self_left, Nat.mod_eq_of_lt hy, Nat.mod_eq_of_lt hy',
    Nat.add_mul_div_left _ _ hh, Nat.div_eq_of_lt hy, Nat.div_eq_of_lt hy', Nat.zero_add]
    at hmod' hdiv'
  exact ⟨hmod, hmod', hdiv'⟩

-- Every index of the buffer is the index of a pixel of the picture.
theorem exists_offset {img : CImg} {i : ℕ} (hi : i < img.data.size) :
    ∃ x y c, x < img.width ∧ y < img.height ∧ c < img.spectrum ∧ img.offset x y c = i := by
  rw [img.size_eq] at hi
  have hw : 0 < img.width := by
    by_contra h0
    rw [Nat.eq_zero_of_not_pos h0, Nat.zero_mul, Nat.zero_mul] at hi
    omega
  have hh : 0 < img.height := by
    by_contra h0
    rw [Nat.eq_zero_of_not_pos h0, Nat.mul_zero, Nat.zero_mul] at hi
    omega
  refine ⟨i % img.width, i / img.width % img.height, i / (img.width * img.height),
    Nat.mod_lt _ hw, Nat.mod_lt _ hh, Nat.div_lt_of_lt_mul hi, ?_⟩
  have hlow := Nat.mod_add_div i img.width
  have hhigh := Nat.mod_add_div (i / img.width) img.height
  rw [Nat.div_div_eq_div_mul] at hhigh
  calc img.offset (i % img.width) (i / img.width % img.height) (i / (img.width * img.height))
      = i % img.width + img.width *
          (i / img.width % img.height + img.height * (i / (img.width * img.height))) := by
        unfold offset
        ring
    _ = i := by rw [hhigh, hlow]

-- The index of `operator()(x,y)` is that of the pixel as long as it does not wrap around.
theorem planeOffset_eq_iff {img : CImg} {x y : ℕ} :
    img.planeOffset x y = img.offset x y 0 ↔ x + y * img.width < 2 ^ 32 := by
  unfold planeOffset offset
  rw [Nat.zero_mul, Nat.add_zero]
  constructor
  · intro h
    rw [← h]
    exact Nat.mod_lt _ (by decide)
  · exact Nat.mod_eq_of_lt

-- The last pixel of an area has the largest index.
theorem index_lt_iff {w h stride n : ℕ} (hw : 0 < w) (hh : 0 < h) :
    w - 1 + (h - 1) * stride < n ↔ ∀ x < w, ∀ y < h, x + y * stride < n := by
  constructor
  · intro hlast x hx y hy
    have hrow : y * stride ≤ (h - 1) * stride := Nat.mul_le_mul_right _ (by omega)
    omega
  · intro hall
    exact hall (w - 1) (by omega) (h - 1) (by omega)

theorem plane_eq_of_offset {img : CImg} {x y x' y' c : ℕ}
    (h : img.planeOffset x y = img.offset x' y' c) : img.plane x y = img.get x' y' c := by
  unfold plane get
  rw [h]

theorem plane_eq_get {img : CImg} {x y : ℕ} (h : x + y * img.width < 2 ^ 32) :
    img.plane x y = img.get x y 0 :=
  plane_eq_of_offset (planeOffset_eq_iff.mpr h)

-- Where an index wraps around to is again a pixel.
theorem exists_wrapped {w h x y : ℕ} (hx : x < w) (hy : y < h) :
    ∃ x' y', x' < w ∧ y' < h ∧ (x + y * w) % 2 ^ 32 = x' + y' * w := by
  refine ⟨(x + y * w) % 2 ^ 32 % w, (x + y * w) % 2 ^ 32 / w, Nat.mod_lt _ (by omega), ?_, ?_⟩
  · refine Nat.div_lt_of_lt_mul ?_
    calc (x + y * w) % 2 ^ 32 ≤ x + y * w := Nat.mod_le _ _
      _ < w + y * w := Nat.add_lt_add_right hx _
      _ = w * (y + 1) := by ring
      _ ≤ w * h := Nat.mul_le_mul_left _ hy
  · rw [Nat.mul_comm (_ / w), Nat.mod_add_div]

/-! ## Reading back -/

private theorem getD_setIfInBounds (a : Array UInt8) (i j : ℕ) (v : UInt8) :
    (a.setIfInBounds i v).getD j 0 = if i = j ∧ i < a.size then v else a.getD j 0 := by
  rw [Array.getD_eq_getD_getElem?, Array.getD_eq_getD_getElem?, Array.getElem?_setIfInBounds]
  by_cases hij : i = j
  · subst hij
    by_cases hi : i < a.size
    · rw [if_pos rfl, if_pos hi, if_pos ⟨rfl, hi⟩, Option.getD_some]
    · rw [if_pos rfl, if_neg hi, if_neg (fun h => hi h.2),
        Array.getElem?_eq_none (Nat.le_of_not_lt hi)]
  · rw [if_neg hij, if_neg (fun h => hij h.1)]

theorem get_filled {w h s : ℕ} {value : UInt8} (hw : w < 2 ^ 31) (hh : h < 2 ^ 31) {x y c : ℕ}
    (hx : x < w) (hy : y < h) (hc : c < s) : (filled w h s value hw hh).get x y c = value := by
  have hi : (filled w h s value hw hh).offset x y c < w * h * s :=
    (filled w h s value hw hh).size_eq ▸ offset_lt hx hy hc
  unfold get
  rw [Array.getD_eq_getD_getElem?]
  show (Array.replicate (w * h * s) value)[_]?.getD 0 = value
  rw [Array.getElem?_replicate, if_pos hi, Option.getD_some]

-- A write changes one channel of one pixel, and nothing when the channel does not exist.
theorem get_set {img : CImg} {x y x' y' : ℕ} (hx : x < img.width) (hy : y < img.height)
    (hx' : x' < img.width) (hy' : y' < img.height) (c c' : ℕ) (v : UInt8) :
    (img.set x y c v).get x' y' c' =
      if x' = x ∧ y' = y ∧ c' = c ∧ c < img.spectrum then v else img.get x' y' c' := by
  change (img.data.setIfInBounds (img.offset x y c) v).getD (img.offset x' y' c') 0 = _
  rw [getD_setIfInBounds]
  refine if_congr ⟨fun h => ?_, fun h => ?_⟩ rfl rfl
  · obtain ⟨rfl, rfl, rfl⟩ := offset_inj hx hy hx' hy' h.1
    refine ⟨rfl, rfl, rfl, ?_⟩
    by_contra hc
    exact absurd h.2 (Nat.not_lt.mpr (size_le_offset x y (Nat.le_of_not_lt hc)))
  · obtain ⟨rfl, rfl, rfl, hc⟩ := h
    exact ⟨rfl, offset_lt hx hy hc⟩

-- Pictures of the same dimensions with the same pixels are equal, buffers included.
theorem ext_get {a b : CImg} (hw : a.width = b.width) (hh : a.height = b.height)
    (hs : a.spectrum = b.spectrum)
    (h : ∀ x y c, x < a.width → y < a.height → c < a.spectrum → a.get x y c = b.get x y c) :
    a = b := by
  have hsize : a.data.size = b.data.size := by rw [a.size_eq, b.size_eq, hw, hh, hs]
  have hoff : ∀ x y c, b.offset x y c = a.offset x y c := by
    intro x y c
    unfold offset
    rw [hw, hh]
  have hdata : a.data = b.data := by
    refine Array.ext hsize fun i hia hib => ?_
    obtain ⟨x, y, c, hx, hy, hc, rfl⟩ := exists_offset hia
    have hpix := h x y c hx hy hc
    unfold get at hpix
    rw [hoff, Array.getD_eq_getD_getElem?, Array.getD_eq_getD_getElem?,
      Array.getElem?_eq_getElem hia, Array.getElem?_eq_getElem hib] at hpix
    simpa only [Option.getD_some] using hpix
  cases a
  cases b
  simp only at hw hh hs hdata
  subst hw hh hs hdata
  rfl

end CImg

end Watermark
