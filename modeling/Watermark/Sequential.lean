import Watermark.Marking.Thread
import Watermark.Util.Title

/-!
# Sequential — sequential.cpp, the reference for the parallel programs
-/

namespace Watermark.Sequential

/-- Every image has a buffer of its own, so the pointer is the buffer. -/
structure Image where
  P_pointer : CImg
  title : String
deriving DecidableEq

/-- `main` fills `Images_Processed` with the copies it is given. -/
def load (copies : List CImg) : List Image :=
  copies.zipIdx.map fun (copy, i) => ⟨copy, photoTitle i⟩

/-- One round of the marking loop. -/
def mark (o : Overlay) (p : Image) : Image := { p with P_pointer := markingLoop o p.P_pointer }

/-- `for(Image *p : Images_Processed)` -/
def Images_Processed (o : Overlay) (images : List Image) : List Image := images.map (mark o)

/-- What a program leaves of a photo: its title and its buffer. -/
def Image.result (p : Image) : String × CImg := (p.title, p.P_pointer)

theorem results_eq (o : Overlay) (copies : List CImg) :
    (Images_Processed o (load copies)).map Image.result =
      (List.range copies.length).map fun k =>
        (photoTitle k, markingLoop o (loadHeap copies k)) := by
  apply List.ext_getElem
  · simp [Images_Processed, load]
  · intro k hk hk'
    have hlt : k < copies.length := by simpa using hk'
    simp [Images_Processed, load, mark, Image.result, loadHeap_eq hlt]

/-! ## The loop pixel by pixel -/

/-- The pointwise result: a pixel that the watermark marks has its grey value in the channels 0, 1
and 2, everything else is as in the photo. -/
def Pointwise (o : Overlay) (img result : CImg) : Prop :=
  (result.width = img.width ∧ result.height = img.height ∧ result.spectrum = img.spectrum) ∧
  ∀ x < img.width, ∀ y < img.height, ∀ c, result.get x y c =
    if o.watermark.get x y 0 ≠ 255 ∧ c < 3 then
      o.grey (img.get x y 0) (img.get x y 1) (img.get x y 2)
    else img.get x y c

/-- The watermark byte at the 32-bit index decides each pixel as the watermark's own pixel does, or
the photo's pixel is its own grey value, so that marking it changes nothing. -/
def TestsOwnPixels (o : Overlay) (img : CImg) : Prop :=
  ∀ x < img.width, ∀ y < img.height,
    (o.watermark.plane x y = 255 ↔ o.watermark.get x y 0 = 255) ∨
    ∀ c < 3, img.get x y c = o.grey (img.get x y 0) (img.get x y 1) (img.get x y 2)

theorem pointwise_iff (o : Overlay) {img : CImg} (h3 : 3 ≤ img.spectrum) :
    Pointwise o img (markingLoop o img) ↔ TestsOwnPixels o img := by
  constructor
  · rintro ⟨_, hres⟩ x hx y hy
    by_cases htest : o.watermark.plane x y = 255 ↔ o.watermark.get x y 0 = 255
    · exact Or.inl htest
    · refine Or.inr fun c hc => ?_
      have hpix := hres x hx y hy c
      rw [get_markingLoop o h3 hx hy c] at hpix
      by_cases hplane : o.watermark.plane x y = 255
      · have hown : o.watermark.get x y 0 ≠ 255 := fun h => htest (iff_of_true hplane h)
        rwa [if_neg (fun h => h.1 hplane), if_pos ⟨hown, hc⟩] at hpix
      · have hown : o.watermark.get x y 0 = 255 := by
          by_contra h
          exact htest (iff_of_false hplane h)
        rw [if_pos ⟨hplane, hc⟩, if_neg (fun h => h.1 hown)] at hpix
        exact hpix.symm
  · intro htests
    refine ⟨markingLoop_dims o img, fun x hx y hy c => ?_⟩
    rw [get_markingLoop o h3 hx hy c]
    rcases htests x hx y hy with htest | hgrey
    · simp only [ne_eq, htest]
    · by_cases hc : c < 3
      · rw [← hgrey c hc, ite_self, ite_self]
      · rw [if_neg (fun h => hc h.2), if_neg (fun h => hc h.2)]

theorem testsOwnPixels_of_index {o : Overlay} {img : CImg}
    (hlast : img.width = 0 ∨ img.height = 0 ∨
      img.width - 1 + (img.height - 1) * o.watermark.width < 2 ^ 32) : TestsOwnPixels o img := by
  intro x hx y hy
  have hindex : x + y * o.watermark.width < 2 ^ 32 := by
    rcases hlast with hw | hh | hlast
    · omega
    · omega
    · exact (CImg.index_lt_iff (by omega) (by omega)).mp hlast x hx y hy
  rw [CImg.plane_eq_get hindex]
  exact Or.inl Iff.rfl

/-- A white watermark with one black pixel. -/
def blackPixel (width height : ℕ) (width_lt : width < 2 ^ 31) (height_lt : height < 2 ^ 31)
    (p : Pixel) : CImg :=
  (CImg.filled width height 1 255 width_lt height_lt).set p.1 p.2 0 0

-- A white pixel whose index wraps around to the black one is marked.
theorem not_testsOwnPixels_blackPixel {W H w h : ℕ} {hW : W < 2 ^ 31} {hH : H < 2 ^ 31}
    {hw : w < 2 ^ 31} {hh : h < 2 ^ 31} {grey : UInt8 → UInt8 → UInt8 → UInt8} {value : UInt8}
    (x y : ℕ) (hx : x < w) (hy : y < h) (hxW : x < W) (hyH : y < H) {p : Pixel}
    (hpx : p.1 < W) (hpy : p.2 < H) (hindex : (x + y * W) % 2 ^ 32 = p.1 + p.2 * W)
    (hwrap : 2 ^ 32 ≤ x + y * W) (hgrey : value ≠ grey value value value) :
    ¬TestsOwnPixels ⟨blackPixel W H hW hH p, grey⟩ (CImg.filled w h 3 value hw hh) := by
  have hplane : (blackPixel W H hW hH p).plane x y = 0 := by
    have hoff : (blackPixel W H hW hH p).planeOffset x y =
        (blackPixel W H hW hH p).offset p.1 p.2 0 := by
      unfold CImg.planeOffset CImg.offset
      rw [Nat.zero_mul, Nat.add_zero]
      exact hindex
    rw [CImg.plane_eq_of_offset hoff]
    unfold blackPixel
    rw [CImg.get_set hpx hpy hpx hpy, if_pos ⟨rfl, rfl, rfl, Nat.one_pos⟩]
  have hown : (blackPixel W H hW hH p).get x y 0 = 255 := by
    have hne : ¬(x = p.1 ∧ y = p.2 ∧ 0 = 0 ∧ 0 < 1) := by
      rintro ⟨rfl, rfl, _⟩
      have := Nat.mod_lt (p.1 + p.2 * W) (show 0 < 2 ^ 32 by decide)
      omega
    unfold blackPixel
    rw [CImg.get_set hpx hpy hxW hyH]
    exact (if_neg hne).trans (CImg.get_filled hW hH hxW hyH Nat.one_pos)
  intro htests
  rcases htests x hx y hy with htest | hsame
  · have hplane' := htest.mpr hown
    rw [hplane] at hplane'
    exact absurd hplane' (by decide)
  · have hred := hsame 0 (by decide)
    rw [CImg.get_filled hw hh hx hy (by decide), CImg.get_filled hw hh hx hy (by decide),
      CImg.get_filled hw hh hx hy (by decide)] at hred
    exact hgrey hred

/-- The loop, in whatever order it visits the pixels, and whether it takes each body in one step or
access by access, has one result.  It is the pointwise one exactly when the loop tests the
watermark's own pixels, which the dimensions promise exactly when no index wraps around. -/
theorem loop_pointwise_iff (o : Overlay) (img : CImg) (h3 : 3 ≤ img.spectrum)
    (hw : img.width ≤ o.watermark.width) (hh : img.height ≤ o.watermark.height) :
    (∀ l : List Pixel, l.Perm (forXY img) →
      l.foldl (markPixel o) img = markingLoop o img ∧
      ∀ (m : Memory) (k n : ℕ), m.heap k = img → 9 * l.length ≤ n →
        ((Marking.start k l).runAlone o n ⟨m.heap, []⟩).1.heap =
          Function.update m.heap k (markingLoop o img)) ∧
    (Pointwise o img (markingLoop o img) ↔ TestsOwnPixels o img) ∧
    ((∀ (o' : Overlay) (img' : CImg),
        o'.watermark.width = o.watermark.width → o'.watermark.height = o.watermark.height →
        img'.width = img.width → img'.height = img.height → 3 ≤ img'.spectrum →
        Pointwise o' img' (markingLoop o' img')) ↔
      img.width = 0 ∨ img.height = 0 ∨
        img.width - 1 + (img.height - 1) * o.watermark.width < 2 ^ 32) := by
  refine ⟨fun l hl => ⟨?_, fun m k n hk hn => ?_⟩, pointwise_iff o h3, fun hall => ?_, ?_⟩
  · refine foldl_markPixel_perm o hl img (hl.nodup_iff.mpr (nodup_forXY img)) fun p hp => ?_
    exact mem_forXY.mp (hl.mem_iff.mp hp)
  · subst hk
    exact Marking.runAlone_heap o m k hl hn
  · by_cases hw0 : img.width = 0
    · exact Or.inl hw0
    by_cases hh0 : img.height = 0
    · exact Or.inr (Or.inl hh0)
    refine Or.inr (Or.inr ?_)
    by_contra hwrap
    -- a black pixel where the last index lands, and a grey formula that changes black
    obtain ⟨x', y', hx', hy', hindex⟩ := CImg.exists_wrapped
      (show img.width - 1 < o.watermark.width by omega)
      (show img.height - 1 < o.watermark.height by omega)
    have hnot : ¬TestsOwnPixels
        ⟨blackPixel _ _ o.watermark.width_lt o.watermark.height_lt (x', y'), fun _ _ _ => 1⟩
        (CImg.filled _ _ 3 0 img.width_lt img.height_lt) :=
      not_testsOwnPixels_blackPixel (img.width - 1) (img.height - 1) (by omega) (by omega)
        (by omega) (by omega) hx' hy' hindex (by omega) (by decide)
    exact hnot ((pointwise_iff _ (le_refl 3)).mp (hall _ _ rfl rfl rfl rfl (le_refl 3)))
  · intro hlast o' img' hW _ hw' hh' h3'
    rw [← hW, ← hw', ← hh'] at hlast
    exact (pointwise_iff o' h3').mpr (testsOwnPixels_of_index hlast)

/-- A marked pixel next to one the watermark leaves alone. -/
theorem loop_pointwise_iff_two_pixels :
    (markingLoop ⟨⟨2, 1, 1, #[0, 255], rfl, by decide, by decide⟩, averageColor⟩
      ⟨2, 1, 3, #[100, 1, 150, 2, 200, 3], rfl, by decide, by decide⟩).get 0 0 1 = 47 := by
  obtain ⟨_, _, hdims⟩ := loop_pointwise_iff
    ⟨⟨2, 1, 1, #[0, 255], rfl, by decide, by decide⟩, averageColor⟩
    ⟨2, 1, 3, #[100, 1, 150, 2, 200, 3], rfl, by decide, by decide⟩ (by decide) (by decide)
    (by decide)
  obtain ⟨_, hget⟩ := hdims.mpr (by decide) ⟨⟨2, 1, 1, #[0, 255], rfl, by decide, by decide⟩,
    averageColor⟩ ⟨2, 1, 3, #[100, 1, 150, 2, 200, 3], rfl, by decide, by decide⟩ rfl rfl rfl rfl
    (by decide)
  exact (hget 0 (by decide) 0 (by decide) 1).trans (by decide)

/-- A photo of one column under a watermark of 70000 columns, both of 65500 rows.  The index of the
last watermark pixel tested is 4584930000, which wraps around to the black one. -/
theorem not_pointwise_tall_photo :
    ¬Pointwise ⟨blackPixel 70000 65500 (by decide) (by decide) (22704, 4142), averageColor⟩
      (CImg.filled 1 65500 3 100 (by decide) (by decide))
      (markingLoop ⟨blackPixel 70000 65500 (by decide) (by decide) (22704, 4142), averageColor⟩
        (CImg.filled 1 65500 3 100 (by decide) (by decide))) := by
  rw [pointwise_iff _ (le_refl 3)]
  exact not_testsOwnPixels_blackPixel 0 65499 (by decide) (by decide) (by decide) (by decide)
    (by decide) (by decide) (by decide) (by decide) (by decide)

end Watermark.Sequential
