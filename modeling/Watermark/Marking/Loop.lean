import Watermark.Marking.Visit
import Mathlib.Data.List.Nodup
import Mathlib.Data.List.Range

/-!
# Loop — the marking loops and what they compute

`cimg_forXY` visits the rows from top to bottom and each row from left to right; the part workers
of the map programs visit the rows of one part the same way.  The loops update one flat array in
place while reading from it.  Since each body stays inside its own pixel, the result is known
pixel by pixel and does not depend on the order.
-/

namespace Watermark

/-- `cimg_forX(img, x)` in row `y`. -/
def forX (width y : ℕ) : List Pixel := (List.range width).map fun x => (x, y)

/-- `cimg_forXY(img, x, y)` -/
def forXY (img : CImg) : List Pixel := (List.range img.height).flatMap fun y => forX img.width y

/-- `for(int y = 0; y<ii->total_parts; y++) cimg_forX(*(ii->P_Pointer), i)` at row
`j = y + ii->starting`. -/
def forPart (img : CImg) (starting total_parts : ℤ) : List Pixel :=
  (List.range total_parts.toNat).flatMap fun y : ℕ => forX img.width (y + starting).toNat

/-- The marking loop over a whole photo. -/
def markingLoop (o : Overlay) (img : CImg) : CImg := (forXY img).foldl (markPixel o) img

theorem mem_forX {width y : ℕ} {p : Pixel} : p ∈ forX width y ↔ p.1 < width ∧ p.2 = y := by
  unfold forX
  rw [List.mem_map]
  constructor
  · rintro ⟨x, hx, rfl⟩
    exact ⟨List.mem_range.mp hx, rfl⟩
  · rintro ⟨hx, rfl⟩
    exact ⟨p.1, List.mem_range.mpr hx, rfl⟩

theorem mem_forXY {img : CImg} {p : Pixel} : p ∈ forXY img ↔ img.Inside p := by
  unfold forXY
  rw [List.mem_flatMap]
  constructor
  · rintro ⟨y, hy, hp⟩
    obtain ⟨hx, rfl⟩ := mem_forX.mp hp
    exact ⟨hx, List.mem_range.mp hy⟩
  · rintro ⟨hx, hy⟩
    exact ⟨p.2, List.mem_range.mpr hy, mem_forX.mpr ⟨hx, rfl⟩⟩

theorem nodup_forX (width y : ℕ) : (forX width y).Nodup := by
  refine List.Nodup.map (fun a b h => ?_) List.nodup_range
  exact (Prod.mk.injEq _ _ _ _ ▸ h).1

theorem nodup_forXY (img : CImg) : (forXY img).Nodup := by
  refine List.nodup_flatMap.mpr ⟨fun y _ => nodup_forX _ y, ?_⟩
  refine List.Pairwise.imp (fun hne => ?_) (List.nodup_range (n := img.height))
  intro p hp hq
  exact hne ((mem_forX.mp hp).2.symm.trans (mem_forX.mp hq).2)

-- Which pixels the loop visits depends on the dimensions only.
theorem forXY_congr {a b : CImg} (hw : a.width = b.width) (hh : a.height = b.height) :
    forXY a = forXY b := by
  unfold forXY
  rw [hw, hh]

theorem forPart_congr {a b : CImg} (hw : a.width = b.width) (starting total_parts : ℤ) :
    forPart a starting total_parts = forPart b starting total_parts := by
  unfold forPart
  rw [hw]

/-! ## Folding the body over a list of pixels -/

theorem foldl_markPixel_dims (o : Overlay) (l : List Pixel) (img : CImg) :
    (l.foldl (markPixel o) img).width = img.width ∧
      (l.foldl (markPixel o) img).height = img.height ∧
      (l.foldl (markPixel o) img).spectrum = img.spectrum := by
  induction l generalizing img with
  | nil => exact ⟨rfl, rfl, rfl⟩
  | cons p l ih =>
      obtain ⟨hw, hh, hs⟩ := ih (markPixel o img p)
      obtain ⟨hw', hh', hs'⟩ := markPixel_dims o img p
      exact ⟨hw.trans hw', hh.trans hh', hs.trans hs'⟩

theorem CImg.Inside.markPixel {img : CImg} {q : Pixel} (hq : img.Inside q) (o : Overlay)
    (p : Pixel) : (markPixel o img p).Inside q := by
  obtain ⟨hw, hh, _⟩ := markPixel_dims o img p
  exact ⟨hw ▸ hq.1, hh ▸ hq.2⟩

-- The loop invariant: the pixels visited are finished, the others as they were.
theorem column_foldl_markPixel (o : Overlay) (l : List Pixel) (img : CImg) (hn : l.Nodup)
    (hin : ∀ p ∈ l, img.Inside p) (q : Pixel) :
    column (l.foldl (markPixel o) img) q =
      if q ∈ l then Visit.finishCol o q img.spectrum .test (column img q) else column img q := by
  induction l generalizing img with
  | nil => rfl
  | cons p l ih =>
      have hp : img.Inside p := hin p List.mem_cons_self
      obtain ⟨hpl, hnl⟩ := List.nodup_cons.mp hn
      rw [List.foldl_cons, ih (markPixel o img p) hnl
        (fun q hq => (hin q (List.mem_cons_of_mem p hq)).markPixel o p),
        (markPixel_dims o img p).2.2]
      by_cases hqp : q = p
      · subst hqp
        rw [if_neg hpl, if_pos List.mem_cons_self, column_markPixel_self hp]
      · rw [column_markPixel_ne hp hqp]
        simp only [List.mem_cons, hqp, false_or]

-- The order in which the pixels are visited does not matter.
theorem foldl_markPixel_perm (o : Overlay) {l l' : List Pixel} (hp : l.Perm l') (img : CImg)
    (hn : l.Nodup) (hin : ∀ p ∈ l, img.Inside p) :
    l.foldl (markPixel o) img = l'.foldl (markPixel o) img := by
  obtain ⟨hw, hh, hs⟩ := foldl_markPixel_dims o l img
  obtain ⟨hw', hh', hs'⟩ := foldl_markPixel_dims o l' img
  refine eq_of_column (hw.trans hw'.symm) (hh.trans hh'.symm) (hs.trans hs'.symm) fun q => ?_
  rw [column_foldl_markPixel o l img hn hin, column_foldl_markPixel o l' img (hp.nodup_iff.mp hn)
    (fun p hpl => hin p (hp.mem_iff.mpr hpl))]
  simp only [hp.mem_iff]

/-! ## The whole photo -/

theorem markingLoop_dims (o : Overlay) (img : CImg) :
    (markingLoop o img).width = img.width ∧ (markingLoop o img).height = img.height ∧
      (markingLoop o img).spectrum = img.spectrum :=
  foldl_markPixel_dims o _ img

theorem column_markingLoop_inside (o : Overlay) {img : CImg} {p : Pixel} (hp : img.Inside p) :
    column (markingLoop o img) p = Visit.finishCol o p img.spectrum .test (column img p) := by
  unfold markingLoop
  rw [column_foldl_markPixel o _ img (nodup_forXY img) (fun q hq => mem_forXY.mp hq),
    if_pos (mem_forXY.mpr hp)]

theorem column_markingLoop_outside (o : Overlay) {img : CImg} {p : Pixel} (hp : ¬img.Inside p) :
    column (markingLoop o img) p = column img p := by
  unfold markingLoop
  rw [column_foldl_markPixel o _ img (nodup_forXY img) (fun q hq => mem_forXY.mp hq),
    if_neg (fun h => hp (mem_forXY.mp h))]

-- What the loop makes of a photo with three channels: a pixel whose test succeeds gets the grey
-- value of the photo before the loop in the channels 0, 1 and 2, everything else is kept.
theorem get_markingLoop (o : Overlay) {img : CImg} (hs : 3 ≤ img.spectrum) {x y : ℕ}
    (hx : x < img.width) (hy : y < img.height) (c : ℕ) :
    (markingLoop o img).get x y c =
      if o.watermark.plane x y ≠ 255 ∧ c < 3 then
        o.grey (img.get x y 0) (img.get x y 1) (img.get x y 2)
      else img.get x y c := by
  have hin : img.Inside (x, y) := ⟨hx, hy⟩
  have hin' : (markingLoop o img).Inside (x, y) := by
    obtain ⟨hw, hh, _⟩ := markingLoop_dims o img
    exact ⟨hw ▸ hx, hh ▸ hy⟩
  have hcol := congrFun (column_markingLoop_inside o hin) c
  rw [Visit.finishCol_test hs, column_of_inside hin', column_of_inside hin, column_of_inside hin,
    column_of_inside hin, column_of_inside hin] at hcol
  simpa only [Overlay.marks_iff] using hcol

/-- A photo of one pixel, -/
def onePixelPhoto : CImg := ⟨1, 1, 3, #[100, 150, 200], rfl, by decide, by decide⟩

/-- and a watermark that marks it. -/
def onePixelOverlay : Overlay := ⟨⟨1, 1, 1, #[0], rfl, by decide, by decide⟩, averageColor⟩

end Watermark
