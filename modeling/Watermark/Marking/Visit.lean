import Watermark.CImg.Buffer
import Mathlib.Logic.Function.Basic
import Mathlib.Data.Prod.Basic

/-!
# Visit — the body of the marking loop at one pixel

All five programs mark a pixel with the same statements.  `markPixel` is the body as one step,
the way the sequential program runs it.  `Visit` is the same body cut at every access to the
photo, the way threads that share a photo run it.  The two agree on the pixel they are at
(`column_markPixel`, `finishCol`), and neither touches another pixel.
-/

namespace Watermark

open Function

/-- A pixel `(x, y)`. -/
abbrev Pixel := ℕ × ℕ

/-- The pixel lies in the picture. -/
def CImg.Inside (img : CImg) (p : Pixel) : Prop := p.1 < img.width ∧ p.2 < img.height

instance (img : CImg) (p : Pixel) : Decidable (img.Inside p) :=
  inferInstanceAs (Decidable (_ ∧ _))

theorem CImg.Inside.set {img : CImg} {p : Pixel} (hp : img.Inside p) {x y c : ℕ} {v : UInt8} :
    (img.set x y c v).Inside p := hp

/-- What the marking loops read besides the photo: the global `watermark`, and the grey formula
`((0.21*R) + (0.72*G) + (0.07*B))/3` as some function of three bytes to a byte. -/
structure Overlay where
  watermark : CImg
  grey : UInt8 → UInt8 → UInt8 → UInt8

/-- The formula in exact arithmetic; the rounding of the source is left open by `Overlay.grey`. -/
def averageColor (valR valG valB : UInt8) : UInt8 :=
  ((21 * valR.toNat + 72 * valG.toNat + 7 * valB.toNat) / 300).toUInt8

/-- `(*watermark)(x,y) != 255` -/
def Overlay.marks (o : Overlay) (p : Pixel) : Bool :=
  o.watermark.plane p.1 p.2 != 255

theorem Overlay.marks_iff {o : Overlay} {p : Pixel} :
    o.marks p = true ↔ o.watermark.plane p.1 p.2 ≠ 255 := bne_iff_ne

/-- The body of `cimg_forXY(*(p->P_pointer), x, y)`. -/
def markPixel (o : Overlay) (img : CImg) (p : Pixel) : CImg :=
  if o.marks p then
    let valR := img.get p.1 p.2 0
    let valG := img.get p.1 p.2 1
    let valB := img.get p.1 p.2 2
    let average := o.grey valR valG valB
    -- `a = b = c = v` assigns from the right and reads each assigned channel back
    let img := img.set p.1 p.2 2 average
    let img := img.set p.1 p.2 1 (img.get p.1 p.2 2)
    img.set p.1 p.2 0 (img.get p.1 p.2 1)
  else img

/-- Where the body stands; the arguments are its local variables. -/
inductive Visit where
  | test
  | loadR
  | loadG (valR : UInt8)
  | loadB (valR valG : UInt8)
  | storeB (average : UInt8)
  | reloadB
  | storeG (value : UInt8)
  | reloadG
  | storeR (value : UInt8)
deriving DecidableEq

/-- The access a visit makes next, and where it goes on with the value read. -/
inductive Access where
  | watermark
  | load (c : ℕ) (next : UInt8 → Visit)
  | store (c : ℕ) (value : UInt8) (next : Option Visit)

namespace Visit

def access (grey : UInt8 → UInt8 → UInt8 → UInt8) : Visit → Access
  | test => .watermark
  | loadR => .load 0 fun valR => loadG valR
  | loadG valR => .load 1 fun valG => loadB valR valG
  | loadB valR valG => .load 2 fun valB => storeB (grey valR valG valB)
  | storeB average => .store 2 average (some reloadB)
  | reloadB => .load 2 fun value => storeG value
  | storeG value => .store 1 value (some reloadG)
  | reloadG => .load 1 fun value => storeR value
  | storeR value => .store 0 value none

/-- One access to the photo; `none` when the body has ended. -/
def step (o : Overlay) (p : Pixel) (v : Visit) (img : CImg) : Option Visit × CImg :=
  match v.access o.grey with
  | .watermark => (if o.marks p then some loadR else none, img)
  | .load c next => (some (next (img.get p.1 p.2 c)), img)
  | .store c value next => (next, img.set p.1 p.2 c value)

/-- The number of accesses after this one on the way through the marking branch. -/
def rank : Visit → ℕ
  | test => 8
  | loadR => 7
  | loadG _ => 6
  | loadB _ _ => 5
  | storeB _ => 4
  | reloadB => 3
  | storeG _ => 2
  | reloadG => 1
  | storeR _ => 0

end Visit

/-! ## One pixel as a column of channels -/

/-- The channels of pixel `p`; constantly 0 outside the picture. -/
def column (img : CImg) (p : Pixel) : ℕ → UInt8 :=
  if img.Inside p then fun c => img.get p.1 p.2 c else fun _ => 0

/-- Storing into channel `c` of a pixel that has `spectrum` channels. -/
def storeCol (spectrum c : ℕ) (value : UInt8) (col : ℕ → UInt8) : ℕ → UInt8 :=
  if c < spectrum then update col c value else col

theorem column_of_inside {img : CImg} {p : Pixel} (hp : img.Inside p)
    (c : ℕ) : column img p c = img.get p.1 p.2 c := by
  unfold column
  rw [if_pos hp]

theorem column_of_outside {img : CImg} {p : Pixel} (hp : ¬img.Inside p) :
    column img p = fun _ => 0 := by
  unfold column
  rw [if_neg hp]

theorem column_set_self {img : CImg} {p : Pixel} (hp : img.Inside p)
    (c : ℕ) (value : UInt8) :
    column (img.set p.1 p.2 c value) p = storeCol img.spectrum c value (column img p) := by
  funext c'
  rw [column_of_inside hp.set, CImg.get_set hp.1 hp.2 hp.1 hp.2]
  unfold storeCol
  by_cases hc : c < img.spectrum
  · rw [if_pos hc]
    by_cases heq : c' = c
    · rw [heq, update_self, if_pos ⟨rfl, rfl, rfl, hc⟩]
    · rw [update_of_ne heq, if_neg (fun h => heq h.2.2.1), column_of_inside hp]
  · rw [if_neg hc, if_neg (fun h => hc h.2.2.2), column_of_inside hp]

theorem column_set_ne {img : CImg} {p q : Pixel} (hp : img.Inside p)
    (hq : q ≠ p) (c : ℕ) (value : UInt8) :
    column (img.set p.1 p.2 c value) q = column img q := by
  by_cases hin : img.Inside q
  · funext c'
    rw [column_of_inside hin.set, CImg.get_set hp.1 hp.2 hin.1 hin.2,
      if_neg (fun h => hq (Prod.ext h.1 h.2.1)), column_of_inside hin]
  · rw [column_of_outside hin]
    exact column_of_outside fun h => hin h

-- Pictures of the same dimensions with the same columns are equal.
theorem eq_of_column {a b : CImg} (hw : a.width = b.width) (hh : a.height = b.height)
    (hs : a.spectrum = b.spectrum) (h : ∀ p, column a p = column b p) : a = b := by
  refine CImg.ext_get hw hh hs fun x y c hx hy _ => ?_
  have hcol := congrFun (h (x, y)) c
  rwa [column_of_inside ⟨hx, hy⟩, column_of_inside ⟨hw ▸ hx, hh ▸ hy⟩] at hcol

/-! ## A visit on its column -/

namespace Visit

/-- `Visit.step` seen at the pixel alone. -/
def stepCol (o : Overlay) (p : Pixel) (spectrum : ℕ) (v : Visit) (col : ℕ → UInt8) :
    Option Visit × (ℕ → UInt8) :=
  match v.access o.grey with
  | .watermark => (if o.marks p then some loadR else none, col)
  | .load c next => (some (next (col c)), col)
  | .store c value next => (next, storeCol spectrum c value col)

/-- Take at most `n + 1` accesses. -/
def runCol (o : Overlay) (p : Pixel) (spectrum : ℕ) : ℕ → Visit → (ℕ → UInt8) → ℕ → UInt8
  | 0, v, col => (v.stepCol o p spectrum col).2
  | n + 1, v, col =>
    match v.stepCol o p spectrum col with
    | (none, col') => col'
    | (some v', col') => runCol o p spectrum n v' col'

/-- What the rest of the body makes of the column. -/
def finishCol (o : Overlay) (p : Pixel) (spectrum : ℕ) (v : Visit) (col : ℕ → UInt8) : ℕ → UInt8 :=
  runCol o p spectrum v.rank v col

theorem rank_of_stepCol {o : Overlay} {p : Pixel} {spectrum : ℕ} {v v' : Visit}
    {col col' : ℕ → UInt8} (h : v.stepCol o p spectrum col = (some v', col')) :
    v.rank = v'.rank + 1 := by
  cases v with
  | test =>
      simp only [stepCol, access, Prod.mk.injEq, Option.ite_none_right_eq_some] at h
      obtain ⟨⟨_, hv⟩, _⟩ := h
      cases hv
      rfl
  | storeR => simp [stepCol, access] at h
  | _ =>
      simp only [stepCol, access, Prod.mk.injEq, Option.some.injEq] at h
      obtain ⟨rfl, _⟩ := h
      rfl

theorem finishCol_some {o : Overlay} {p : Pixel} {spectrum : ℕ} {v v' : Visit}
    {col col' : ℕ → UInt8} (h : v.stepCol o p spectrum col = (some v', col')) :
    finishCol o p spectrum v' col' = finishCol o p spectrum v col := by
  unfold finishCol
  rw [rank_of_stepCol h]
  simp only [runCol, h]

theorem finishCol_none {o : Overlay} {p : Pixel} {spectrum : ℕ} {v : Visit}
    {col col' : ℕ → UInt8} (h : v.stepCol o p spectrum col = (none, col')) :
    col' = finishCol o p spectrum v col := by
  unfold finishCol
  cases v.rank with
  | zero => simp only [runCol, h]
  | succ n => simp only [runCol, h]

theorem step_dims (o : Overlay) (p : Pixel) (v : Visit) (img : CImg) :
    (v.step o p img).2.width = img.width ∧ (v.step o p img).2.height = img.height ∧
      (v.step o p img).2.spectrum = img.spectrum := by
  cases v <;> exact ⟨rfl, rfl, rfl⟩

-- At the pixel of the visit, a step does what the column says.
theorem column_step_self {img : CImg} {p : Pixel} (hp : img.Inside p)
    (o : Overlay) (v : Visit) :
    v.stepCol o p img.spectrum (column img p) =
      ((v.step o p img).1, column (v.step o p img).2 p) := by
  unfold stepCol step
  cases v.access o.grey with
  | watermark => rfl
  | load c next => simp only [column_of_inside hp]
  | store c value next => simp only [column_set_self hp]

-- At every other pixel it does nothing.
theorem column_step_ne {img : CImg} {p q : Pixel} (hp : img.Inside p)
    (hq : q ≠ p) (o : Overlay) (v : Visit) :
    column (v.step o p img).2 q = column img q := by
  unfold step
  cases v.access o.grey with
  | watermark => rfl
  | load c next => rfl
  | store c value next => exact column_set_ne hp hq c value

-- With three channels, a whole visit replaces them by the grey value of the pixel it found.
theorem finishCol_test {o : Overlay} {p : Pixel} {spectrum : ℕ} (hs : 3 ≤ spectrum)
    (col : ℕ → UInt8) (c : ℕ) :
    finishCol o p spectrum test col c =
      if o.marks p = true ∧ c < 3 then o.grey (col 0) (col 1) (col 2) else col c := by
  have h0 : 0 < spectrum := by omega
  have h1 : 1 < spectrum := by omega
  have h2 : 2 < spectrum := by omega
  by_cases hm : o.marks p = true
  · have hfin : finishCol o p spectrum test col =
        update (update (update col 2 (o.grey (col 0) (col 1) (col 2))) 1
          (o.grey (col 0) (col 1) (col 2))) 0 (o.grey (col 0) (col 1) (col 2)) := by
      simp [finishCol, rank, runCol, stepCol, access, hm, storeCol, h0, h1, h2]
    rw [hfin]
    rcases Nat.lt_or_ge c 3 with hc | hc
    · rw [if_pos ⟨hm, hc⟩]
      have hcases : c = 0 ∨ c = 1 ∨ c = 2 := by omega
      rcases hcases with rfl | rfl | rfl <;> rfl
    · rw [if_neg (fun h => absurd h.2 (by omega)), update_of_ne (by omega),
        update_of_ne (by omega), update_of_ne (by omega)]
  · rw [if_neg (fun h => hm h.1)]
    simp [finishCol, rank, runCol, stepCol, access, hm]

end Visit

/-! ## The body as one step -/

theorem markPixel_dims (o : Overlay) (img : CImg) (p : Pixel) :
    (markPixel o img p).width = img.width ∧ (markPixel o img p).height = img.height ∧
      (markPixel o img p).spectrum = img.spectrum := by
  unfold markPixel
  split <;> exact ⟨rfl, rfl, rfl⟩

theorem column_markPixel_self {img : CImg} {p : Pixel} (hp : img.Inside p) (o : Overlay) :
    column (markPixel o img p) p = Visit.finishCol o p img.spectrum .test (column img p) := by
  by_cases hm : o.marks p = true
  · simp only [markPixel, hm, if_true, Visit.finishCol, Visit.rank, Visit.runCol, Visit.stepCol,
      Visit.access]
    rw [column_set_self hp.set.set, column_set_self hp.set, column_set_self hp]
    simp only [← column_of_inside hp, ← column_of_inside hp.set, ← column_of_inside hp.set.set,
      column_set_self hp.set, column_set_self hp, CImg.set_spectrum]
  · simp [markPixel, hm, Visit.finishCol, Visit.rank, Visit.runCol, Visit.stepCol, Visit.access]

theorem column_markPixel_ne {img : CImg} {p q : Pixel} (hp : img.Inside p) (hq : q ≠ p)
    (o : Overlay) :
    column (markPixel o img p) q = column img q := by
  unfold markPixel
  split
  · simp only [column_set_ne hp.set.set hq, column_set_ne hp.set hq, column_set_ne hp hq]
  · rfl

end Watermark
