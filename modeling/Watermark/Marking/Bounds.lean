import Watermark.Marking.Parts
import Watermark.Marking.Thread

/-!
# Bounds — where the accesses of the marking loops go

`operator()` leaves bounds to its caller, and no caller looks at the dimensions of the watermark
or at the number of channels; the index of a large watermark also wraps around.  `Touch` lists the
accesses of a loop; which ones are made depends on the watermark only, so other threads cannot
change them (`Marking.step_touches`).
-/

namespace Watermark

/-- One access: a watermark read `(*watermark)(x,y)`, or a read or write of a photo channel. -/
inductive Touch where
  | watermark (p : Pixel)
  | photo (p : Pixel) (c : ℕ)
deriving DecidableEq

/-- A watermark read is to get the pixel in column `x` and row `y`, a photo access is to fall
inside the buffer. -/
def Touch.InBounds (o : Overlay) (img : CImg) : Touch → Prop
  | watermark p => o.watermark.Inside p ∧
      o.watermark.planeOffset p.1 p.2 = o.watermark.offset p.1 p.2 0 ∧
      o.watermark.planeOffset p.1 p.2 < o.watermark.data.size
  | photo p c => img.offset p.1 p.2 c < img.data.size

/-- The access a visit makes next. -/
def Visit.touch (p : Pixel) : Visit → Touch
  | test => .watermark p
  | loadR => .photo p 0
  | loadG _ => .photo p 1
  | loadB _ _ => .photo p 2
  | storeB _ => .photo p 2
  | reloadB => .photo p 2
  | storeG _ => .photo p 1
  | reloadG => .photo p 1
  | storeR _ => .photo p 0

/-- The channels a visit still accesses in the marking branch. -/
def Visit.channels (v : Visit) : List ℕ := [0, 1, 2, 2, 2, 1, 1, 0].drop (7 - v.rank)

/-- All accesses a visit still makes. -/
def Visit.touches (o : Overlay) (p : Pixel) (v : Visit) : List Touch :=
  if v = .test then
    .watermark p :: if o.marks p then v.channels.map (.photo p) else []
  else v.channels.map (.photo p)

/-- All accesses a thread still makes in its loop. -/
def Marking.touches (o : Overlay) (t : Marking) : List Touch :=
  match t.todo with
  | [] => []
  | p :: rest => t.visit.touches o p ++ rest.flatMap fun q => Visit.test.touches o q

theorem Marking.touches_start (o : Overlay) (k : ℕ) (l : List Pixel) :
    (start k l).touches o = l.flatMap fun q => Visit.test.touches o q := by
  cases l <;> rfl

theorem Visit.touches_some {o : Overlay} {p : Pixel} {img : CImg} {v v' : Visit}
    (h : (v.step o p img).1 = some v') : v.touches o p = v.touch p :: v'.touches o p := by
  cases v with
  | test =>
      simp only [step, access, Option.ite_none_right_eq_some, Option.some.injEq] at h
      obtain ⟨hm, rfl⟩ := h
      simp [touches, hm, touch, channels, rank]
  | storeR => simp [step, access] at h
  | _ =>
      simp only [step, access, Option.some.injEq] at h
      subst h
      simp [touches, touch, channels, rank]

theorem Visit.touches_none {o : Overlay} {p : Pixel} {img : CImg} {v : Visit}
    (h : (v.step o p img).1 = none) : v.touches o p = [v.touch p] := by
  cases v with
  | test =>
      simp only [step, access, ite_eq_right_iff, reduceCtorEq, imp_false, Bool.not_eq_true] at h
      simp [touches, h, touch]
  | storeR => simp [touches, touch, channels, rank]
  | _ => simp [step, access] at h

-- Whatever the photo holds, a step makes the next access of the list.
theorem Marking.step_touches {o : Overlay} {m m' : Memory} {t t' : Marking}
    (h : t.step o m = some (m', t')) :
    ∃ p rest, t.todo = p :: rest ∧ t.touches o = t.visit.touch p :: t'.touches o := by
  obtain ⟨p, rest, htodo, _, ⟨v, hv, _, rfl⟩ | ⟨hv, _, rfl⟩⟩ := step_cases h
  · refine ⟨p, rest, htodo, ?_⟩
    simp only [touches, htodo, Visit.touches_some hv, List.cons_append]
  · refine ⟨p, rest, htodo, ?_⟩
    rw [touches_start]
    simp only [touches, htodo, Visit.touches_none hv, List.cons_append, List.nil_append]

/-! ## When all of them are in bounds -/

/-- The watermark has a pixel for every pixel of the photo, its index over the photo's area is
one of 32 bits, and pixels that get marked have the three channels. -/
def Fits (o : Overlay) (img : CImg) : Prop :=
  img.width = 0 ∨ img.height = 0 ∨
    (img.width ≤ o.watermark.width ∧ img.height ≤ o.watermark.height ∧
      img.width - 1 + (img.height - 1) * o.watermark.width < 2 ^ 32 ∧ 0 < o.watermark.spectrum ∧
      (3 ≤ img.spectrum ∨ ∀ x < img.width, ∀ y < img.height, o.watermark.get x y 0 = 255))

theorem photo_inBounds_iff {o : Overlay} {img : CImg} {p : Pixel} (hp : img.Inside p) (c : ℕ) :
    (Touch.photo p c).InBounds o img ↔ c < img.spectrum := by
  constructor
  · intro h
    by_contra hc
    exact absurd h (Nat.not_lt.mpr (CImg.size_le_offset p.1 p.2 (Nat.le_of_not_lt hc)))
  · exact CImg.offset_lt hp.1 hp.2

theorem watermark_inBounds_iff {o : Overlay} {img : CImg} {p : Pixel} :
    (Touch.watermark p).InBounds o img ↔
      o.watermark.Inside p ∧ p.1 + p.2 * o.watermark.width < 2 ^ 32 ∧ 0 < o.watermark.spectrum := by
  constructor
  · rintro ⟨hin, hown, hlt⟩
    refine ⟨hin, CImg.planeOffset_eq_iff.mp hown, Nat.pos_of_ne_zero fun h0 => ?_⟩
    rw [hown] at hlt
    exact absurd hlt (Nat.not_lt.mpr (CImg.size_le_offset p.1 p.2 h0.le))
  · rintro ⟨hin, hindex, hs⟩
    have hown := CImg.planeOffset_eq_iff.mpr hindex
    exact ⟨hin, hown, hown ▸ CImg.offset_lt hin.1 hin.2 hs⟩

theorem visit_inBounds_iff {o : Overlay} {img : CImg} {p : Pixel} (hp : img.Inside p) :
    (∀ a ∈ Visit.test.touches o p, a.InBounds o img) ↔
      (o.watermark.Inside p ∧ p.1 + p.2 * o.watermark.width < 2 ^ 32 ∧
        0 < o.watermark.spectrum) ∧ (o.marks p = true → 3 ≤ img.spectrum) := by
  simp only [Visit.touches, if_true, List.forall_mem_cons, watermark_inBounds_iff]
  refine and_congr_right fun _ => ?_
  by_cases hm : o.marks p = true
  · simp only [hm, if_true, Visit.channels, Visit.rank, forall_true_left]
    simp only [List.drop_zero, List.map_cons, List.map_nil, List.forall_mem_cons,
      photo_inBounds_iff hp, List.not_mem_nil, false_imp_iff, implies_true, and_true,
      show 7 - 8 = 0 from rfl]
    omega
  · simp [hm]

-- A loop over the pixels of a photo, in any order, stays in bounds exactly when the watermark fits
-- the photo.
theorem loop_inBounds_iff {o : Overlay} {img : CImg} {l : List Pixel}
    (hl : ∀ p, p ∈ l ↔ img.Inside p) :
    (∀ a ∈ l.flatMap fun q => Visit.test.touches o q, a.InBounds o img) ↔ Fits o img := by
  have hpix : (∀ a ∈ l.flatMap fun q => Visit.test.touches o q, a.InBounds o img) ↔
      ∀ p, img.Inside p → (o.watermark.Inside p ∧ p.1 + p.2 * o.watermark.width < 2 ^ 32 ∧
        0 < o.watermark.spectrum) ∧ (o.marks p = true → 3 ≤ img.spectrum) := by
    simp only [List.forall_mem_flatMap, hl]
    exact forall₂_congr fun p hp => visit_inBounds_iff hp
  rw [hpix]
  unfold Fits
  constructor
  · intro h
    by_cases hw : img.width = 0
    · exact Or.inl hw
    by_cases hh : img.height = 0
    · exact Or.inr (Or.inl hh)
    have hlast := (h (img.width - 1, img.height - 1) ⟨by simp only; omega, by simp only; omega⟩).1
    obtain ⟨⟨hx, hy⟩, hindex, hs⟩ := hlast
    simp only at hx hy hindex
    refine Or.inr (Or.inr ⟨by omega, by omega, hindex, hs, ?_⟩)
    by_cases h3 : 3 ≤ img.spectrum
    · exact Or.inl h3
    · refine Or.inr fun x hx y hy => ?_
      obtain ⟨⟨_, hxy, _⟩, hmark⟩ := h (x, y) ⟨hx, hy⟩
      by_contra hne
      rw [← CImg.plane_eq_get hxy] at hne
      exact h3 (hmark (Overlay.marks_iff.mpr hne))
  · rintro (hw | hh | ⟨hw, hh, hlast, hs, hmarks⟩) p ⟨hx, hy⟩
    · omega
    · omega
    · have hindex := (CImg.index_lt_iff (by omega) (by omega)).mp hlast p.1 hx p.2 hy
      refine ⟨⟨⟨by omega, by omega⟩, hindex, hs⟩, fun hm => ?_⟩
      rcases hmarks with h3 | hwhite
      · exact h3
      · rw [Overlay.marks_iff, CImg.plane_eq_get hindex] at hm
        exact absurd (hwhite p.1 hx p.2 hy) hm

/-! ## The loops as they run -/

namespace Marking

/-- The accesses `l` of a complete run of the loop `t`; between two of its steps other threads
may have changed the memory. -/
inductive Accesses (o : Overlay) : Marking → List Touch → Prop where
  | done {t : Marking} (h : t.todo = []) : Accesses o t []
  | step {t t' : Marking} {m m' : Memory} {p : Pixel} {rest : List Pixel} {l : List Touch}
      (htodo : t.todo = p :: rest) (h : t.step o m = some (m', t')) (hl : Accesses o t' l) :
      Accesses o t (t.visit.touch p :: l)

-- Whatever the other threads do, the accesses are those of `touches`.
theorem Accesses.eq_touches {o : Overlay} {t : Marking} {l : List Touch} (h : t.Accesses o l) :
    l = t.touches o := by
  induction h with
  | done h => simp only [touches, h]
  | @step t t' m m' p rest l htodo hs hl ih =>
      obtain ⟨p', rest', htodo', htouch⟩ := step_touches hs
      rw [htodo] at htodo'
      cases htodo'
      rw [htouch, ih]

-- The loop ends, in any memory.
theorem exists_accesses (o : Overlay) (m : Memory) (t : Marking) : ∃ l, t.Accesses o l := by
  induction hf : t.fuel using Nat.strong_induction_on generalizing m t with
  | h f ih =>
      cases hs : t.step o m with
      | none => exact ⟨[], .done (step_eq_none_iff.mp hs)⟩
      | some r =>
          obtain ⟨p, rest, htodo, _⟩ := step_cases hs
          obtain ⟨l, hl⟩ := ih _ (hf ▸ fuel_step hs) r.1 r.2 rfl
          exact ⟨_, .step htodo hs hl⟩

/-- No run of the loop makes an access out of bounds. -/
def Safe (o : Overlay) (img : CImg) (t : Marking) : Prop :=
  ∀ l, t.Accesses o l → ∀ a ∈ l, a.InBounds o img

theorem safe_iff {o : Overlay} {img : CImg} {t : Marking} :
    t.Safe o img ↔ ∀ a ∈ t.touches o, a.InBounds o img := by
  constructor
  · intro h
    obtain ⟨l, hl⟩ := exists_accesses o ⟨fun _ => img, []⟩ t
    rw [← hl.eq_touches]
    exact h l hl
  · intro h l hl
    rwa [hl.eq_touches]

end Marking

theorem mem_forPart_iff {img : CImg} {n : ℕ} (hn : 0 < n) {p : Pixel} :
    (∃ part ∈ partsOf img.height n, p ∈ forPart img part.starting part.total_parts) ↔
      img.Inside p := by
  rw [← mem_forXY, ← flatMap_forPart img hn, partsOf_eq]
  simp only [List.mem_map, List.mem_flatMap, exists_exists_and_eq_and]

/-- The loop of sequential.cpp and of `Worker_Farm` over a photo, and the loops of map.cpp's
workers over its parts, are safe exactly for watermarks that fit. -/
theorem loops_safe_iff (o : Overlay) (img : CImg) (photo : ℕ) :
    ((Marking.start photo (forXY img)).Safe o img ↔ Fits o img) ∧
    ∀ number_workers : ℕ, 1 ≤ number_workers →
      ((∀ part ∈ partsOf img.height number_workers,
        (Marking.start photo (forPart img part.starting part.total_parts)).Safe o img) ↔
      Fits o img) := by
  constructor
  · rw [Marking.safe_iff, Marking.touches_start]
    exact loop_inBounds_iff fun p => mem_forXY
  · intro n hn
    have hparts : (∀ part ∈ partsOf img.height n,
        (Marking.start photo (forPart img part.starting part.total_parts)).Safe o img) ↔
        ∀ a ∈ ((partsOf img.height n).flatMap fun part =>
          forPart img part.starting part.total_parts).flatMap fun q => Visit.test.touches o q,
          a.InBounds o img := by
      simp only [Marking.safe_iff, Marking.touches_start, List.forall_mem_flatMap]
    rw [hparts]
    refine loop_inBounds_iff fun p => ?_
    rw [← mem_forPart_iff hn, List.mem_flatMap]

/-- A colour photo under a watermark of its size, cut into two parts of which one is empty. -/
theorem loops_safe_colour_photo :
    ∀ part ∈ partsOf (1 : ℕ) (2 : ℕ), (Marking.start 0
      (forPart onePixelPhoto part.starting part.total_parts)).Safe
        onePixelOverlay onePixelPhoto := by
  refine ((loops_safe_iff onePixelOverlay onePixelPhoto 0).2 2 (by decide)).mpr ?_
  exact Or.inr (Or.inr (by decide))

/-- A grey photo under a black watermark: the loop reads green where there is no such channel. -/
theorem not_safe_grey_photo :
    ¬(Marking.start 0 (forXY ⟨1, 1, 1, #[100], rfl, by decide, by decide⟩)).Safe
      onePixelOverlay ⟨1, 1, 1, #[100], rfl, by decide, by decide⟩ := by
  rw [Marking.safe_iff]
  intro h
  have hgreen := h (.photo (0, 0) 1) (by decide)
  exact absurd hgreen (by unfold Touch.InBounds; decide)

end Watermark
