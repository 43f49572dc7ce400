import Watermark.Farm.Progress
import Watermark.Map.Progress

/-!
# Report — what the mains of farm.cpp and map.cpp print

Both mains take the number of workers and of photos from `atoi` without looking at them, and print
the second as the number of photos processed.  Negative numbers and zero get as far as the threads.
-/

namespace Watermark

open Reasoning

/-- `atoi(argv[3])` and `atoi(argv[5])` -/
structure Arguments where
  workers : ℤ
  photos : ℤ
deriving DecidableEq

/-- `std::wcerr << "Number of images Processed: " << number_of_Photos`, and in map.cpp
`"Photos Processed: " << number_of_photos`. -/
def Arguments.reported (args : Arguments) : ℤ := args.photos

/-- `for (int i = 0; i < number_of_Photos; i++)` copies the one photo it has loaded. -/
def Arguments.copies (args : Arguments) (sample_photo : CImg) : List CImg :=
  List.replicate args.photos.toNat sample_photo

theorem length_copies (args : Arguments) (sample_photo : CImg) :
    (args.copies sample_photo).length = args.photos.toNat := List.length_replicate

namespace Farm

def load (args : Arguments) (o : Overlay) (sample_photo : CImg) : Config where
  number_of_workers := args.workers
  overlay := o
  copies := args.copies sample_photo

/-- Every run that gets to the report has done what it reports. -/
def Honest (args : Arguments) (o : Overlay) (sample_photo : CImg) : Prop :=
  ∀ s, (system (load args o sample_photo)).Reachable s → s.AllReturned →
    args.reported = s.Photos_Done.length ∧
    ∀ q ∈ s.Photos_Done, s.memory.heap q.P_pointer = markingLoop o sample_photo

-- Without workers the collector collects nothing.
theorem Photos_Done_nil {cfg : Config} (h0 : cfg.threads = 0) {s : State cfg}
    (hs : (system cfg).Reachable s) : s.Photos_Done = [] := by
  refine hs.invariant (P := fun s => s.Photos_Done = []) rfl fun s a t _ ih ha => ?_
  cases a with
  | emitter => cases emitterStep_cases ha <;> exact ih
  | worker i ms => cases workerStep_cases ha <;> exact ih
  | collector ms =>
      cases collectorStep_cases ha with
      | photo hc hq => omega
      | eos hc hq => exact ih

theorem honest_iff (args : Arguments) (o : Overlay) (sample_photo : CImg) :
    Honest args o sample_photo ↔ args.photos = 0 ∨ (1 ≤ args.workers ∧ 0 ≤ args.photos) := by
  constructor
  · intro h
    obtain ⟨t, ht, hr⟩ := reaches_end (.init : (system (load args o sample_photo)).Reachable _)
    have hlen : args.photos = t.Photos_Done.length := (h t ht hr).1
    by_cases hn : 1 ≤ args.workers
    · exact Or.inr ⟨hn, by omega⟩
    · have h0 : (load args o sample_photo).threads = 0 := by
        change args.workers.toNat = 0
        omega
      rw [Photos_Done_nil h0 ht] at hlen
      exact Or.inl hlen
  · intro h s hs hr
    by_cases hn : 1 ≤ args.workers
    · have hpos : 0 < (load args o sample_photo).threads := by
        change 0 < args.workers.toNat
        omega
      obtain ⟨_, _, hwork, hdone⟩ := returned_clean hpos hs hr
      have hlen := hdone.length_eq
      simp only [Config.photos, List.length_map, List.length_range] at hlen
      have hcopies : (load args o sample_photo).copies.length = args.photos.toNat :=
        length_copies args sample_photo
      refine ⟨?_, fun q hq => ?_⟩
      · change args.photos = _
        omega
      · obtain ⟨k, hk, rfl⟩ := List.mem_map.mp (hdone.mem_iff.mp hq)
        have hmarked := (marked_once hs hwork (List.mem_range.mp hk)).1
        simpa [load, Arguments.copies] using hmarked
    · have h0 : (load args o sample_photo).threads = 0 := by
        change args.workers.toNat = 0
        omega
      rw [Photos_Done_nil h0 hs]
      refine ⟨?_, fun q hq => absurd hq List.not_mem_nil⟩
      change args.photos = 0
      omega

end Farm

namespace Map

/-- `std::vector<queue<Image *>>(number_workers)` throws for a negative number, and nothing
catches it. -/
def load (args : Arguments) (o : Overlay) (sample_photo : CImg) : Option Config :=
  if args.workers < 0 then none
  else some ⟨args.workers, o, args.copies sample_photo⟩

/-- No run divides by zero, and every run that gets to the report has done what it reports. -/
def Honest (args : Arguments) (o : Overlay) (sample_photo : CImg) : Prop :=
  ∀ cfg, load args o sample_photo = some cfg → ∀ s, (system cfg).Reachable s →
    s.scatter ≠ .divided ∧
    (s.AllReturned → args.reported = s.images_done.length ∧
      ∀ ii ∈ s.images_done, s.memory.heap ii.P_Pointer = markingLoop o sample_photo)

section NoWorkers

variable {cfg : Config}

theorem images_done_nil (h0 : cfg.threads = 0) {s : State cfg} (hs : (system cfg).Reachable s) :
    s.images_done = [] := by
  refine step_invariant (P := fun s => s.images_done = []) rfl (fun s t _ ih h => ?_)
    (fun s id ms t _ ih h => ?_) (fun s t _ ih h => ?_) hs
  · cases h <;> exact ih
  · cases h <;> exact ih
  · cases h with
    | @take i ii q hp hq =>
        have hi := i.isLt
        omega
    | _ => exact ih

-- The first step of scatter divides when there is a photo and no worker.
theorem divides (h0 : cfg.number_workers = 0) (hc : cfg.copies ≠ []) :
    ∃ s, (system cfg).Reachable s ∧ s.scatter = .divided := by
  have hphotos : cfg.photos ≠ [] := by
    intro hnil
    have hlen := congrArg List.length hnil
    simp only [Config.photos, List.length_map, List.length_range, List.length_nil] at hlen
    exact hc (List.length_eq_zero_iff.mp hlen)
  obtain ⟨ii, left, hcons⟩ := List.exists_cons_of_ne_nil hphotos
  have hinit : (system cfg).init.scatter = .photos (ii :: left) := by
    rw [← hcons]
    rfl
  refine ⟨(system cfg).init.setScatter .divided, .next (a := .scatter) .init ?_, rfl⟩
  change (system cfg).init.scatterStep = _
  unfold State.scatterStep
  rw [hinit]
  simp only [h0, if_true]

-- Without workers and photos all threads return at once.
theorem returns_at_once (h0 : cfg.threads = 0) (hc : cfg.copies = []) :
    ∃ s, (system cfg).Reachable s ∧ s.AllReturned := by
  have hinit : (system cfg).init.scatter = .photos [] := by
    change Scatter.photos cfg.photos = _
    rw [Config.photos, hc]
    rfl
  refine ⟨(system cfg).init.setScatter (.eos 0), .next (a := .scatter) .init ?_,
    ⟨0, by omega, rfl⟩, fun i => ?_, ?_⟩
  · change (system cfg).init.scatterStep = _
    unfold State.scatterStep
    rw [hinit]
  · have hi := i.isLt
    omega
  · change Poll.whileTest cfg.threads 0 = .returned
    unfold Poll.whileTest
    rw [dif_neg (by omega)]

-- Scatter does not divide when there are no photos.
theorem not_divided_of_no_photos (hc : cfg.copies = []) {s : State cfg}
    (hs : (system cfg).Reachable s) : s.scatter = .photos [] ∨ ∃ i, s.scatter = .eos i := by
  refine step_invariant (P := fun s => s.scatter = .photos [] ∨ ∃ i, s.scatter = .eos i) ?_
    (fun s t _ ih h => ?_) (fun s id ms t _ ih h => ?_) (fun s t _ ih h => ?_) hs
  · apply Or.inl
    change Scatter.photos cfg.photos = _
    rw [Config.photos, hc]
    rfl
  · -- in the first two loops there is no photo left to go on with
    have hphotos : ∀ ii left, s.scatter ≠ .photos (ii :: left) := by
      intro ii left hs
      rcases ih with h | ⟨i, h⟩
      · rw [hs] at h
        cases h
      · rw [hs] at h
        cases h
    have hparts : ∀ ii left v, s.scatter ≠ .parts ii left v := by
      intro ii left v hs
      rcases ih with h | ⟨i, h⟩
      · rw [hs] at h
        cases h
      · rw [hs] at h
        cases h
    cases h with
    | last hs => exact Or.inr ⟨0, rfl⟩
    | divide hs hn => exact absurd hs (hphotos _ _)
    | enter hs hn => exact absurd hs (hphotos _ _)
    | part hs h => exact absurd hs (hparts _ _ _)
    | leave hs h => exact absurd hs (hparts _ _ _)
    | eos hs h => exact Or.inr ⟨_, rfl⟩
  · cases h <;> exact ih
  · cases h with
    | @take i ii q hp hq => cases ii <;> exact ih
    | _ => exact ih

end NoWorkers

theorem honest_of_workers {args : Arguments} {o : Overlay} {sample_photo : CImg}
    (hn : 1 ≤ args.workers) (hp : 0 ≤ args.photos) : Honest args o sample_photo := by
  intro cfg hload s hs
  unfold load at hload
  rw [if_neg (by omega)] at hload
  cases hload
  have hpos : 0 < Config.threads ⟨args.workers, o, args.copies sample_photo⟩ := by
    change 0 < args.workers.toNat
    omega
  refine ⟨fun hd => ?_, fun hr => ⟨?_, fun ii hii => ?_⟩⟩
  · have hinv := scatterInv (number_workers_nonneg hpos) hs
    unfold State.ScatterInv at hinv
    rw [hd] at hinv
    change args.workers = 0 at hinv
    omega
  · have hlen := congrArg List.length (done_of_returned hpos hs hr.2.2)
    simp only [List.length_map, List.length_range, length_copies] at hlen
    change args.photos = _
    omega
  · obtain ⟨hk, hmarked, _⟩ := marked_of_mem_done hpos hs hii
    simpa [Arguments.copies] using hmarked

theorem load_of_nonneg {args : Arguments} (h : 0 ≤ args.workers) (o : Overlay)
    (sample_photo : CImg) :
    load args o sample_photo = some ⟨args.workers, o, args.copies sample_photo⟩ := by
  unfold load
  rw [if_neg (Int.not_lt.mpr h)]

-- With workers the end is reached, and the number of photos is not negative.
theorem photos_nonneg_of_honest {args : Arguments} {o : Overlay} {sample_photo : CImg}
    (hn : 1 ≤ args.workers) (h : Honest args o sample_photo) : 0 ≤ args.photos := by
  have hthreads : 0 < Config.threads ⟨args.workers, o, args.copies sample_photo⟩ := by
    change 0 < args.workers.toNat
    omega
  obtain ⟨t, ht, hr⟩ := reaches_end hthreads .init
  have hload := load_of_nonneg (Int.le_trans Int.one_nonneg hn) o sample_photo
  have hreport : args.photos = t.images_done.length := ((h _ hload t ht).2 hr).1
  omega

theorem honest_without_workers {args : Arguments} {o : Overlay} {sample_photo : CImg}
    (h0 : args.workers = 0) : Honest args o sample_photo ↔ args.photos = 0 := by
  let cfg : Config := ⟨args.workers, o, args.copies sample_photo⟩
  have hload : load args o sample_photo = some cfg := load_of_nonneg (Int.le_of_eq h0.symm) _ _
  have hthreads : cfg.threads = 0 := by
    change args.workers.toNat = 0
    omega
  have hlen : cfg.copies.length = args.photos.toNat := length_copies args sample_photo
  constructor
  · intro h
    by_cases hc : cfg.copies = []
    · obtain ⟨s, hs, hr⟩ := returns_at_once hthreads hc
      have hreport := ((h cfg hload s hs).2 hr).1
      rw [images_done_nil hthreads hs] at hreport
      exact hreport
    · obtain ⟨s, hs, hd⟩ := divides h0 hc
      exact absurd hd (h cfg hload s hs).1
  · intro hphotos cfg' hload' s hs
    have hc : cfg.copies = [] := List.length_eq_zero_iff.mp (by omega)
    rw [hload] at hload'
    cases hload'
    refine ⟨fun hd => ?_, fun hr => ?_⟩
    · rcases not_divided_of_no_photos hc hs with h | ⟨i, h⟩
      · rw [hd] at h
        cases h
      · rw [hd] at h
        cases h
    · rw [images_done_nil hthreads hs]
      exact ⟨hphotos, fun ii hii => absurd hii List.not_mem_nil⟩

theorem honest_iff (args : Arguments) (o : Overlay) (sample_photo : CImg) :
    Honest args o sample_photo ↔
      args.workers < 0 ∨ args.photos = 0 ∨ (1 ≤ args.workers ∧ 0 ≤ args.photos) := by
  rcases lt_trichotomy args.workers 0 with hneg | h0 | hpos
  · -- main has stopped before the threads
    refine iff_of_true (fun cfg hload => ?_) (Or.inl hneg)
    unfold load at hload
    rw [if_pos hneg] at hload
    cases hload
  · rw [honest_without_workers h0]
    omega
  · constructor
    · intro h
      exact Or.inr (Or.inr ⟨hpos, photos_nonneg_of_honest hpos h⟩)
    · intro h
      exact honest_of_workers hpos (by omega)

end Map

/-- The exact arguments for which each program reports what it did. -/
theorem reports_what_it_did_iff (args : Arguments) (o : Overlay) (sample_photo : CImg) :
    (Farm.Honest args o sample_photo ↔
      args.photos = 0 ∨ (1 ≤ args.workers ∧ 0 ≤ args.photos)) ∧
    (Map.Honest args o sample_photo ↔
      args.workers < 0 ∨ args.photos = 0 ∨ (1 ≤ args.workers ∧ 0 ≤ args.photos)) :=
  ⟨Farm.honest_iff args o sample_photo, Map.honest_iff args o sample_photo⟩

/-- With 0 workers and 1 photo, farm.cpp reports 1 photo and has done none, and map.cpp divides
by zero. -/
theorem not_honest_without_workers :
    ¬Farm.Honest ⟨0, 1⟩ onePixelOverlay onePixelPhoto ∧
      ¬Map.Honest ⟨0, 1⟩ onePixelOverlay onePixelPhoto := by
  rw [Farm.honest_iff, Map.honest_iff]
  decide

end Watermark
