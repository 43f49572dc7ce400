import Watermark.Marking.Loop
import Watermark.Reasoning.CellWork

/-!
# Thread — marking a shared photo one access at a time

A worker thread walks through its list of pixels and makes one access to the photo a step, so
threads that mark the same photo interleave down to single channel reads and writes.  The
invariant `MemoryInv` is the cell invariant of `CellWork` for photos: a pixel is a cell, a visit
the job on it, and the target is what the sequential marking loop makes of the photo.
-/

namespace Watermark

open Function Reasoning

/-- The photos by their `P_Pointer`, and the history of the pixels whose loop body has ended,
which no step reads. -/
structure Memory where
  heap : ℕ → CImg
  visited : List (ℕ × Pixel)

/-- How often the loop body has run at a pixel. -/
def Memory.timesVisited (m : Memory) (photo : ℕ) (p : Pixel) : ℕ :=
  (m.visited : Multiset (ℕ × Pixel)).count (photo, p)

/-- A worker inside its marking loop: the photo, the pixels left, and where the body stands at
the first of them. -/
structure Marking where
  photo : ℕ
  todo : List Pixel
  visit : Visit
deriving DecidableEq

namespace Marking

/-- The head of the loop. -/
def start (photo : ℕ) (todo : List Pixel) : Marking := ⟨photo, todo, .test⟩

/-- One access, or `none` when the loop has ended. -/
def step (o : Overlay) (m : Memory) (t : Marking) : Option (Memory × Marking) :=
  match t.todo with
  | [] => none
  | p :: rest =>
    let (next, img) := t.visit.step o p (m.heap t.photo)
    let heap := update m.heap t.photo img
    match next with
    | some v => some ({ m with heap }, { t with visit := v })
    | none => some ({ heap, visited := m.visited ++ [(t.photo, p)] }, start t.photo rest)

/-- Accesses left at most. -/
def fuel (t : Marking) : ℕ :=
  match t.todo with
  | [] => 0
  | _ :: rest => t.visit.rank + 1 + 9 * rest.length

/-- Run the loop with no other thread in between. -/
def runAlone (o : Overlay) : ℕ → Memory → Marking → Memory × Marking
  | 0, m, t => (m, t)
  | n + 1, m, t =>
    match t.step o m with
    | none => (m, t)
    | some (m', t') => runAlone o n m' t'

@[simp] theorem fuel_start (photo : ℕ) (todo : List Pixel) :
    (start photo todo).fuel = 9 * todo.length := by
  cases todo with
  | nil => rfl
  | cons p rest =>
      simp only [fuel, start, Visit.rank, List.length_cons]
      omega

theorem step_eq_none_iff {o : Overlay} {m : Memory} {t : Marking} :
    t.step o m = none ↔ t.todo = [] := by
  unfold step
  cases t.todo with
  | nil => simp
  | cons p rest =>
      simp only [reduceCtorEq, iff_false]
      split <;> simp

-- Everything a step can do: go on at the same pixel, or end its visit.
theorem step_cases {o : Overlay} {m m' : Memory} {t t' : Marking}
    (h : t.step o m = some (m', t')) :
    ∃ p rest, t.todo = p :: rest ∧
      m'.heap = update m.heap t.photo (t.visit.step o p (m.heap t.photo)).2 ∧
      ((∃ v, (t.visit.step o p (m.heap t.photo)).1 = some v ∧ m'.visited = m.visited ∧
          t' = { t with visit := v }) ∨
        ((t.visit.step o p (m.heap t.photo)).1 = none ∧
          m'.visited = m.visited ++ [(t.photo, p)] ∧ t' = start t.photo rest)) := by
  unfold step at h
  cases htodo : t.todo with
  | nil => simp [htodo] at h
  | cons p rest =>
      refine ⟨p, rest, rfl, ?_⟩
      simp only [htodo] at h
      cases hnext : (t.visit.step o p (m.heap t.photo)).1 with
      | some v =>
          simp only [hnext, Option.some.injEq, Prod.mk.injEq] at h
          obtain ⟨rfl, rfl⟩ := h
          exact ⟨rfl, Or.inl ⟨v, rfl, rfl, rfl⟩⟩
      | none =>
          simp only [hnext, Option.some.injEq, Prod.mk.injEq] at h
          obtain ⟨rfl, rfl⟩ := h
          exact ⟨rfl, Or.inr ⟨rfl, rfl, rfl⟩⟩

theorem step_photo {o : Overlay} {m m' : Memory} {t t' : Marking}
    (h : t.step o m = some (m', t')) : t'.photo = t.photo := by
  obtain ⟨p, rest, _, _, ⟨v, _, _, rfl⟩ | ⟨_, _, rfl⟩⟩ := step_cases h <;> rfl

-- A marking step leaves every other photo alone.
theorem step_heap_ne {o : Overlay} {m m' : Memory} {t t' : Marking}
    (h : t.step o m = some (m', t')) {k : ℕ} (hk : k ≠ t.photo) : m'.heap k = m.heap k := by
  obtain ⟨p, rest, _, hheap, _⟩ := step_cases h
  rw [hheap, update_of_ne hk]

theorem step_dims {o : Overlay} {m m' : Memory} {t t' : Marking}
    (h : t.step o m = some (m', t')) (k : ℕ) :
    (m'.heap k).width = (m.heap k).width ∧ (m'.heap k).height = (m.heap k).height ∧
      (m'.heap k).spectrum = (m.heap k).spectrum := by
  by_cases hk : k = t.photo
  · obtain ⟨p, rest, _, hheap, _⟩ := step_cases h
    rw [hheap, hk, update_self]
    exact Visit.step_dims o p t.visit _
  · rw [step_heap_ne h hk]
    exact ⟨rfl, rfl, rfl⟩

end Marking

theorem Visit.rank_of_step {o : Overlay} {p : Pixel} {img : CImg} {v v' : Visit}
    (h : (v.step o p img).1 = some v') : v.rank = v'.rank + 1 := by
  have hcol : v.stepCol o p img.spectrum (fun c => img.get p.1 p.2 c) =
      (some v', (v.stepCol o p img.spectrum (fun c => img.get p.1 p.2 c)).2) := by
    refine Prod.ext ?_ rfl
    rw [← h]
    unfold stepCol step
    cases v.access o.grey <;> rfl
  exact rank_of_stepCol hcol

theorem Marking.fuel_step {o : Overlay} {m m' : Memory} {t t' : Marking}
    (h : t.step o m = some (m', t')) : t'.fuel < t.fuel := by
  obtain ⟨p, rest, htodo, _, ⟨v, hv, _, rfl⟩ | ⟨_, _, rfl⟩⟩ := step_cases h
  · have hrank := Visit.rank_of_step hv
    simp only [fuel, htodo]
    omega
  · rw [fuel_start]
    simp only [fuel, htodo]
    omega

/-! ## The invariant of a memory that threads mark together -/

/-- The jobs of visiting `pixels` of a photo, none of them begun. -/
def visits (photo : ℕ) (pixels : List Pixel) : Multiset ((ℕ × Pixel) × Visit) :=
  ↑(pixels.map fun p => ((photo, p), Visit.test))

/-- The jobs a worker inside its loop has left. -/
def Marking.work (t : Marking) : Multiset ((ℕ × Pixel) × Visit) :=
  match t.todo with
  | [] => 0
  | p :: rest => ((t.photo, p), t.visit) ::ₘ visits t.photo rest

/-- Visits as programs on the columns of the photos. -/
def visitProgram (o : Overlay) (init : ℕ → CImg) :
    CellProgram (ℕ × Pixel) Visit (ℕ → UInt8) where
  step l v col := v.stepCol o l.2 (init l.1).spectrum col
  finish l v col := v.finishCol o l.2 (init l.1).spectrum col
  finish_some := Visit.finishCol_some
  finish_none := Visit.finishCol_none

/-- The photos are on their way from `init` to `target`: `cells` are the pixels that get visited,
`work` is what is left to do. -/
structure MemoryInv (o : Overlay) (init target : ℕ → CImg) (cells : Multiset (ℕ × Pixel))
    (m : Memory) (work : Multiset ((ℕ × Pixel) × Visit)) : Prop where
  inside_cells : ∀ l ∈ cells, (init l.1).Inside l.2
  target_dims : ∀ k, (target k).width = (init k).width ∧ (target k).height = (init k).height ∧
    (target k).spectrum = (init k).spectrum
  dims : ∀ k, (m.heap k).width = (init k).width ∧ (m.heap k).height = (init k).height ∧
    (m.heap k).spectrum = (init k).spectrum
  coherent : Coherent (visitProgram o init) (fun l => column (target l.1) l.2) cells
    (fun l => column (m.heap l.1) l.2) m.visited work

@[simp] theorem work_start (photo : ℕ) (todo : List Pixel) :
    (Marking.start photo todo).work = visits photo todo := by
  cases todo <;> rfl

theorem mem_visits {photo : ℕ} {pixels : List Pixel} {e : (ℕ × Pixel) × Visit} :
    e ∈ visits photo pixels ↔ e.1.1 = photo ∧ e.1.2 ∈ pixels ∧ e.2 = .test := by
  obtain ⟨⟨k, p⟩, v⟩ := e
  simp only [visits, Multiset.mem_coe, List.mem_map, Prod.mk.injEq]
  constructor
  · rintro ⟨q, hq, ⟨rfl, rfl⟩, rfl⟩
    exact ⟨rfl, hq, rfl⟩
  · rintro ⟨rfl, hp, rfl⟩
    exact ⟨p, hp, ⟨rfl, rfl⟩, rfl⟩

theorem visits_append (k : ℕ) (l l' : List Pixel) :
    visits k (l ++ l') = visits k l + visits k l' := by
  unfold visits
  rw [List.map_append, Multiset.coe_add]

theorem visits_flatMap {ι : Type*} (k : ℕ) (g : ι → List Pixel) (l : List ι) :
    visits k (l.flatMap g) = (l.map fun i => visits k (g i)).sum := by
  induction l with
  | nil => rfl
  | cons i l ih => rw [List.flatMap_cons, visits_append, ih, List.map_cons, List.sum_cons]

theorem Marking.work_photo {t : Marking} {e : (ℕ × Pixel) × Visit} (he : e ∈ t.work) :
    e.1.1 = t.photo := by
  unfold work at he
  cases htodo : t.todo with
  | nil => simp [htodo] at he
  | cons p rest =>
      simp only [htodo] at he
      rcases Multiset.mem_cons.mp he with rfl | he
      · rfl
      · exact (mem_visits.mp he).1

namespace MemoryInv

variable {o : Overlay} {init target : ℕ → CImg} {cells : Multiset (ℕ × Pixel)} {m m' : Memory}
  {work rest : Multiset ((ℕ × Pixel) × Visit)} {t t' : Marking}

-- Before anything is marked, when every pixel of every photo is to be visited once.
theorem start (hnodup : (work.map Prod.fst).Nodup) (htest : ∀ e ∈ work, e.2 = .test)
    (hmem : ∀ l, l ∈ work.map Prod.fst ↔ (init l.1).Inside l.2) :
    MemoryInv o init (fun k => markingLoop o (init k)) (work.map Prod.fst) ⟨init, []⟩ work := by
  refine ⟨fun l hl => (hmem l).mp hl, fun k => markingLoop_dims o (init k),
    fun k => ⟨rfl, rfl, rfl⟩, Coherent.start hnodup (fun e he => ?_) fun l hl => ?_⟩
  · have hin := (hmem e.1).mp (Multiset.mem_map_of_mem Prod.fst he)
    rw [htest e he]
    exact (column_markingLoop_inside o hin).symm
  · exact (column_markingLoop_outside o fun hin => hl ((hmem l).mpr hin)).symm

theorem inside (h : MemoryInv o init target cells m work) {e : (ℕ × Pixel) × Visit}
    (he : e ∈ work) :
    (m.heap e.1.1).Inside e.1.2 := by
  have hcell : e.1 ∈ cells := by
    rw [← h.coherent.cover]
    exact Multiset.mem_add.mpr (Or.inr (Multiset.mem_map_of_mem Prod.fst he))
  obtain ⟨hw, hh, _⟩ := h.dims e.1.1
  obtain ⟨hx, hy⟩ := h.inside_cells e.1 hcell
  exact ⟨hw ▸ hx, hh ▸ hy⟩

-- A step of one thread, the others holding `rest`.
theorem step (h : MemoryInv o init target cells m (t.work + rest))
    (hs : t.step o m = some (m', t')) : MemoryInv o init target cells m' (t'.work + rest) := by
  obtain ⟨p, todo, htodo, hheap, hnext⟩ := Marking.step_cases hs
  have hwork : t.work = ((t.photo, p), t.visit) ::ₘ visits t.photo todo := by
    simp only [Marking.work, htodo]
  rw [hwork, Multiset.cons_add] at h
  have hin : (m.heap t.photo).Inside p := h.inside (Multiset.mem_cons_self _ _)
  have hcol := Visit.column_step_self hin o t.visit
  rw [(h.dims t.photo).2.2] at hcol
  have hself : column (m'.heap t.photo) p =
      column (t.visit.step o p (m.heap t.photo)).2 p := by rw [hheap, update_self]
  have hframe : ∀ l, l ≠ (t.photo, p) → column (m'.heap l.1) l.2 = column (m.heap l.1) l.2 := by
    intro l hl
    by_cases hk : l.1 = t.photo
    · rw [hheap, hk, update_self]
      exact Visit.column_step_ne hin (fun hp => hl (Prod.ext hk hp)) o t.visit
    · rw [Marking.step_heap_ne hs hk]
  have hdims : ∀ k, (m'.heap k).width = (init k).width ∧ (m'.heap k).height = (init k).height ∧
      (m'.heap k).spectrum = (init k).spectrum := by
    intro k
    obtain ⟨hw, hh, hsp⟩ := Marking.step_dims hs k
    obtain ⟨hw', hh', hsp'⟩ := h.dims k
    exact ⟨hw.trans hw', hh.trans hh', hsp.trans hsp'⟩
  refine ⟨h.inside_cells, h.target_dims, hdims, ?_⟩
  rcases hnext with ⟨v, hv, hvisited, rfl⟩ | ⟨hv, hvisited, rfl⟩
  · have hwork' : ({ t with visit := v } : Marking).work =
        ((t.photo, p), v) ::ₘ visits t.photo todo := by simp only [Marking.work, htodo]
    rw [hvisited, hwork', Multiset.cons_add]
    refine h.coherent.step_some ?_ hframe
    change t.visit.stepCol o p (init t.photo).spectrum (column (m.heap t.photo) p) = _
    rw [hcol, hv, hself]
  · rw [hvisited, work_start, ← Multiset.coe_add, Multiset.add_comm,
      show ((↑[(t.photo, p)] : Multiset (ℕ × Pixel)) = {(t.photo, p)}) from rfl,
      Multiset.singleton_add]
    refine h.coherent.step_none ?_ hframe
    change t.visit.stepCol o p (init t.photo).spectrum (column (m.heap t.photo) p) = _
    rw [hcol, hv, hself]

-- A photo without pending visits is what it was to become,
theorem heap_eq (h : MemoryInv o init target cells m work) {k : ℕ} (hk : ∀ e ∈ work, e.1.1 ≠ k) :
    m.heap k = target k := by
  obtain ⟨hw, hh, hs⟩ := h.dims k
  obtain ⟨hw', hh', hs'⟩ := h.target_dims k
  refine eq_of_column (hw.trans hw'.symm) (hh.trans hh'.symm) (hs.trans hs'.symm) fun p => ?_
  refine h.coherent.settled (k, p) fun hmem => ?_
  obtain ⟨e, he, heq⟩ := Multiset.mem_map.mp hmem
  exact hk e he (congrArg Prod.fst heq)

-- and each of its pixels has been visited exactly once.
theorem count_visited (h : MemoryInv o init target cells m work) {k : ℕ}
    (hk : ∀ e ∈ work, e.1.1 ≠ k) {p : Pixel} (hp : (k, p) ∈ cells) : m.timesVisited k p = 1 := by
  refine h.coherent.count_done hp fun hmem => ?_
  obtain ⟨e, he, heq⟩ := Multiset.mem_map.mp hmem
  exact hk e he (congrArg Prod.fst heq)

theorem runAlone (h : MemoryInv o init target cells m (t.work + rest)) (n : ℕ) :
    MemoryInv o init target cells (t.runAlone o n m).1 ((t.runAlone o n m).2.work + rest) := by
  induction n generalizing m t with
  | zero => exact h
  | succ n ih =>
      unfold Marking.runAlone
      cases hs : t.step o m with
      | none => exact h
      | some r => exact ih (h.step hs)

end MemoryInv

/-! ## All photos of a program -/

/-- The buffers behind the pointers `0, 1, ...` of the photos `main` has loaded. -/
def loadHeap (copies : List CImg) (k : ℕ) : CImg :=
  copies.getD k ⟨0, 0, 0, #[], rfl, by decide, by decide⟩

theorem loadHeap_eq {copies : List CImg} {k : ℕ} (hk : k < copies.length) :
    loadHeap copies k = copies[k] := by
  unfold loadHeap
  rw [List.getD_eq_getElem?_getD, List.getElem?_eq_getElem hk, Option.getD_some]

/-- The jobs of visiting every pixel of the photos `0, ..., n - 1`. -/
def allVisits (heap : ℕ → CImg) (n : ℕ) : Multiset ((ℕ × Pixel) × Visit) :=
  ((List.range n).map fun k => visits k (forXY (heap k))).sum

theorem mem_allVisits {heap : ℕ → CImg} {n : ℕ} {e : (ℕ × Pixel) × Visit} :
    e ∈ allVisits heap n ↔ e.1.1 < n ∧ (heap e.1.1).Inside e.1.2 ∧ e.2 = .test := by
  unfold allVisits
  rw [mem_sum_map]
  constructor
  · rintro ⟨k, hk, he⟩
    obtain ⟨rfl, hp, hv⟩ := mem_visits.mp he
    exact ⟨List.mem_range.mp hk, mem_forXY.mp hp, hv⟩
  · rintro ⟨hk, hp, hv⟩
    exact ⟨e.1.1, List.mem_range.mpr hk, mem_visits.mpr ⟨rfl, mem_forXY.mpr hp, hv⟩⟩

theorem nodup_allVisits (heap : ℕ → CImg) (n : ℕ) :
    ((allVisits heap n).map Prod.fst).Nodup := by
  have hvisits : ∀ k, ((visits k (forXY (heap k))).map Prod.fst).Nodup := by
    intro k
    simp only [visits, Multiset.map_coe, List.map_map, Multiset.coe_nodup]
    exact (nodup_forXY _).map fun p q h => (Prod.mk.inj h).2
  induction n with
  | zero => simp [allVisits]
  | succ n ih =>
      have hsplit : allVisits heap (n + 1) = allVisits heap n + visits n (forXY (heap n)) := by
        simp only [allVisits, List.range_succ, List.map_append, List.sum_append, List.map_cons,
          List.map_nil, List.sum_cons, List.sum_nil, add_zero]
      rw [hsplit, Multiset.map_add, Multiset.nodup_add]
      refine ⟨ih, hvisits n, Multiset.disjoint_left.mpr fun hl hl' => ?_⟩
      obtain ⟨e, he, rfl⟩ := Multiset.mem_map.mp hl
      obtain ⟨e', he', heq⟩ := Multiset.mem_map.mp hl'
      have hlt := (mem_allVisits.mp he).1
      rw [← heq, (mem_visits.mp he').1] at hlt
      exact Nat.lt_irrefl _ hlt

theorem loadHeap_outside {copies : List CImg} {k : ℕ} (hk : copies.length ≤ k) (p : Pixel) :
    ¬(loadHeap copies k).Inside p := by
  intro h
  have hempty : (loadHeap copies k).width = 0 := by
    unfold loadHeap
    rw [List.getD_eq_getElem?_getD, List.getElem?_eq_none hk]
    rfl
  have hlt := h.1
  omega

-- Every program starts here.
theorem MemoryInv.load (o : Overlay) (copies : List CImg) :
    MemoryInv o (loadHeap copies) (fun k => markingLoop o (loadHeap copies k))
      ((allVisits (loadHeap copies) copies.length).map Prod.fst) ⟨loadHeap copies, []⟩
      (allVisits (loadHeap copies) copies.length) := by
  refine MemoryInv.start (nodup_allVisits _ _) (fun e he => (mem_allVisits.mp he).2.2) fun l => ?_
  constructor
  · intro hl
    obtain ⟨e, he, rfl⟩ := Multiset.mem_map.mp hl
    exact (mem_allVisits.mp he).2.1
  · intro hin
    have hk : l.1 < copies.length := by
      by_contra hk
      exact loadHeap_outside (Nat.le_of_not_lt hk) l.2 hin
    exact Multiset.mem_map.mpr ⟨(l, .test), mem_allVisits.mpr ⟨hk, hin, rfl⟩, rfl⟩

/-! ## A marking loop that runs alone -/

theorem Marking.runAlone_todo {o : Overlay} {n : ℕ} {m : Memory} {t : Marking}
    (hn : t.fuel ≤ n) : (t.runAlone o n m).2.todo = [] := by
  induction n generalizing m t with
  | zero =>
      unfold runAlone
      cases htodo : t.todo with
      | nil => rfl
      | cons p rest =>
          simp only [fuel, htodo] at hn
          omega
  | succ n ih =>
      unfold runAlone
      cases hs : t.step o m with
      | none => exact step_eq_none_iff.mp hs
      | some r =>
          have hlt := fuel_step hs
          exact ih (by omega)

-- The pixels of photo `k`, in any order, are all that is to be done on it.
theorem MemoryInv.startPhoto (o : Overlay) (heap : ℕ → CImg) (k : ℕ) {l : List Pixel}
    (hl : l.Perm (forXY (heap k))) :
    MemoryInv o heap (update heap k (markingLoop o (heap k))) ((visits k l).map Prod.fst)
      ⟨heap, []⟩ (visits k l) := by
  have hfst : (visits k l).map Prod.fst = ↑(l.map fun p => (k, p)) := by
    simp only [visits, Multiset.map_coe, List.map_map]
    rfl
  have hmem : ∀ j p, (j, p) ∈ (visits k l).map Prod.fst ↔ j = k ∧ (heap k).Inside p := by
    intro j p
    rw [hfst, Multiset.mem_coe, List.mem_map]
    constructor
    · rintro ⟨q, hq, heq⟩
      cases heq
      exact ⟨rfl, mem_forXY.mp (hl.mem_iff.mp hq)⟩
    · rintro ⟨rfl, hp⟩
      exact ⟨p, hl.mem_iff.mpr (mem_forXY.mpr hp), rfl⟩
  refine ⟨fun c hc => ?_, fun j => ?_, fun j => ⟨rfl, rfl, rfl⟩,
    Coherent.start ?_ (fun e he => ?_) fun c hc => ?_⟩
  · obtain ⟨hk, hin⟩ := (hmem c.1 c.2).mp hc
    rwa [hk]
  · by_cases hj : j = k
    · rw [hj, update_self]
      exact markingLoop_dims o _
    · rw [update_of_ne hj]
      exact ⟨rfl, rfl, rfl⟩
  · rw [hfst, Multiset.coe_nodup]
    exact (hl.nodup_iff.mpr (nodup_forXY _)).map fun p q h => (Prod.mk.inj h).2
  · obtain ⟨hk, hp, hv⟩ := mem_visits.mp he
    rw [hk, hv, update_self, column_markingLoop_inside o (mem_forXY.mp (hl.mem_iff.mp hp))]
    change Visit.finishCol o e.1.2 (heap e.1.1).spectrum _ _ = _
    rw [hk]
  · -- the other photos, and what lies outside of this one, are to stay
    by_cases hj : c.1 = k
    · have hout : ¬(heap k).Inside c.2 := fun hin => hc ((hmem c.1 c.2).mpr ⟨hj, hin⟩)
      rw [hj, update_self, column_markingLoop_outside o hout]
    · rw [update_of_ne hj]

-- A thread that runs its loop alone over any arrangement of the pixels of a photo makes of it what
-- the sequential loop makes of it.
theorem Marking.runAlone_heap (o : Overlay) (m : Memory) (k : ℕ) {l : List Pixel}
    (hl : l.Perm (forXY (m.heap k))) {n : ℕ} (hn : 9 * l.length ≤ n) :
    ((Marking.start k l).runAlone o n ⟨m.heap, []⟩).1.heap =
      update m.heap k (markingLoop o (m.heap k)) := by
  have hinv : MemoryInv o m.heap (update m.heap k (markingLoop o (m.heap k)))
      ((visits k l).map Prod.fst) ⟨m.heap, []⟩ ((Marking.start k l).work + 0) := by
    rw [work_start, add_zero]
    exact .startPhoto o m.heap k hl
  have hend := hinv.runAlone n
  have htodo := Marking.runAlone_todo (o := o) (m := ⟨m.heap, []⟩)
    (by rw [Marking.fuel_start]; exact hn : (Marking.start k l).fuel ≤ n)
  funext j
  refine hend.heap_eq fun e he => ?_
  simp only [Marking.work, htodo, add_zero, Multiset.notMem_zero] at he

end Watermark
