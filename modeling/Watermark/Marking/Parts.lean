import Watermark.Marking.Loop
import Watermark.Reasoning.Balanced

/-!
# Parts — how the map programs cut a photo into parts

`scatter` of map.cpp and `firstStage::svc` of fastflow_map.cpp run the same loop: the part size is
a variable that starts at `height/N + 1` and loses one row when the counter meets `height % N`,
and the offset accumulates the sizes.  The loop is kept with its variables; `PartLoop.at_closed`
gives them in closed form.
-/

namespace Watermark

open Reasoning

/-- What the constructor `Image(P_, p_no, S_point, title)` receives of a part. -/
structure Part where
  starting : ℤ
  total_parts : ℤ
deriving DecidableEq

/-- The variables of the inner loop at its head. -/
structure PartLoop where
  i : ℕ
  partitions : ℤ
  portion_left : ℤ
  allocation : ℤ
deriving DecidableEq

namespace PartLoop

/-- The variables before the first iteration; `/` and `%` truncate towards zero. -/
def enter (height number_workers : ℤ) : PartLoop where
  i := 0
  partitions := height.tdiv number_workers + 1
  portion_left := height.tmod number_workers
  allocation := 0

/-- `if(i == portion_left) partitions --;` -/
def decrement (v : PartLoop) : ℤ :=
  if (v.i : ℤ) = v.portion_left then v.partitions - 1 else v.partitions

/-- One iteration: the part it creates and the variables after it. -/
def body (v : PartLoop) : Part × PartLoop :=
  let partitions := v.decrement
  (⟨v.allocation, partitions⟩,
    { v with i := v.i + 1, partitions, allocation := v.allocation + partitions })

/-- The parts of the next `n` iterations. -/
def run : ℕ → PartLoop → List Part
  | 0, _ => []
  | n + 1, v => v.body.1 :: run n v.body.2

end PartLoop

/-- The parts created for a photo of the given height. -/
def partsOf (height number_workers : ℤ) : List Part :=
  PartLoop.run number_workers.toNat (PartLoop.enter height number_workers)

/-! ## The same loop in 32-bit arithmetic -/

/-- The value of a signed 32-bit operation, `none` when it overflows (`INT_MIN`, `INT_MAX`). -/
def int32 (z : ℤ) : Option ℤ := if -2147483648 ≤ z ∧ z ≤ 2147483647 then some z else none

namespace PartLoop

def enter32 (height number_workers : ℤ) : Option PartLoop := do
  let quotient ← int32 (height.tdiv number_workers)
  let partitions ← int32 (quotient + 1)
  let portion_left ← int32 (height.tmod number_workers)
  return ⟨0, partitions, portion_left, 0⟩

def decrement32 (v : PartLoop) : Option ℤ :=
  if (v.i : ℤ) = v.portion_left then int32 (v.partitions - 1) else some v.partitions

def body32 (v : PartLoop) : Option (Part × PartLoop) := do
  let partitions ← v.decrement32
  let allocation ← int32 (v.allocation + partitions)
  let i ← int32 (v.i + 1)
  return (⟨v.allocation, partitions⟩, { v with i := i.toNat, partitions, allocation })

def run32 : ℕ → PartLoop → Option (List Part)
  | 0, _ => some []
  | n + 1, v => do
    let (part, v') ← v.body32
    let parts ← run32 n v'
    return part :: parts

end PartLoop

/-- `partsOf` with every intermediate value checked. -/
def partsOf32 (height number_workers : ℤ) : Option (List Part) := do
  let v ← PartLoop.enter32 height number_workers
  PartLoop.run32 number_workers.toNat v

/-! ## Closed form -/

/-- The part with number `i` of `n`. -/
def balancedPart (h n i : ℕ) : Part := ⟨Balanced.start h n i, Balanced.size h n i⟩

namespace PartLoop

/-- The loop variables before iteration `i`: the size has lost its extra row once `i` has passed
the remainder. -/
def closed (h n i : ℕ) : PartLoop where
  i := i
  partitions := h / n + if i ≤ h % n then 1 else 0
  portion_left := h % n
  allocation := Balanced.start h n i

theorem enter_closed (h n : ℕ) : enter h n = closed h n 0 := by
  unfold enter closed
  rw [Balanced.start_zero, Int.tdiv_eq_ediv_of_nonneg (Int.natCast_nonneg h),
    Int.tmod_eq_emod_of_nonneg (Int.natCast_nonneg h), if_pos (Nat.zero_le _)]
  rfl

theorem decrement_closed (h n i : ℕ) : (closed h n i).decrement = Balanced.size h n i := by
  simp only [decrement, closed, Balanced.size]
  push_cast
  split_ifs <;> omega

-- One iteration, from closed form to closed form.
theorem body_closed (h n i : ℕ) :
    (closed h n i).body = (balancedPart h n i, closed h n (i + 1)) := by
  have hnext : (Balanced.size h n i : ℤ) = (h : ℤ) / n + if i + 1 ≤ h % n then 1 else 0 := by
    simp only [Balanced.size]
    push_cast
    split_ifs <;> omega
  unfold body
  rw [decrement_closed]
  refine Prod.ext rfl ?_
  simp only [closed, mk.injEq, true_and]
  exact ⟨by exact_mod_cast hnext, by rw [Balanced.start_succ, Int.natCast_add]⟩

theorem run_closed (h n k i : ℕ) :
    run k (closed h n i) = (List.range' i k).map (balancedPart h n) := by
  induction k generalizing i with
  | zero => rfl
  | succ k ih =>
      rw [run, body_closed, ih, List.range'_succ, List.map_cons]

end PartLoop

theorem partsOf_eq (h n : ℕ) : partsOf h n = (List.range n).map (balancedPart h n) := by
  unfold partsOf
  rw [PartLoop.enter_closed, PartLoop.run_closed, Int.toNat_natCast, List.range_eq_range']

theorem int32_of_bounds {z : ℤ} (hlo : -2147483648 ≤ z) (hhi : z ≤ 2147483647) :
    int32 z = some z := by
  unfold int32
  rw [if_pos ⟨hlo, hhi⟩]

namespace PartLoop

theorem enter32_closed {h n : ℕ} (hh : (h : ℤ) < 2147483647) :
    enter32 h n = some (closed h n 0) := by
  have hq : ((h / n : ℕ) : ℤ) ≤ h := by exact_mod_cast Nat.div_le_self h n
  have hr : ((h % n : ℕ) : ℤ) ≤ h := by exact_mod_cast Nat.mod_le h n
  have hquot : (h : ℤ).tdiv n = (h / n : ℕ) := by
    rw [Int.tdiv_eq_ediv_of_nonneg (Int.natCast_nonneg h), Int.natCast_ediv]
  have hrem : (h : ℤ).tmod n = (h % n : ℕ) := by
    rw [Int.tmod_eq_emod_of_nonneg (Int.natCast_nonneg h), Int.natCast_emod]
  rw [← enter_closed]
  unfold enter32 enter
  rw [hquot, hrem]
  generalize h / n = quotient at hq ⊢
  generalize h % n = remainder at hr ⊢
  rw [int32_of_bounds (by omega) (by omega), Option.bind_eq_bind, Option.bind_some,
    int32_of_bounds (by omega) (by omega), Option.bind_some,
    int32_of_bounds (by omega) (by omega), Option.bind_some]
  rfl

theorem body32_closed {h n i : ℕ} (hh : (h : ℤ) < 2147483647) (hn : (n : ℤ) ≤ 2147483647)
    (hi : i < n) : (closed h n i).body32 = some (balancedPart h n i, closed h n (i + 1)) := by
  have hend : ((Balanced.start h n i + Balanced.size h n i : ℕ) : ℤ) ≤ h := by
    exact_mod_cast Balanced.end_le hi
  have hdec : (closed h n i).decrement32 = some (Balanced.size h n i : ℤ) := by
    have hsize := decrement_closed h n i
    unfold decrement at hsize
    unfold decrement32
    split_ifs at hsize ⊢
    · rw [hsize, int32_of_bounds (by omega) (by omega)]
    · rw [hsize]
  have halloc : (closed h n i).allocation = (Balanced.start h n i : ℤ) := rfl
  have hcount : ((closed h n i).i : ℤ) = i := rfl
  rw [← body_closed]
  unfold body32 body
  rw [hdec, decrement_closed, halloc, hcount]
  simp (disch := omega) only [int32_of_bounds, Option.bind_eq_bind, Option.bind_some]
  rfl

theorem run32_closed {h n : ℕ} (hh : (h : ℤ) < 2147483647) (hn : (n : ℤ) ≤ 2147483647) {k i : ℕ}
    (hik : i + k ≤ n) : run32 k (closed h n i) = some (run k (closed h n i)) := by
  induction k generalizing i with
  | zero => rfl
  | succ k ih =>
      rw [run32, run, body32_closed hh hn (by omega), body_closed, Option.bind_eq_bind,
        Option.bind_some]
      simp only [ih (show i + 1 + k ≤ n by omega), Option.bind_eq_bind, Option.bind_some]
      rfl

end PartLoop

-- No intermediate value of the partition loop overflows.
theorem partsOf32_eq {h n : ℕ} (hh : (h : ℤ) < 2147483647) (hn : (n : ℤ) ≤ 2147483647) :
    partsOf32 h n = some (partsOf h n) := by
  unfold partsOf32 partsOf
  rw [PartLoop.enter32_closed hh, PartLoop.enter_closed, Option.bind_eq_bind, Option.bind_some,
    Int.toNat_natCast, PartLoop.run32_closed hh hn (by omega)]

/-! ## The parts are exact and balanced -/

/-- The parts cut the rows `0, ..., height - 1` in order, none left out and none taken twice, into
pieces of almost equal size, the larger ones first. -/
structure ExactPartition (height number_workers : ℤ) (parts : List Part) : Prop where
  length_eq : (parts.length : ℤ) = number_workers
  first : ∀ p : Part, parts[0]? = some p → p.starting = 0
  next : ∀ (i : ℕ) (p q : Part), parts[i]? = some p → parts[i + 1]? = some q →
    q.starting = p.starting + p.total_parts
  last : ∀ p : Part, parts[parts.length - 1]? = some p → p.starting + p.total_parts = height
  inside : ∀ p ∈ parts, 0 ≤ p.starting ∧ 0 ≤ p.total_parts ∧ p.starting + p.total_parts ≤ height
  rows : ∀ row, 0 ≤ row → row < height →
    ∃! i : ℕ, ∃ p : Part, parts[i]? = some p ∧ p.starting ≤ row ∧ row < p.starting + p.total_parts
  balanced : ∀ p ∈ parts, ∀ q ∈ parts, p.total_parts ≤ q.total_parts + 1
  larger_first : ∀ (i j : ℕ) (p q : Part), i ≤ j → parts[i]? = some p → parts[j]? = some q →
    q.total_parts ≤ p.total_parts

theorem getElem?_partsOf {h n i : ℕ} {p : Part} :
    (partsOf h n)[i]? = some p ↔ i < n ∧ p = balancedPart h n i := by
  rw [partsOf_eq, List.getElem?_map]
  by_cases hi : i < n
  · rw [List.getElem?_range hi]
    simp only [Option.map_some, Option.some.injEq, hi, true_and]
    exact eq_comm
  · rw [List.getElem?_eq_none (by simpa using Nat.le_of_not_lt hi)]
    simp only [Option.map_none, reduceCtorEq, hi, false_and]

theorem mem_partsOf {h n : ℕ} {p : Part} :
    p ∈ partsOf h n ↔ ∃ i < n, p = balancedPart h n i := by
  rw [List.mem_iff_getElem?]
  simp only [getElem?_partsOf]

theorem exactPartition {h n : ℕ} (hn : 0 < n) : ExactPartition h n (partsOf h n) where
  length_eq := by
    rw [partsOf_eq, List.length_map, List.length_range]
  first p hp := by
    obtain ⟨_, rfl⟩ := getElem?_partsOf.mp hp
    simp only [balancedPart, Balanced.start_zero, Int.natCast_zero]
  next i p q hp hq := by
    obtain ⟨_, rfl⟩ := getElem?_partsOf.mp hp
    obtain ⟨_, rfl⟩ := getElem?_partsOf.mp hq
    simp only [balancedPart, Balanced.start_succ, Int.natCast_add]
  last p hp := by
    have hlen : (partsOf h n).length = n := by
      rw [partsOf_eq, List.length_map, List.length_range]
    rw [hlen] at hp
    obtain ⟨_, rfl⟩ := getElem?_partsOf.mp hp
    have hend := Balanced.start_succ h n (n - 1)
    rw [Nat.sub_add_cancel hn, Balanced.start_all h hn] at hend
    simp only [balancedPart]
    omega
  inside p hp := by
    obtain ⟨i, hi, rfl⟩ := mem_partsOf.mp hp
    have hle := Balanced.end_le (h := h) hi
    simp only [balancedPart]
    omega
  rows row hlo hhi := by
    obtain ⟨r, rfl⟩ := Int.eq_ofNat_of_zero_le hlo
    obtain ⟨i, ⟨hi, hstart, hend⟩, huniq⟩ := Balanced.existsUnique_part
      (show r < h by omega) hn
    refine ⟨i, ⟨balancedPart h n i, getElem?_partsOf.mpr ⟨hi, rfl⟩, ?_, ?_⟩, ?_⟩
    · simp only [balancedPart]
      omega
    · simp only [balancedPart]
      omega
    · rintro j ⟨p, hp, hj, hj'⟩
      obtain ⟨hjn, rfl⟩ := getElem?_partsOf.mp hp
      simp only [balancedPart] at hj hj'
      exact huniq j ⟨hjn, by omega, by omega⟩
  balanced p hp q hq := by
    obtain ⟨i, _, rfl⟩ := mem_partsOf.mp hp
    obtain ⟨j, _, rfl⟩ := mem_partsOf.mp hq
    have hle := Balanced.size_le_succ h n i j
    simp only [balancedPart]
    omega
  larger_first i j p q hij hp hq := by
    obtain ⟨_, rfl⟩ := getElem?_partsOf.mp hp
    obtain ⟨_, rfl⟩ := getElem?_partsOf.mp hq
    have hle := Balanced.size_antitone h n hij
    simp only [balancedPart]
    omega

/-- For every `int` height but the largest and every positive `int` number of workers, the loop
computes an exact partition, and none of its intermediate values leaves the range of `int`. -/
theorem partition_exact_no_overflow (height number_workers : ℤ) (h0 : 0 ≤ height)
    (hmax : height < 2147483647) (hn : 1 ≤ number_workers) (hnmax : number_workers ≤ 2147483647) :
    partsOf32 height number_workers = some (partsOf height number_workers) ∧
      ExactPartition height number_workers (partsOf height number_workers) := by
  obtain ⟨h, rfl⟩ := Int.eq_ofNat_of_zero_le h0
  obtain ⟨n, rfl⟩ := Int.eq_ofNat_of_zero_le (Int.le_trans Int.one_nonneg hn)
  exact ⟨partsOf32_eq hmax hnmax, exactPartition (by omega)⟩

/-- Five rows and three workers. -/
theorem partition_exact_no_overflow_five : partsOf32 5 3 = some [⟨0, 2⟩, ⟨2, 2⟩, ⟨4, 1⟩] :=
  (partition_exact_no_overflow 5 3 (by decide) (by decide) (by decide) (by decide)).1

-- The parts of a photo, one after the other, visit its pixels in the order of `cimg_forXY`.
theorem flatMap_forPart (img : CImg) {n : ℕ} (hn : 0 < n) :
    ((List.range n).flatMap fun i => forPart img (balancedPart img.height n i).starting
      (balancedPart img.height n i).total_parts) = forXY img := by
  have hpart : ∀ i, forPart img (balancedPart img.height n i).starting
      (balancedPart img.height n i).total_parts =
      ((List.range (Balanced.size img.height n i)).map (Balanced.start img.height n i + ·)).flatMap
        (forX img.width) := by
    intro i
    simp only [forPart, balancedPart, Int.toNat_natCast, List.flatMap_map, ← Int.natCast_add,
      Nat.add_comm]
  unfold forXY
  rw [← Balanced.rows_all img.height hn, List.flatMap_assoc]
  simp only [hpart]

end Watermark
