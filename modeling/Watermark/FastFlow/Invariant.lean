import Mathlib.Data.Multiset.Bind
import Watermark.FastFlow.Skeleton
import Watermark.Reasoning.Pieces

/-!
# Invariant — tasks and pixels of a program on the skeleton

A task is unsent, assigned, in a call, returned or collected, and a step moves one task from one of
these places to the next.  That is all there is to the order of events: the tasks are conserved,
what the calls have left to do is known, and the steps are bounded.
-/

namespace Watermark.FastFlow

open Reasoning

variable {τ ε γ : Type} {P : Program τ ε γ}

/-- The photos have the dimensions they were loaded with. -/
def SameDims (copies : List CImg) (heap : ℕ → CImg) : Prop :=
  ∀ k, (heap k).width = (loadHeap copies k).width ∧
    (heap k).height = (loadHeap copies k).height ∧
    (heap k).spectrum = (loadHeap copies k).spectrum

/-- What the proofs need of a program: `future` are the tasks its emitter is still going to send
and `fuel` bounds the steps it takes without sending one.  Together the tasks visit each pixel
of the photos once. -/
structure Program.Lawful (P : Program τ ε γ) (future : ε → List τ) (fuel : ε → ℕ) : Prop where
  skip : ∀ heap e e', SameDims P.copies heap → P.emit heap e = some (none, e') →
    future e' = future e ∧ fuel e' < fuel e
  send : ∀ heap e task e', SameDims P.copies heap → P.emit heap e = some (some task, e') →
    future e = task :: future e' ∧ fuel e' ≤ fuel e
  stop : ∀ heap e, P.emit heap e = none → future e = []
  svc_congr : ∀ heap task, SameDims P.copies heap →
    P.svc heap task = P.svc (loadHeap P.copies) task
  covers : ((future P.emitter).map fun task => (P.svc (loadHeap P.copies) task).work).sum =
    allVisits (loadHeap P.copies) P.copies.length

/-! ## Pieces -/

/-- A task and where it is. -/
inductive Piece (τ : Type) where
  | unsent (task : τ)
  | assigned (task : τ)
  | call (c : Call τ)
  | returned (task : τ)
  | collected (task : τ)

def Call.task : Call τ → τ
  | .mark task _ => task
  | .stamp task => task
  | .bump task => task

namespace Piece

def task : Piece τ → τ
  | unsent task => task
  | assigned task => task
  | call c => c.task
  | returned task => task
  | collected task => task

/-- The visits that are still to be made for a piece. -/
def work (P : Program τ ε γ) : Piece τ → Multiset ((ℕ × Pixel) × Visit)
  | unsent task => (P.svc (loadHeap P.copies) task).work
  | assigned task => (P.svc (loadHeap P.copies) task).work
  | call (.mark _ t) => t.work
  | _ => 0

/-- The steps it will take to bring a piece to the collector. -/
def measure (P : Program τ ε γ) : Piece τ → ℕ
  | unsent task => (P.svc (loadHeap P.copies) task).fuel + 6
  | assigned task => (P.svc (loadHeap P.copies) task).fuel + 5
  | call (.mark _ t) => t.fuel + 4
  | call (.stamp _) => 3
  | call (.bump _) => 2
  | returned _ => 1
  | collected _ => 0

/-- A call works on the photo of its task. -/
def OnPhoto (P : Program τ ε γ) : Piece τ → Prop
  | call (.mark task t) => t.photo = (P.svc (loadHeap P.copies) task).photo
  | _ => True

end Piece

/-- The pieces in the five places. -/
def bag {n : ℕ} (unsent : List τ) (assigned : List (Fin n × τ)) (calls : List (Fin n × Call τ))
    (returned collected : List τ) : Multiset (Piece τ) :=
  ↑(unsent.map Piece.unsent) + (↑(assigned.map fun a => Piece.assigned a.2) +
    (↑(calls.map fun c => Piece.call c.2) +
      (↑(returned.map Piece.returned) + ↑(collected.map Piece.collected))))

section Bag

variable {n k : ℕ} {i : Fin n} {unsent returned collected : List τ}
  {assigned : List (Fin n × τ)} {calls : List (Fin n × Call τ)} {task : τ} {c d : Call τ}

theorem bag_unsent_cons : bag (task :: unsent) assigned calls returned collected =
    .unsent task ::ₘ bag unsent assigned calls returned collected := by
  simp only [bag, List.map_cons, ← Multiset.cons_coe, Multiset.cons_add]

theorem bag_assigned_concat : bag unsent (assigned ++ [(i, task)]) calls returned collected =
    .assigned task ::ₘ bag unsent assigned calls returned collected := by
  simp only [bag, coe_map_concat, Multiset.cons_add, Multiset.add_cons]

theorem bag_assigned_eraseIdx (h : assigned[k]? = some (i, task)) :
    bag unsent assigned calls returned collected =
      .assigned task ::ₘ bag unsent (assigned.eraseIdx k) calls returned collected := by
  simp only [bag, coe_map_eraseIdx _ h, Multiset.cons_add, Multiset.add_cons]

theorem bag_calls_concat : bag unsent assigned (calls ++ [(i, c)]) returned collected =
    .call c ::ₘ bag unsent assigned calls returned collected := by
  simp only [bag, coe_map_concat, Multiset.cons_add, Multiset.add_cons]

theorem bag_calls_eraseIdx (h : calls[k]? = some (i, c)) :
    bag unsent assigned calls returned collected =
      .call c ::ₘ bag unsent assigned (calls.eraseIdx k) returned collected := by
  simp only [bag, coe_map_eraseIdx _ h, Multiset.cons_add, Multiset.add_cons]

theorem bag_calls_set (h : calls[k]? = some (i, c)) :
    bag unsent assigned (calls.set k (i, d)) returned collected =
      .call d ::ₘ bag unsent assigned (calls.eraseIdx k) returned collected := by
  simp only [bag, coe_map_set _ h, Multiset.cons_add, Multiset.add_cons]

theorem bag_returned_concat : bag unsent assigned calls (returned ++ [task]) collected =
    .returned task ::ₘ bag unsent assigned calls returned collected := by
  simp only [bag, coe_map_concat, Multiset.cons_add, Multiset.add_cons]

theorem bag_returned_eraseIdx (h : returned[k]? = some task) :
    bag unsent assigned calls returned collected =
      .returned task ::ₘ bag unsent assigned calls (returned.eraseIdx k) collected := by
  simp only [bag, coe_map_eraseIdx _ h, Multiset.cons_add, Multiset.add_cons]

theorem bag_collected_concat : bag unsent assigned calls returned (collected ++ [task]) =
    .collected task ::ₘ bag unsent assigned calls returned collected := by
  simp only [bag, coe_map_concat, Multiset.add_cons]

end Bag

def State.pieces (future : ε → List τ) (s : State P) : Multiset (Piece τ) :=
  bag (future s.emitter) s.assigned s.calls s.returned s.collected

/-- How a step from `s` to `t` changes the piece it moves. -/
inductive Turn (s t : State P) : Piece τ → Piece τ → Prop where
  | send {task : τ} (hm : t.memory = s.memory) : Turn s t (.unsent task) (.assigned task)
  | call {task : τ} (hm : t.memory = s.memory) :
      Turn s t (.assigned task) (.call (.mark task (P.svc s.memory.heap task)))
  | mark {task : τ} {m m' : Marking} (hm : m.step P.overlay s.memory = some (t.memory, m')) :
      Turn s t (.call (.mark task m)) (.call (.mark task m'))
  | testStamp {task : τ} {m : Marking} (hm : t.memory = s.memory) (hd : m.todo = []) :
      Turn s t (.call (.mark task m)) (.call (.stamp task))
  | testReturn {task : τ} {m : Marking} (hm : t.memory = s.memory) (hd : m.todo = []) :
      Turn s t (.call (.mark task m)) (.returned task)
  | stamp {task : τ} (hm : t.memory = s.memory) :
      Turn s t (.call (.stamp task)) (.call (.bump task))
  | bump {task : τ} (hm : t.memory = s.memory) : Turn s t (.call (.bump task)) (.returned task)
  | collect {task : τ} (hm : t.memory = s.memory) : Turn s t (.returned task) (.collected task)

variable {future : ε → List τ} {fuel : ε → ℕ}

-- Every step but those in which the emitter sends nothing replaces one piece.
theorem Step.pieces (L : P.Lawful future fuel) {s t : State P}
    (hdims : SameDims P.copies s.memory.heap) (h : Step s t) :
    (t.pieces future = s.pieces future ∧ t.memory = s.memory ∧
        fuel t.emitter < fuel s.emitter) ∨
      (Replaces (Turn s t) (s.pieces future) (t.pieces future) ∧
        fuel t.emitter ≤ fuel s.emitter) := by
  cases h with
  | @skip emitter he =>
      obtain ⟨hfuture, hfuel⟩ := L.skip _ _ _ hdims he
      refine Or.inl ⟨?_, rfl, hfuel⟩
      unfold State.pieces
      rw [hfuture]
  | @send i task emitter he =>
      obtain ⟨hfuture, hfuel⟩ := L.send _ _ _ _ hdims he
      refine Or.inr ⟨⟨_, _, _, ?_, bag_assigned_concat, .send rfl⟩, hfuel⟩
      unfold State.pieces
      rw [hfuture]
      exact bag_unsent_cons
  | call hk =>
      exact Or.inr ⟨⟨_, _, _, bag_assigned_eraseIdx hk, bag_calls_concat, .call rfl⟩, Nat.le_refl _⟩
  | mark hk hm =>
      exact Or.inr ⟨⟨_, _, _, bag_calls_eraseIdx hk, bag_calls_set hk, .mark hm⟩, Nat.le_refl _⟩
  | testStamp hk hm hc =>
      apply Or.inr
      exact ⟨⟨_, _, _, bag_calls_eraseIdx hk, bag_calls_set hk, .testStamp rfl hm⟩, Nat.le_refl _⟩
  | testReturn hk hm hc =>
      apply Or.inr
      exact ⟨⟨_, _, _, bag_calls_eraseIdx hk, bag_returned_concat, .testReturn rfl hm⟩,
        Nat.le_refl _⟩
  | stamp hk =>
      exact Or.inr ⟨⟨_, _, _, bag_calls_eraseIdx hk, bag_calls_set hk, .stamp rfl⟩, Nat.le_refl _⟩
  | bump hk =>
      apply Or.inr
      exact ⟨⟨_, _, _, bag_calls_eraseIdx hk, bag_returned_concat, .bump rfl⟩, Nat.le_refl _⟩
  | collect hk =>
      apply Or.inr
      exact ⟨⟨_, _, _, bag_returned_eraseIdx hk, bag_collected_concat, .collect rfl⟩, Nat.le_refl _⟩

/-! ## What a step keeps -/

namespace Turn

variable {s t : State P} {a b : Piece τ}

theorem task_eq (h : Turn s t a b) : b.task = a.task := by
  cases h <;> rfl

theorem onPhoto (L : P.Lawful future fuel) (hdims : SameDims P.copies s.memory.heap)
    (h : Turn s t a b) (ha : a.OnPhoto P) : b.OnPhoto P := by
  cases h with
  | @call task hm =>
      change (P.svc s.memory.heap task).photo = _
      rw [L.svc_congr _ _ hdims]
  | @mark task m m' hm =>
      change m'.photo = _
      rw [Marking.step_photo hm]
      exact ha
  | _ => trivial

theorem measure_lt (L : P.Lawful future fuel) (hdims : SameDims P.copies s.memory.heap)
    (h : Turn s t a b) : b.measure P < a.measure P := by
  cases h with
  | @call task hm =>
      change (P.svc s.memory.heap task).fuel + 4 < (P.svc (loadHeap P.copies) task).fuel + 5
      rw [L.svc_congr _ _ hdims]
      omega
  | @mark task m m' hm =>
      have hfuel := Marking.fuel_step hm
      change m'.fuel + 4 < m.fuel + 4
      omega
  | _ => simp only [Piece.measure]; omega

-- Only a step of a marking loop touches the photos, and it makes the visit it is charged.
theorem memoryInv (L : P.Lawful future fuel) {target : ℕ → CImg} {cells : Multiset (ℕ × Pixel)}
    {rest : Multiset ((ℕ × Pixel) × Visit)} (h : Turn s t a b)
    (hinv : MemoryInv P.overlay (loadHeap P.copies) target cells s.memory (a.work P + rest)) :
    MemoryInv P.overlay (loadHeap P.copies) target cells t.memory (b.work P + rest) := by
  cases h with
  | send hm =>
      rw [hm]
      exact hinv
  | @call task hm =>
      have hwork : (Piece.call (.mark task (P.svc s.memory.heap task))).work P =
          (Piece.assigned task).work P := by
        change (P.svc s.memory.heap task).work = (P.svc (loadHeap P.copies) task).work
        rw [L.svc_congr _ _ hinv.dims]
      rw [hm, hwork]
      exact hinv
  | mark hm => exact hinv.step hm
  | @testStamp task m hm hd =>
      have hwork : (Piece.call (.mark task m)).work P = 0 := by
        simp only [Piece.work, Marking.work, hd]
      rw [hwork] at hinv
      rw [hm]
      exact hinv
  | @testReturn task m hm hd =>
      have hwork : (Piece.call (.mark task m)).work P = 0 := by
        simp only [Piece.work, Marking.work, hd]
      rw [hwork] at hinv
      rw [hm]
      exact hinv
  | stamp hm =>
      rw [hm]
      exact hinv
  | bump hm =>
      rw [hm]
      exact hinv
  | collect hm =>
      rw [hm]
      exact hinv

end Turn

/-- What sequential.cpp makes of the photos. -/
def Program.sequential (P : Program τ ε γ) (k : ℕ) : CImg :=
  markingLoop P.overlay (loadHeap P.copies k)

namespace State

/-- The visits that are still to be made. -/
def work (future : ε → List τ) (s : State P) : Multiset ((ℕ × Pixel) × Visit) :=
  ((s.pieces future).map (Piece.work P)).sum

structure Inv (future : ε → List τ) (s : State P) : Prop where
  tasks : (s.pieces future).map Piece.task = ↑(future P.emitter)
  onPhoto : ∀ a ∈ s.pieces future, a.OnPhoto P
  memory : MemoryInv P.overlay (loadHeap P.copies) P.sequential
    ((allVisits (loadHeap P.copies) P.copies.length).map Prod.fst) s.memory (s.work future)

end State

theorem pieces_init (future : ε → List τ) :
    (system P).init.pieces future = ↑((future P.emitter).map Piece.unsent) :=
  add_zero _

theorem inv_init (L : P.Lawful future fuel) : (system P).init.Inv future := by
  refine ⟨?_, fun a ha => ?_, ?_⟩
  · rw [pieces_init, Multiset.map_coe, List.map_map]
    exact congrArg _ (List.map_id _)
  · rw [pieces_init, Multiset.mem_coe] at ha
    obtain ⟨task, _, rfl⟩ := List.mem_map.mp ha
    trivial
  · have hwork : (system P).init.work future =
        allVisits (loadHeap P.copies) P.copies.length := by
      rw [State.work, pieces_init, Multiset.map_coe, List.map_map, Multiset.sum_coe, ← L.covers]
      rfl
    rw [hwork]
    exact MemoryInv.load P.overlay P.copies

theorem inv_step (L : P.Lawful future fuel) {s t : State P} (h : s.Inv future) (hs : Step s t) :
    t.Inv future := by
  rcases hs.pieces L h.memory.dims with ⟨hpieces, hm, _⟩ | ⟨hrep, _⟩
  · have hwork : t.work future = s.work future := by
      unfold State.work
      rw [hpieces]
    exact ⟨hpieces ▸ h.tasks, hpieces ▸ h.onPhoto, hwork ▸ hm ▸ h.memory⟩
  · refine ⟨?_, ?_, ?_⟩
    · rw [hrep.map_eq fun a b hturn => hturn.task_eq]
      exact h.tasks
    · exact hrep.forall_mem (fun a b hturn => hturn.onPhoto L h.memory.dims) h.onPhoto
    · obtain ⟨a, b, rest, ha, hb, hturn⟩ := hrep
      have hmem := h.memory
      unfold State.work at hmem ⊢
      rw [ha, Multiset.map_cons, Multiset.sum_cons] at hmem
      rw [hb, Multiset.map_cons, Multiset.sum_cons]
      exact hturn.memoryInv L hmem

theorem inv (L : P.Lawful future fuel) {s : State P} (hs : (system P).Reachable s) :
    s.Inv future :=
  step_invariant (inv_init L) (fun _ _ h hstep => inv_step L h hstep) hs

-- The collector has been called on the tasks of the history, one after the other.
theorem collector_eq {s : State P} (hs : (system P).Reachable s) :
    s.collector = s.collected.foldl P.collect P.collector := by
  refine step_invariant (I := fun s => s.collector = s.collected.foldl P.collect P.collector)
    rfl (fun s t ih h => ?_) hs
  cases h with
  | collect hk =>
      rw [List.foldl_append, ← ih]
      rfl
  | _ => exact ih

/-! ## Photos without pending tasks -/

namespace State

/-- The tasks the collector has not received. -/
def pending (future : ε → List τ) (s : State P) : Multiset τ :=
  (bag (future s.emitter) s.assigned s.calls s.returned []).map Piece.task

end State

theorem pieces_eq (future : ε → List τ) (s : State P) :
    s.pieces future = bag (future s.emitter) s.assigned s.calls s.returned [] +
      ↑(s.collected.map Piece.collected) := by
  simp only [State.pieces, bag, List.map_nil, Multiset.coe_nil, add_zero, add_assoc]

theorem Piece.work_collected (l : List τ) :
    ((↑(l.map Piece.collected) : Multiset (Piece τ)).map (Piece.work P)).sum = 0 := by
  induction l with
  | nil => rfl
  | cons task l ih =>
      rw [List.map_cons, ← Multiset.cons_coe, Multiset.map_cons, Multiset.sum_cons, ih]
      rfl

theorem Piece.photo_of_mem_work {a : Piece τ} (ha : a.OnPhoto P) {e : (ℕ × Pixel) × Visit}
    (he : e ∈ a.work P) : e.1.1 = (P.svc (loadHeap P.copies) a.task).photo := by
  cases a with
  | unsent task => exact Marking.work_photo he
  | assigned task => exact Marking.work_photo he
  | call c =>
      cases c with
      | mark task t => exact (Marking.work_photo he).trans ha
      | _ => exact absurd he (Multiset.notMem_zero e)
  | _ => exact absurd he (Multiset.notMem_zero e)

-- The tasks are those of the emitter, some pending and the others collected.
theorem pending_add_collected (L : P.Lawful future fuel) {s : State P}
    (hs : (system P).Reachable s) :
    s.pending future + ↑s.collected = (↑(future P.emitter) : Multiset τ) := by
  have htasks := (inv L hs).tasks
  rw [pieces_eq, Multiset.map_add, Multiset.map_coe, List.map_map] at htasks
  rw [← htasks, State.pending]
  congr 1
  exact congrArg _ (List.map_id _).symm

-- A photo that no pending task works on is not going to be touched.
theorem photo_of_mem_work (L : P.Lawful future fuel) {s : State P} (hs : (system P).Reachable s)
    {e : (ℕ × Pixel) × Visit} (he : e ∈ s.work future) :
    ∃ task ∈ s.pending future, e.1.1 = (P.svc (loadHeap P.copies) task).photo := by
  unfold State.work at he
  rw [pieces_eq, Multiset.map_add, Multiset.sum_add, Piece.work_collected, add_zero] at he
  have hbind : e ∈ (bag (future s.emitter) s.assigned s.calls s.returned []).bind (Piece.work P) :=
    he
  obtain ⟨a, ha, hea⟩ := Multiset.mem_bind.mp hbind
  have hpiece : a ∈ s.pieces future := by
    rw [pieces_eq]
    exact Multiset.mem_add.mpr (Or.inl ha)
  refine ⟨a.task, Multiset.mem_map_of_mem _ ha, ?_⟩
  exact Piece.photo_of_mem_work ((inv L hs).onPhoto a hpiece) hea

/-! ## The measure -/

def State.measure (future : ε → List τ) (fuel : ε → ℕ) (s : State P) : ℕ :=
  fuel s.emitter + ((s.pieces future).map (Piece.measure P)).sum

theorem measure_step (L : P.Lawful future fuel) {s t : State P} {a : Action P.threads}
    (hs : (system P).Reachable s) (h : (system P).step s a = some t) :
    t.measure future fuel < s.measure future fuel := by
  have hdims := (inv L hs).memory.dims
  unfold State.measure
  rcases (step_cases h).pieces L hdims with ⟨hpieces, _, hfuel⟩ | ⟨hrep, hfuel⟩
  · rw [hpieces]
    omega
  · have hlt := hrep.sum_lt (μ := Piece.measure P) fun a b hturn => hturn.measure_lt L hdims
    omega

theorem no_infinite_run (L : P.Lawful future fuel) (r : (system P).InfiniteRun) : False :=
  r.absurd fun _ _ _ hs h => measure_step L hs h

theorem finished_of_stuck (hn : 0 < P.threads) {s : State P} (h : (system P).Stuck s) :
    s.Finished := by
  by_contra hs
  obtain ⟨a, ha⟩ := progress hn hs
  exact h.not_enabled a ha

/-! ## The end -/

theorem pending_of_finished (L : P.Lawful future fuel) {s : State P} (h : s.Finished) :
    s.pending future = 0 := by
  obtain ⟨he, ha, hc, hr⟩ := h
  unfold State.pending
  rw [L.stop _ _ he, ha, hc, hr]
  rfl

-- At the end the collector has received every task once,
theorem collected_of_finished (L : P.Lawful future fuel) {s : State P}
    (hs : (system P).Reachable s) (h : s.Finished) : s.collected.Perm (future P.emitter) := by
  have htasks := pending_add_collected L hs
  rw [pending_of_finished L h, zero_add] at htasks
  exact Multiset.coe_eq_coe.mp htasks

-- and the photos are marked.
theorem heap_of_finished (L : P.Lawful future fuel) {s : State P} (hs : (system P).Reachable s)
    (h : s.Finished) : s.memory.heap = P.sequential := by
  funext k
  refine (inv L hs).memory.heap_eq fun e he => ?_
  obtain ⟨task, htask, _⟩ := photo_of_mem_work L hs he
  rw [pending_of_finished L h] at htask
  exact absurd htask (Multiset.notMem_zero task)

end Watermark.FastFlow
