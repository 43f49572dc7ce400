import Watermark.Map.Model
import Watermark.Reasoning.Tokens

/-!
# Invariant — the lanes of map.cpp

Lane `i` is the way of the parts with number `i`, from scatter's loops through both queues and the
worker to the collector.  What the collector has popped from a lane, followed by everything that
is still on its way, is always the whole lane: one part of each photo, in the order of `photos`,
and one end-of-stream mark.
-/

namespace Watermark.Map

open Function Reasoning

variable {cfg : Config}

/-- The part with number `i` of the photo `ii`. -/
def Config.part (cfg : Config) (i : ℕ) (ii : Image) : Image :=
  ii.part (balancedPart (loadHeap cfg.copies ii.P_Pointer).height cfg.threads i)

/-- The parts that take lane `i`. -/
def Config.lane (cfg : Config) (i : ℕ) : List Image := cfg.photos.map (cfg.part i)

/-- What a worker has popped and not pushed yet. -/
def Worker.hand : Worker → List (Option Image)
  | .mark ii _ => [some ii]
  | .pushEos => [none]
  | _ => []

/-- What scatter has still to push into queue `i`. -/
def Scatter.future (cfg : Config) (i : ℕ) : Scatter → List (Option Image)
  | .photos left => stream (left.map (cfg.part i)) 1
  | .parts ii left v =>
    (if v.i ≤ i then [some (cfg.part i ii)] else []) ++ stream (left.map (cfg.part i)) 1
  | .eos m => if m ≤ i then [none] else []
  | .divided => []

namespace State

/-- What worker `i` has not popped. -/
def inbound (s : State cfg) (i : Fin cfg.threads) : List (Option Image) :=
  (s.Scatter_to_worker i).contents ++ s.scatter.future cfg i

/-- What the collector has not popped from lane `i`. -/
def rest (s : State cfg) (i : Fin cfg.threads) : List (Option Image) :=
  (s.worker_to_collecter i).contents ++ (s.workers i).hand ++ s.inbound i

end State

theorem step_invariant {P : State cfg → Prop} (h0 : P (system cfg).init)
    (hsc : ∀ s t, (system cfg).Reachable s → P s → ScatterStep s t → P t)
    (hw : ∀ s id ms t, (system cfg).Reachable s → P s → WorkerStep s id ms t → P t)
    (hc : ∀ s t, (system cfg).Reachable s → P s → CollectorStep s t → P t)
    {s : State cfg} (hs : (system cfg).Reachable s) : P s := by
  refine hs.invariant h0 fun s a t hr hp ha => ?_
  cases a with
  | scatter => exact hsc s t hr hp (scatterStep_cases ha)
  | worker id ms => exact hw s id ms t hr hp (workerStep_cases ha)
  | collector => exact hc s t hr hp (collectorStep_cases ha)

/-! ## Dimensions -/

/-- The photos have the dimensions they were loaded with. -/
def State.DimsInv (s : State cfg) : Prop :=
  ∀ k, (s.memory.heap k).width = (loadHeap cfg.copies k).width ∧
    (s.memory.heap k).height = (loadHeap cfg.copies k).height

theorem dims {s : State cfg} (hs : (system cfg).Reachable s) : s.DimsInv := by
  refine step_invariant ?_ ?_ ?_ ?_ hs
  · exact fun k => ⟨rfl, rfl⟩
  · intro s t _ ih h
    cases h <;> exact ih
  · intro s id ms t _ ih h
    cases h with
    | mark hw ht =>
        intro k
        obtain ⟨hwidth, hheight, _⟩ := Marking.step_dims ht k
        exact ⟨hwidth.trans (ih k).1, hheight.trans (ih k).2⟩
    | _ => exact ih
  · intro s t _ ih h
    cases h with
    | @take i ii q hp hq => cases ii <;> exact ih
    | _ => exact ih

/-! ## Scatter -/

/-- In the inner loop the variables are those of the closed form. -/
def State.ScatterInv (s : State cfg) : Prop :=
  match s.scatter with
  | .parts ii _ v =>
    0 < cfg.threads ∧ v = PartLoop.closed (loadHeap cfg.copies ii.P_Pointer).height cfg.threads v.i
  | .divided => cfg.number_workers = 0
  | _ => True

theorem number_workers_eq (hn : 0 < cfg.threads) : cfg.number_workers = (cfg.threads : ℤ) := by
  unfold Config.threads at hn ⊢
  omega

theorem number_workers_nonneg (hn : 0 < cfg.threads) : 0 ≤ cfg.number_workers := by
  rw [number_workers_eq hn]
  exact Int.natCast_nonneg _

-- `main` does not get to scatter with a negative number of workers.
theorem scatterInv (hneg : 0 ≤ cfg.number_workers) {s : State cfg}
    (hs : (system cfg).Reachable s) : s.ScatterInv := by
  refine step_invariant trivial (fun s t hr ih h => ?_) (fun s id ms t _ ih h => ?_)
    (fun s t _ ih h => ?_) hs
  · cases h with
    | last hs => trivial
    | divide hs hn => exact hn
    | @enter ii left hs hn =>
        have hpos : 0 < cfg.threads := by
          unfold Config.threads
          omega
        refine ⟨hpos, ?_⟩
        rw [(dims hr ii.P_Pointer).2, number_workers_eq hpos, PartLoop.enter_closed]
        rfl
    | part hs h =>
        unfold State.ScatterInv at ih
        rw [hs] at ih
        obtain ⟨hpos, hv⟩ := ih
        refine ⟨hpos, ?_⟩
        rw [hv, PartLoop.body_closed]
        rfl
    | leave hs h => trivial
    | eos hs h => trivial
  · cases h <;> exact ih
  · cases h with
    | @take i ii q hp hq => cases ii <;> exact ih
    | _ => exact ih

/-! ## Lanes -/

-- Scatter moves what it pushes from its own loops into the queue.
theorem inbound_scatterStep (hneg : 0 ≤ cfg.number_workers) {s t : State cfg}
    (hs : (system cfg).Reachable s) (h : ScatterStep s t) (i : Fin cfg.threads) :
    t.inbound i = s.inbound i := by
  have hsc := scatterInv hneg hs
  have hi := i.isLt
  unfold State.ScatterInv at hsc
  unfold State.inbound
  cases h with
  | last hs =>
      simp only [State.setScatter, hs, Scatter.future, List.map_nil, Nat.zero_le, if_true]
      rfl
  | divide hs hn =>
      -- there is no lane
      have h0 : cfg.threads = 0 := by
        unfold Config.threads
        rw [hn]
        rfl
      omega
  | enter hs hn =>
      simp only [State.setScatter, hs, Scatter.future, PartLoop.enter, Nat.zero_le, if_true,
        List.map_cons]
      rfl
  | @part ii left v hs h =>
      rw [hs] at hsc
      obtain ⟨_, hv⟩ := hsc
      have hpart : v.body.1 =
          balancedPart (loadHeap cfg.copies ii.P_Pointer).height cfg.threads v.i := by
        rw [hv, PartLoop.body_closed]
        rfl
      have hnext : v.body.2.i = v.i + 1 := rfl
      simp only [State.setScatter, State.send, hs, Scatter.future, hnext, hpart]
      by_cases hiv : i = ⟨v.i, h⟩
      · subst hiv
        rw [update_self, Queue.contents_push, if_pos (Nat.le_refl v.i),
          if_neg (Nat.not_succ_le_self v.i)]
        simp only [List.append_assoc, List.nil_append, Config.part]
      · have hne : (i : ℕ) ≠ v.i := fun heq => hiv (Fin.ext heq)
        have hle : v.i + 1 ≤ i ↔ v.i ≤ i := by omega
        rw [update_of_ne hiv]
        simp only [hle]
  | @leave ii left v hs h =>
      have hle : ¬v.i ≤ i := by omega
      simp only [State.setScatter, hs, Scatter.future, hle, if_false, List.nil_append]
  | @eos m hs h =>
      simp only [State.setScatter, State.send, hs, Scatter.future]
      by_cases him : i = ⟨m, h⟩
      · subst him
        rw [update_self, Queue.contents_push, if_pos (Nat.le_refl m),
          if_neg (Nat.not_succ_le_self m), List.append_nil]
      · have hne : (i : ℕ) ≠ m := fun heq => him (Fin.ext heq)
        have hle : m + 1 ≤ i ↔ m ≤ i := by omega
        rw [update_of_ne him]
        simp only [hle]

theorem rest_scatterStep (hneg : 0 ≤ cfg.number_workers) {s t : State cfg}
    (hs : (system cfg).Reachable s) (h : ScatterStep s t) (i : Fin cfg.threads) :
    t.rest i = s.rest i := by
  have hsame : t.worker_to_collecter = s.worker_to_collecter ∧ t.workers = s.workers := by
    cases h <;> exact ⟨rfl, rfl⟩
  unfold State.rest
  rw [inbound_scatterStep hneg hs h, hsame.1, hsame.2]

-- A worker moves parts along its lane.
theorem rest_workerStep {s t : State cfg} {id : Fin cfg.threads} {ms : ℤ}
    (h : WorkerStep s id ms t) (i : Fin cfg.threads) : t.rest i = s.rest i := by
  by_cases hi : i = id
  · subst hi
    cases h with
    | popPart hw hq => simp [State.rest, State.inbound, State.setWorker, hw, hq, Worker.hand]
    | popEos hw hq => simp [State.rest, State.inbound, State.setWorker, hw, hq, Worker.hand]
    | mark hw ht => simp [State.rest, State.inbound, State.setWorker, hw, Worker.hand]
    | push hw ht =>
        simp [State.rest, State.inbound, State.setWorker, State.forward, hw, Worker.hand]
    | test hw h =>
        rcases h with rfl | rfl <;>
          simp [State.rest, State.inbound, State.setWorker, hw, Worker.hand]
    | stamp hw => simp [State.rest, State.inbound, State.setWorker, hw, Worker.hand]
    | bump hw => simp [State.rest, State.inbound, State.setWorker, hw, Worker.hand]
    | pushEos hw =>
        simp [State.rest, State.inbound, State.setWorker, State.forward, hw, Worker.hand]
  · cases h <;>
      simp only [State.rest, State.inbound, State.setWorker, State.forward, update_of_ne hi]

theorem popped_scatterStep {s t : State cfg} (h : ScatterStep s t) : t.popped = s.popped := by
  cases h <;> rfl

theorem popped_workerStep {s t : State cfg} {id : Fin cfg.threads} {ms : ℤ}
    (h : WorkerStep s id ms t) : t.popped = s.popped := by
  cases h <;> rfl

theorem popped_collect (s : State cfg) (i : Fin cfg.threads) (ii : Option Image) :
    (s.collect i ii).popped = s.popped := by
  cases ii <;> rfl

theorem rest_collect (s : State cfg) (i : Fin cfg.threads) (ii : Option Image) :
    (s.collect i ii).rest = s.rest := by
  cases ii <;> rfl

-- The collector takes the head of the lane it pops from.
theorem rest_received {s : State cfg} {i : Fin cfg.threads} {ii : Option Image}
    {q : Queue (Option Image)} (hq : (s.worker_to_collecter i).contents = ii :: q.contents) :
    s.rest i = ii :: (s.received i ii q).rest i := by
  simp [State.rest, State.inbound, State.received, hq]

theorem rest_received_ne {s : State cfg} {i j : Fin cfg.threads} (hj : j ≠ i) (ii : Option Image)
    (q : Queue (Option Image)) : (s.received i ii q).rest j = s.rest j := by
  simp [State.rest, State.inbound, State.received, update_of_ne hj]

/-- Nothing is lost on a lane, nothing doubled, and nothing overtaken. -/
def State.LaneInv (s : State cfg) : Prop :=
  ∀ i, s.popped i ++ s.rest i = stream (cfg.lane i) 1

theorem laneInv (hneg : 0 ≤ cfg.number_workers) {s : State cfg} (hs : (system cfg).Reachable s) :
    s.LaneInv := by
  refine step_invariant ?_ ?_ ?_ ?_ hs
  · exact fun i => rfl
  · intro s t hr ih h i
    rw [popped_scatterStep h, rest_scatterStep hneg hr h]
    exact ih i
  · intro s id ms t _ ih h i
    rw [popped_workerStep h, rest_workerStep h]
    exact ih i
  · intro s t _ ih h j
    cases h with
    | skip hp hq => exact ih j
    | found hp hq => exact ih j
    | @take i ii q hp hq =>
        rw [popped_collect, rest_collect]
        by_cases hj : j = i
        · subst hj
          have hlane := ih j
          rw [rest_received hq] at hlane
          simpa [State.received] using hlane
        · rw [rest_received_ne hj]
          simpa [State.received, update_of_ne hj] using ih j

def Worker.passed : Worker → ℕ
  | .returned => 1
  | _ => 0

/-- A worker has returned when its mark is behind it. -/
def State.PassedInv (s : State cfg) : Prop :=
  ∀ i, marks (s.popped i ++ (s.worker_to_collecter i).contents) = (s.workers i).passed

theorem passedInv {s : State cfg} (hs : (system cfg).Reachable s) : s.PassedInv := by
  refine step_invariant ?_ ?_ ?_ ?_ hs
  · exact fun i => rfl
  · intro s t _ ih h i
    cases h <;> exact ih i
  · intro s id ms t _ ih h i
    by_cases hi : i = id
    · subst hi
      have hlane := ih i
      cases h with
      | popPart hw hq => simpa [State.setWorker, hw, Worker.passed] using hlane
      | popEos hw hq => simpa [State.setWorker, hw, Worker.passed] using hlane
      | mark hw ht => simpa [State.setWorker, hw, Worker.passed] using hlane
      | push hw ht => simpa [State.setWorker, State.forward, hw, Worker.passed] using hlane
      | test hw h =>
          rcases h with rfl | rfl <;> simpa [State.setWorker, hw, Worker.passed] using hlane
      | stamp hw => simpa [State.setWorker, hw, Worker.passed] using hlane
      | bump hw => simpa [State.setWorker, hw, Worker.passed] using hlane
      | pushEos hw =>
          rw [hw, marks_append] at hlane
          simp only [State.setWorker, State.forward, update_self, Queue.contents_push,
            marks_append, marks_none, marks_nil, Worker.passed] at hlane ⊢
          omega
    · cases h <;> simpa only [State.setWorker, State.forward, update_of_ne hi] using ih i
  · intro s t _ ih h j
    cases h with
    | skip hp hq => exact ih j
    | found hp hq => exact ih j
    | @take i ii q hp hq =>
        have hlane := ih j
        by_cases hj : j = i
        · subst hj
          rw [hq] at hlane
          cases ii <;> simpa [State.received, State.collect] using hlane
        · cases ii <;> simpa [State.received, State.collect, update_of_ne hj] using hlane

/-! ## What the lanes say when they are empty -/

-- The mark is the last thing on a lane.
theorem rest_eq_nil_iff (hneg : 0 ≤ cfg.number_workers) {s : State cfg}
    (hs : (system cfg).Reachable s) (i : Fin cfg.threads) :
    s.rest i = [] ↔ marks (s.popped i) = 1 := by
  have hlane := laneInv hneg hs i
  have hmarks := congrArg marks hlane
  rw [marks_append, marks_stream] at hmarks
  constructor
  · intro hr
    rwa [hr, marks_nil, Nat.add_zero] at hmarks
  · intro hm
    exact suffix_eq_nil Nat.one_pos hlane (by omega)

theorem marks_popped_le (hneg : 0 ≤ cfg.number_workers) {s : State cfg}
    (hs : (system cfg).Reachable s) (i : Fin cfg.threads) : marks (s.popped i) ≤ 1 := by
  have hmarks := congrArg marks (laneInv hneg hs i)
  rw [marks_append, marks_stream] at hmarks
  omega

end Watermark.Map
