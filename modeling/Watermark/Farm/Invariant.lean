import Watermark.Farm.Model
import Watermark.Reasoning.Pipeline

/-!
# Invariant — the farm as a pipeline, and its photos in memory

`State.pipeline` forgets everything about the farm but where its photos and end-of-stream marks
are; each step of a thread is a step of the pipeline or leaves it alone.  The second half follows
the buffers of the photos.
-/

namespace Watermark.Farm

open Function Reasoning

variable {cfg : Config}

/-! ## Simulation by the pipeline -/

def Worker.hand : Worker → Hand Image
  | .count q => .holds q
  | .mark q _ => .holds q
  | .pushEos => .ending
  | .returned => .gone
  -- before the next `pop`
  | _ => .idle

namespace State

/-- What the emitter has not pushed yet. -/
def unsent (s : State cfg) : List (Option Image) :=
  s.emitter.photos.map some ++ List.replicate (cfg.threads - s.emitter.i) none

def pipeline (s : State cfg) : Pipeline (Fin cfg.threads) Image where
  rest := s.original_photos.contents ++ s.unsent
  taken := s.taken
  hands i := (s.workers i).hand
  output := s.marked_photos.contents
  done := s.Photos_Done
  count := s.collector.count

end State

theorem pipeline_init : (system cfg).init.pipeline =
    Pipeline.start cfg.photos (Fintype.card (Fin cfg.threads)) := by
  rw [Fintype.card_fin]
  rfl

-- The emitter only moves the head of what it has left into the queue.
theorem pipeline_emitterStep {s t : State cfg} (h : EmitterStep s t) : t.pipeline = s.pipeline := by
  have hrest : t.original_photos.contents ++ t.unsent =
      s.original_photos.contents ++ s.unsent := by
    cases h with
    | photo hp => simp [State.unsent, hp]
    | eos hp hi =>
        have hn : cfg.threads - s.emitter.i = (cfg.threads - (s.emitter.i + 1)) + 1 := by omega
        simp only [State.unsent, hp, Queue.contents_push, List.map_nil, List.nil_append, hn,
          List.replicate_succ, List.append_assoc, List.singleton_append]
  cases h with
  | photo hp => simp only [State.pipeline, ← hrest]
  | eos hp hi => simp only [State.pipeline, ← hrest]

theorem pipeline_setWorker (s : State cfg) (i : Fin cfg.threads) (w : Worker) :
    (s.setWorker i w).pipeline = { s.pipeline with
      hands := update s.pipeline.hands i w.hand } := by
  have hhands : (fun j => (update s.workers i w j).hand) = update s.pipeline.hands i w.hand := by
    funext j
    exact apply_update (fun _ => Worker.hand) s.workers i w j
  rw [← hhands]
  rfl

-- A statement between two queue operations does not show in the pipeline.
theorem pipeline_setWorker_eq {s : State cfg} {i : Fin cfg.threads} {w : Worker}
    (h : w.hand = s.pipeline.hands i) : (s.setWorker i w).pipeline = s.pipeline := by
  rw [pipeline_setWorker, h, update_eq_self]

theorem pipeline_workerStep {s t : State cfg} {i : Fin cfg.threads} {ms : ℤ}
    (h : WorkerStep s i ms t) :
    t.pipeline = s.pipeline ∨ Pipeline.Step s.pipeline t.pipeline := by
  have hhand : s.pipeline.hands i = (s.workers i).hand := rfl
  cases h with
  | @popPhoto q original_photos hw hq =>
      rw [hw] at hhand
      have hr : s.pipeline.rest = some q :: (original_photos.contents ++ s.unsent) := by
        simp only [State.pipeline, hq, List.cons_append]
      apply Or.inr
      rw [pipeline_setWorker]
      exact .fetch hhand hr
  | @popEos original_photos hw hq =>
      rw [hw] at hhand
      have hr : s.pipeline.rest = none :: (original_photos.contents ++ s.unsent) := by
        simp only [State.pipeline, hq, List.cons_append]
      apply Or.inr
      rw [pipeline_setWorker]
      exact .fetchEos hhand hr
  | @push q m hw hm =>
      rw [hw] at hhand
      apply Or.inr
      rw [pipeline_setWorker]
      change Pipeline.Step s.pipeline { s.pipeline with
        output := (s.marked_photos.push (some q)).contents
        hands := update s.pipeline.hands i .idle }
      rw [Queue.contents_push]
      exact .deliver hhand
  | pushEos hw =>
      rw [hw] at hhand
      apply Or.inr
      rw [pipeline_setWorker]
      change Pipeline.Step s.pipeline { s.pipeline with
        output := (s.marked_photos.push none).contents
        hands := update s.pipeline.hands i .gone }
      rw [Queue.contents_push]
      exact .leave hhand
  -- what is left are the statements between two queue operations
  | count hw =>
      rw [hw] at hhand
      exact Or.inl (pipeline_setWorker_eq hhand.symm)
  | mark hw hm =>
      rw [hw] at hhand
      exact Or.inl (pipeline_setWorker_eq hhand.symm)
  | testStamp hw hc =>
      rw [hw] at hhand
      exact Or.inl (pipeline_setWorker_eq hhand.symm)
  | testPop hw hc =>
      rw [hw] at hhand
      exact Or.inl (pipeline_setWorker_eq hhand.symm)
  | stamp hw =>
      rw [hw] at hhand
      exact Or.inl (pipeline_setWorker_eq hhand.symm)
  | bump hw =>
      rw [hw] at hhand
      exact Or.inl (pipeline_setWorker_eq hhand.symm)

theorem pipeline_collectorStep {s t : State cfg} {ms : ℤ} (h : CollectorStep s ms t) :
    Pipeline.Step s.pipeline t.pipeline := by
  cases h with
  | photo hc hq => exact .collect hq
  | eos hc hq => exact .collectEos hq

-- The farm refines the pipeline.
theorem pipeline_step {s t : State cfg} {a : Action cfg.threads}
    (h : (system cfg).step s a = some t) :
    t.pipeline = s.pipeline ∨ Pipeline.Step s.pipeline t.pipeline := by
  cases a with
  | emitter => exact Or.inl (pipeline_emitterStep (emitterStep_cases h))
  | worker i ms => exact pipeline_workerStep (workerStep_cases h)
  | collector ms => exact Or.inr (pipeline_collectorStep (collectorStep_cases h))

theorem pipelineInv {s : State cfg} (hs : (system cfg).Reachable s) :
    s.pipeline.Inv cfg.photos := by
  let P : State cfg → Prop := fun s => s.pipeline.Inv cfg.photos
  refine (hs.invariant ?_ ?_ : P s)
  · change (system cfg).init.pipeline.Inv cfg.photos
    rw [pipeline_init]
    exact Pipeline.Inv.start cfg.photos
  · intro s a t _ hinv ha
    change t.pipeline.Inv cfg.photos
    rcases pipeline_step ha with heq | hstep
    · rwa [heq]
    · exact hinv.step hstep

/-! ## The buffers of the photos -/

/-- What the worker still has to do on the photo it holds. -/
def Worker.work (init : ℕ → CImg) : Worker → Multiset ((ℕ × Pixel) × Visit)
  | .count q => visits q.P_pointer (forXY (init q.P_pointer))
  | .mark _ t => t.work
  | _ => 0

namespace State

/-- What is to be done on the photos that no worker has popped. -/
def queuedWork (s : State cfg) : Multiset ((ℕ × Pixel) × Visit) :=
  ((items s.pipeline.rest).map fun q =>
    visits q.P_pointer (forXY (loadHeap cfg.copies q.P_pointer))).sum

def work (s : State cfg) : Multiset ((ℕ × Pixel) × Visit) :=
  s.queuedWork + ∑ i, (s.workers i).work (loadHeap cfg.copies)

/-- The work of all but worker `i`. -/
def otherWork (s : State cfg) (i : Fin cfg.threads) : Multiset ((ℕ × Pixel) × Visit) :=
  s.queuedWork + ∑ j ∈ Finset.univ.erase i, (s.workers j).work (loadHeap cfg.copies)

end State

theorem work_split (s : State cfg) (i : Fin cfg.threads) :
    s.work = (s.workers i).work (loadHeap cfg.copies) + s.otherWork i := by
  unfold State.work State.otherWork
  rw [sum_split (Worker.work (loadHeap cfg.copies)) s.workers i]
  exact add_left_comm _ _ _

theorem work_setWorker (s : State cfg) (i : Fin cfg.threads) (w : Worker) :
    (s.setWorker i w).work = w.work (loadHeap cfg.copies) + s.otherWork i := by
  change s.queuedWork + ∑ j, (update s.workers i w j).work (loadHeap cfg.copies) = _
  unfold State.otherWork
  rw [sum_update_split (Worker.work (loadHeap cfg.copies)) s.workers i w]
  exact add_left_comm _ _ _

/-- What sequential.cpp makes of the photos. -/
def Config.sequential (cfg : Config) (k : ℕ) : CImg :=
  markingLoop cfg.overlay (loadHeap cfg.copies k)

def State.BufferInv (s : State cfg) : Prop :=
  MemoryInv cfg.overlay (loadHeap cfg.copies) cfg.sequential
    ((allVisits (loadHeap cfg.copies) cfg.copies.length).map Prod.fst) s.memory s.work

theorem bufferInv_init : (system cfg).init.BufferInv := by
  have hwork : (system cfg).init.work = allVisits (loadHeap cfg.copies) cfg.copies.length := by
    unfold State.work State.queuedWork allVisits
    rw [pipeline_init]
    simp only [Pipeline.start, items_stream, Config.photos, List.map_map]
    change _ + ∑ _i : Fin cfg.threads, (0 : Multiset ((ℕ × Pixel) × Visit)) = _
    rw [Finset.sum_const_zero, add_zero]
    rfl
  unfold State.BufferInv
  rw [hwork]
  exact MemoryInv.load cfg.overlay cfg.copies

-- A worker whose remaining work stays the same while the memory does.
theorem bufferInv_setWorker {s : State cfg} {i : Fin cfg.threads} {w : Worker} (h : s.BufferInv)
    (hwork : w.work (loadHeap cfg.copies) = (s.workers i).work (loadHeap cfg.copies)) :
    (s.setWorker i w).BufferInv := by
  unfold State.BufferInv
  rw [work_setWorker, hwork, ← work_split]
  exact h

theorem bufferInv_workerStep {s t : State cfg} {i : Fin cfg.threads} {ms : ℤ} (h : s.BufferInv)
    (hs : WorkerStep s i ms t) : t.BufferInv := by
  cases hs with
  | @popPhoto q original_photos hw hq =>
      have hqueued : s.queuedWork = visits q.P_pointer (forXY (loadHeap cfg.copies q.P_pointer)) +
          ({ s with
            original_photos, taken := update s.taken i (s.taken i ++ [some q]) } :
              State cfg).queuedWork := by
        simp only [State.queuedWork, State.pipeline, State.unsent, hq, List.cons_append, items_some,
          List.map_cons, List.sum_cons]
      -- the photo's pixels move from the queue to the worker
      have hwork : s.work = ({ s with
          original_photos, taken := update s.taken i (s.taken i ++ [some q]) }.setWorker i
            (.count q)).work := by
        rw [work_setWorker, work_split s i, hw]
        change 0 + (s.queuedWork + _) = _
        rw [hqueued, zero_add, add_assoc]
        rfl
      unfold State.BufferInv
      rw [← hwork]
      exact h
  | @popEos original_photos hw hq =>
      have hqueued : s.queuedWork = ({ s with
          original_photos, taken := update s.taken i (s.taken i ++ [none]) } :
            State cfg).queuedWork := by
        simp only [State.queuedWork, State.pipeline, State.unsent, hq, List.cons_append, items_none]
      have hwork : s.work = ({ s with
          original_photos, taken := update s.taken i (s.taken i ++ [none]) }.setWorker i
            .pushEos).work := by
        rw [work_setWorker, work_split s i, hw]
        unfold State.otherWork
        rw [hqueued]
        rfl
      unfold State.BufferInv
      rw [← hwork]
      exact h
  | @count q hw =>
      have hdims := h.dims q.P_pointer
      have hs : ({ s with counter_worker := s.counter_worker + 1 } : State cfg).BufferInv := h
      apply bufferInv_setWorker hs
      change (Marking.start _ _).work = (s.workers i).work (loadHeap cfg.copies)
      rw [hw, work_start, forXY_congr hdims.1 hdims.2.1]
      rfl
  | @mark q m m' memory hw hm =>
      unfold State.BufferInv at h ⊢
      rw [work_split s i, hw] at h
      rw [work_setWorker]
      exact h.step hm
  | @push q m hw hm =>
      have hs : ({ s with marked_photos := s.marked_photos.push (some q) } : State cfg).BufferInv :=
        h
      apply bufferInv_setWorker hs
      change 0 = (s.workers i).work (loadHeap cfg.copies)
      rw [hw]
      simp only [Worker.work, Marking.work, hm]
  | testStamp hw hc => exact bufferInv_setWorker h (by rw [hw]; rfl)
  | testPop hw hc => exact bufferInv_setWorker h (by rw [hw]; rfl)
  | stamp hw =>
      have hs : ({ s with
          ideal_service_time_worker := ms, stamps := s.stamps + 1 } : State cfg).BufferInv := h
      exact bufferInv_setWorker hs (by change 0 = (s.workers i).work _; rw [hw]; rfl)
  | bump hw =>
      have hs : ({ s with counter_worker := s.counter_worker + 1 } : State cfg).BufferInv := h
      exact bufferInv_setWorker hs (by change 0 = (s.workers i).work _; rw [hw]; rfl)
  | pushEos hw =>
      have hs : ({ s with marked_photos := s.marked_photos.push none } : State cfg).BufferInv := h
      exact bufferInv_setWorker hs (by change 0 = (s.workers i).work _; rw [hw]; rfl)

theorem bufferInv {s : State cfg} (hs : (system cfg).Reachable s) : s.BufferInv := by
  refine hs.invariant bufferInv_init fun s a t _ h ha => ?_
  cases a with
  | worker i ms => exact bufferInv_workerStep h (workerStep_cases ha)
  | emitter =>
      have hstep := emitterStep_cases ha
      have hpipe := pipeline_emitterStep hstep
      have hsame : t.workers = s.workers ∧ t.memory = s.memory := by
        cases hstep <;> exact ⟨rfl, rfl⟩
      have hwork : t.work = s.work := by
        simp only [State.work, State.queuedWork, hpipe, hsame.1]
      unfold State.BufferInv
      rw [hwork, hsame.2]
      exact h
  | collector ms =>
      have hstep := collectorStep_cases ha
      cases hstep <;> exact h

end Watermark.Farm
