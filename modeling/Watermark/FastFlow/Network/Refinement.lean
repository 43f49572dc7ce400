import Watermark.FastFlow.Agreement
import Watermark.FastFlow.Network.Lanes
import Watermark.FastFlow.Timing
import Watermark.Reasoning.Simulation

/-!
# Refinement — the farm does what the skeleton says

What the skeleton takes for granted, that a task reaches one worker and its result the collector,
is so in the network of threads and queues: each of its steps is one of the skeleton, or none.
-/

namespace Watermark.FastFlow

open Function Reasoning

variable {τ ε γ : Type} {P : Program τ ε γ}

/-- The emitter looks at the dimensions of the photos and not at their pixels. -/
def Program.Steady (P : Program τ ε γ) : Prop :=
  ∀ heap e, SameDims P.copies heap → P.emit heap e = P.emit (loadHeap P.copies) e

theorem Farm.steady (cfg : Config) : (Farm.program cfg).Steady := fun _ _ _ => rfl

-- The emitter of fastflow_map.cpp reads heights only.
theorem Map.steady (cfg : Config) : (Map.program cfg).Steady := by
  intro heap e hdims
  show Map.firstStage cfg.number_of_workers heap e =
    Map.firstStage cfg.number_of_workers (loadHeap cfg.copies) e
  cases e with
  | photos left =>
      cases left with
      | nil => rfl
      | cons ph left =>
          have hheight : (heap ph.P_Pointer).height =
              (loadHeap cfg.copies ph.P_Pointer).height := (hdims ph.P_Pointer).2.1
          simp only [Map.firstStage, hheight]
  | parts ph left v => rfl

namespace Network

variable {n : ℕ}

def Message.toTask : Message τ → Option τ
  | .task t => some t
  | .eos => none

/-- The tasks in a queue. -/
def tasks (q : List (Message τ)) : List τ := q.filterMap Message.toTask

/-- The tasks in the queue into worker `i`. -/
def queued (i : Fin n) (q : List (Message τ)) : Multiset (Fin n × τ) := ↑((tasks q).map (Prod.mk i))

/-- The call worker `i` is in. -/
def Worker.call (i : Fin n) : Worker τ → Multiset (Fin n × Call τ)
  | .svc c => {(i, c)}
  | _ => 0

/-- The task `svc` has returned. -/
def Worker.result : Worker τ → Multiset τ
  | .push (.task task) => {task}
  | _ => 0

theorem Worker.result_svc (c : Call τ) : (Worker.svc c).result = 0 := rfl

theorem Worker.result_push (task : τ) : (Worker.push (.task task)).result = {task} := rfl

def Gatherer.result : Gatherer τ → Multiset τ
  | .svc task => {task}
  | _ => 0

/-- What is known of the emitter of the skeleton, which decides on a task when that is put. -/
def LoadBalancer.Emitter (P : Program τ ε γ) (emitter : ε) : LoadBalancer n τ ε → Prop
  | .svc e => emitter = e
  | .schedule task e => P.emit (loadHeap P.copies) emitter = some (some task, e)
  | _ => P.emit (loadHeap P.copies) emitter = none

/-- The state of the skeleton that corresponds to one of the network. -/
structure Follows (s : State P) (u : FastFlow.State P) : Prop where
  memory : u.memory = s.memory
  counter_worker : u.counter_worker = s.counter_worker
  ideal_service_worker : u.ideal_service_worker = s.ideal_service_worker
  collector : u.collector = s.collector
  collected : u.collected = s.collected
  emitter : s.lb.Emitter P u.emitter
  assigned : (u.assigned : Multiset (Fin P.threads × τ)) = ∑ i, queued i (s.inq i)
  calls : (u.calls : Multiset (Fin P.threads × Call τ)) = ∑ i, (s.worker i).call i
  returned : (u.returned : Multiset τ) =
    ∑ i, (s.worker i).result + ∑ i, ↑(tasks (s.outq i)) + s.gatherer.result

theorem result_whileRunning (neos n : ℕ) : (whileRunning neos n : Gatherer τ).result = 0 := by
  unfold whileRunning
  split <;> rfl

theorem tasks_cons_task (task : τ) (q : List (Message τ)) :
    tasks (.task task :: q) = task :: tasks q :=
  List.filterMap_cons_some rfl

theorem tasks_cons_eos (q : List (Message τ)) : tasks (.eos :: q) = tasks q :=
  List.filterMap_cons_none rfl

theorem tasks_concat_task (q : List (Message τ)) (task : τ) :
    tasks (q ++ [.task task]) = tasks q ++ [task] := by
  unfold tasks
  rw [List.filterMap_append]
  rfl

theorem tasks_concat_eos (q : List (Message τ)) : tasks (q ++ [.eos]) = tasks q := by
  unfold tasks
  rw [List.filterMap_append]
  exact List.append_nil _

theorem follows_init : Follows (system P).init (FastFlow.system P).init where
  memory := rfl
  counter_worker := rfl
  ideal_service_worker := rfl
  collector := rfl
  collected := rfl
  emitter := rfl
  assigned := by
    show 0 = ∑ i : Fin P.threads, (0 : Multiset (Fin P.threads × τ))
    rw [Finset.sum_const_zero]
  calls := by
    show 0 = ∑ i : Fin P.threads, (0 : Multiset (Fin P.threads × Call τ))
    rw [Finset.sum_const_zero]
  returned := by
    show 0 = ∑ i : Fin P.threads, (0 : Multiset τ) + ∑ i : Fin P.threads, (0 : Multiset τ) + 0
    rw [Finset.sum_const_zero, add_zero, add_zero]

namespace Follows

variable {s : State P} {u : FastFlow.State P}

/-! ## One lane -/

-- A change of one queue or one worker, with the contributions of the others left alone.
theorem queued_update (q : List (Message τ)) (i : Fin P.threads) :
    ∑ j, queued j (update s.inq i q j) =
      queued i q + ∑ j ∈ Finset.univ.erase i, queued j (s.inq j) :=
  sum_update_at (fun j q => queued j q) s.inq i q

theorem call_update (w : Worker τ) (i : Fin P.threads) :
    ∑ j, (update s.worker i w j).call j =
      w.call i + ∑ j ∈ Finset.univ.erase i, (s.worker j).call j :=
  sum_update_at (fun j (w : Worker τ) => w.call j) s.worker i w

theorem assigned_at (h : Follows s u) (i : Fin P.threads) :
    (u.assigned : Multiset (Fin P.threads × τ)) =
      queued i (s.inq i) + ∑ j ∈ Finset.univ.erase i, queued j (s.inq j) :=
  h.assigned.trans (sum_at (fun j q => queued j q) s.inq i)

theorem calls_at (h : Follows s u) (i : Fin P.threads) :
    (u.calls : Multiset (Fin P.threads × Call τ)) =
      (s.worker i).call i + ∑ j ∈ Finset.univ.erase i, (s.worker j).call j :=
  h.calls.trans (sum_at (fun j (w : Worker τ) => w.call j) s.worker i)

theorem result_update (w : Worker τ) (i : Fin P.threads) :
    ∑ j, (update s.worker i w j).result + (s.worker i).result =
      ∑ j, (s.worker j).result + w.result :=
  sum_update Worker.result s.worker i w

-- The load balancer has put a task into an empty queue.
theorem send (h : Follows s u) {task : τ} {e : ε} {w : Fin P.threads}
    {nextw : Option (Fin P.threads)} (hq : s.inq w = []) :
    Follows { s with nextw, inq := update s.inq w [.task task], lb := .svc e }
      { u with emitter := e, assigned := u.assigned ++ [(w, task)] } where
  memory := h.memory
  counter_worker := h.counter_worker
  ideal_service_worker := h.ideal_service_worker
  collector := h.collector
  collected := h.collected
  emitter := rfl
  assigned := by
    have hold := h.assigned_at w
    have hnil : queued w (s.inq w) = 0 := by
      rw [hq]
      rfl
    rw [hnil, zero_add] at hold
    show (↑(u.assigned ++ [(w, task)]) : Multiset (Fin P.threads × τ)) = _
    rw [queued_update, ← Multiset.coe_add, hold, add_comm]
    rfl
  calls := h.calls
  returned := h.returned

-- A task or `FF_EOS` in a queue that the skeleton does not have.
theorem of_lb (h : Follows s u) {lb : LoadBalancer P.threads τ ε} (hlb : lb.Emitter P u.emitter) :
    Follows { s with lb } u :=
  ⟨h.memory, h.counter_worker, h.ideal_service_worker, h.collector, h.collected, hlb, h.assigned,
    h.calls, h.returned⟩

theorem notify (h : Follows s u) {w : Fin P.threads} {lb : LoadBalancer P.threads τ ε}
    (hq : s.inq w = []) (hlb : lb.Emitter P u.emitter) :
    Follows { s with inq := update s.inq w [.eos], lb } u where
  memory := h.memory
  counter_worker := h.counter_worker
  ideal_service_worker := h.ideal_service_worker
  collector := h.collector
  collected := h.collected
  emitter := hlb
  assigned := by
    have hold := h.assigned_at w
    rw [hq] at hold
    show _ = ∑ i, queued i (update s.inq w [.eos] i)
    rw [queued_update]
    exact hold
  calls := h.calls
  returned := h.returned

-- A worker goes from one call to another state of the same call.
theorem setCall (h : Follows s u) {i : Fin P.threads} {k : ℕ} {c d : Call τ}
    (hw : s.worker i = .svc c) (hk : u.calls[k]? = some (i, c)) :
    Follows (s.setWorker i (.svc d)) (u.setCall k i d) where
  memory := h.memory
  counter_worker := h.counter_worker
  ideal_service_worker := h.ideal_service_worker
  collector := h.collector
  collected := h.collected
  emitter := h.emitter
  assigned := h.assigned
  calls := by
    have hold := h.calls_at i
    have hset := coe_map_set id hk (i, d)
    have herase := coe_map_eraseIdx id hk
    simp only [List.map_id, id] at hset herase
    rw [hw, herase] at hold
    have hrest := (Multiset.cons_inj_right _).mp (hold.trans (Multiset.singleton_add _ _))
    show (↑(u.calls.set k (i, d)) : Multiset (Fin P.threads × Call τ)) =
      ∑ j, (update s.worker i (.svc d) j).call j
    rw [call_update, hset, hrest]
    exact (Multiset.singleton_add _ _).symm
  returned := by
    have hresult := result_update (s := s) (.svc d) i
    rw [hw, Worker.result_svc, Worker.result_svc, add_zero, add_zero] at hresult
    show _ = ∑ j, (update s.worker i (.svc d) j).result + _ + _
    rw [hresult]
    exact h.returned

-- A worker returns from its call.
theorem finish (h : Follows s u) {i : Fin P.threads} {k : ℕ} {c : Call τ} {task : τ}
    (hw : s.worker i = .svc c) (hk : u.calls[k]? = some (i, c)) :
    Follows (s.setWorker i (.push (.task task))) (u.finish k task) where
  memory := h.memory
  counter_worker := h.counter_worker
  ideal_service_worker := h.ideal_service_worker
  collector := h.collector
  collected := h.collected
  emitter := h.emitter
  assigned := h.assigned
  calls := by
    have hold := h.calls_at i
    have herase := coe_map_eraseIdx id hk
    simp only [List.map_id, id] at herase
    rw [hw, herase] at hold
    have hrest := (Multiset.cons_inj_right _).mp (hold.trans (Multiset.singleton_add _ _))
    show (↑(u.calls.eraseIdx k) : Multiset (Fin P.threads × Call τ)) =
      ∑ j, (update s.worker i (.push (.task task)) j).call j
    rw [call_update, hrest]
    exact (zero_add _).symm
  returned := by
    have hresult := result_update (s := s) (.push (.task task)) i
    rw [hw, Worker.result_svc, Worker.result_push, add_zero] at hresult
    show (↑(u.returned ++ [task]) : Multiset τ) =
      ∑ j, (update s.worker i (.push (.task task)) j).result + _ + _
    rw [hresult, ← Multiset.coe_add, h.returned]
    show _ + {task} = _
    ac_rfl

-- A worker gives its result to the queue out of it.
theorem give (h : Follows s u) {i : Fin P.threads} {m : Message τ} {w : Worker τ}
    (hcall : (s.worker i).call i = 0) (hcall' : w.call i = 0)
    (hresult : (s.worker i).result = ↑(tasks [m])) (hresult' : w.result = 0) :
    Follows ({ s with outq := update s.outq i (s.outq i ++ [m]) }.setWorker i w) u where
  memory := h.memory
  counter_worker := h.counter_worker
  ideal_service_worker := h.ideal_service_worker
  collector := h.collector
  collected := h.collected
  emitter := h.emitter
  assigned := h.assigned
  calls := by
    have hold := h.calls_at i
    show _ = ∑ j, (update s.worker i w j).call j
    rw [call_update, hcall']
    rw [hcall] at hold
    exact hold
  returned := by
    have hresults := result_update (s := s) w i
    rw [hresult, hresult', add_zero] at hresults
    have hqueues : ∑ j, (↑(tasks (update s.outq i (s.outq i ++ [m]) j)) : Multiset τ) =
        ∑ j, ↑(tasks (s.outq j)) + ↑(tasks [m]) := by
      have hq : tasks (s.outq i ++ [m]) = tasks (s.outq i) ++ tasks [m] := List.filterMap_append
      rw [sum_update_split (fun q => (↑(tasks q) : Multiset τ)) s.outq i,
        sum_split (fun q => (↑(tasks q) : Multiset τ)) s.outq i, hq, ← Multiset.coe_add]
      ac_rfl
    show _ = ∑ j, (update s.worker i w j).result +
      ∑ j, ↑(tasks (update s.outq i (s.outq i ++ [m]) j)) + _
    rw [hqueues, h.returned, ← hresults]
    ac_rfl

-- A worker takes a task out of the queue into it and begins a call.
theorem take (h : Follows s u) {i : Fin P.threads} {task : τ} {q : List (Message τ)} (c : Call τ)
    (hw : s.worker i = .pop) (hq : s.inq i = .task task :: q) :
    ∃ k, u.assigned[k]? = some (i, task) ∧
      Follows ({ s with inq := update s.inq i q }.setWorker i (.svc c))
        { u with assigned := u.assigned.eraseIdx k, calls := u.calls ++ [(i, c)] } := by
  have hold := h.assigned_at i
  have hcons : queued i (.task task :: q) = (i, task) ::ₘ queued i q := by
    unfold queued
    rw [tasks_cons_task]
    rfl
  rw [hq, hcons, Multiset.cons_add] at hold
  obtain ⟨k, hk, hrest⟩ := exists_getElem?_of_coe hold
  refine ⟨k, hk, h.memory, h.counter_worker, h.ideal_service_worker, h.collector, h.collected,
    h.emitter, ?_, ?_, ?_⟩
  · show (↑(u.assigned.eraseIdx k) : Multiset (Fin P.threads × τ)) =
      ∑ j, queued j (update s.inq i q j)
    rw [queued_update, hrest]
  · have hcalls := h.calls_at i
    have hnone : (s.worker i).call i = 0 := by
      rw [hw]
      rfl
    rw [hnone, zero_add] at hcalls
    show (↑(u.calls ++ [(i, c)]) : Multiset (Fin P.threads × Call τ)) =
      ∑ j, (update s.worker i (.svc c) j).call j
    rw [call_update, ← Multiset.coe_add, hcalls, add_comm]
    rfl
  · have hresult := result_update (s := s) (.svc c) i
    have hnone : (s.worker i).result = 0 := by
      rw [hw]
      rfl
    rw [hnone, Worker.result_svc, add_zero, add_zero] at hresult
    show _ = ∑ j, (update s.worker i (.svc c) j).result + _ + _
    rw [hresult]
    exact h.returned

theorem takeEos (h : Follows s u) {i : Fin P.threads} {q : List (Message τ)}
    (hw : s.worker i = .pop) (hq : s.inq i = .eos :: q) :
    Follows ({ s with inq := update s.inq i q }.setWorker i (.push .eos)) u where
  memory := h.memory
  counter_worker := h.counter_worker
  ideal_service_worker := h.ideal_service_worker
  collector := h.collector
  collected := h.collected
  emitter := h.emitter
  assigned := by
    have hold := h.assigned_at i
    have hcons : queued i (.eos :: q) = queued i q := by
      unfold queued
      rw [tasks_cons_eos]
    rw [hq, hcons] at hold
    show _ = ∑ j, queued j (update s.inq i q j)
    rw [queued_update]
    exact hold
  calls := by
    have hold := h.calls_at i
    rw [hw] at hold
    show _ = ∑ j, (update s.worker i (.push .eos) j).call j
    rw [call_update]
    exact hold
  returned := by
    have hresult : ∑ j, (update s.worker i (.push .eos) j).result = ∑ j, (s.worker j).result := by
      apply sum_update_eq Worker.result
      rw [hw]
      rfl
    show _ = ∑ j, (update s.worker i (.push .eos) j).result + _ + _
    rw [hresult]
    exact h.returned

-- A worker is in a call only while it is in `svc`.
theorem idle_of_pop (h : Follows s u) {i : Fin P.threads} (hw : s.worker i = .pop) :
    u.idle i = true := by
  rw [FastFlow.State.idle, List.all_eq_true]
  intro c hc
  rw [decide_eq_true_iff]
  intro heq
  have hmem : c ∈ (u.calls : Multiset (Fin P.threads × Call τ)) := hc
  rw [h.calls, Multiset.mem_sum] at hmem
  obtain ⟨j, _, hj⟩ := hmem
  cases hwj : s.worker j with
  | svc d =>
      rw [hwj] at hj
      have hcj : c = (j, d) := Multiset.mem_singleton.mp hj
      rw [hcj] at heq
      rw [← heq, hwj] at hw
      cases hw
  | _ =>
      rw [hwj] at hj
      exact Multiset.notMem_zero c hj

-- The call of worker `i` is one of those of the skeleton.
theorem exists_call (h : Follows s u) {i : Fin P.threads} {c : Call τ}
    (hw : s.worker i = .svc c) : ∃ k : ℕ, u.calls[k]? = some (i, c) := by
  have hold := h.calls_at i
  rw [hw] at hold
  obtain ⟨k, hk, _⟩ := exists_getElem?_of_coe (hold.trans (Multiset.singleton_add _ _))
  exact ⟨k, hk⟩

-- The gatherer takes a result, or `FF_EOS`, out of the queue out of a worker.
theorem gather (h : Follows s u) {w : Fin P.threads} {m : Message τ} {q : List (Message τ)}
    {nextr : Option (Fin P.threads)} {offline : Fin P.threads → Bool} {neos : ℕ} {g : Gatherer τ}
    (hq : s.outq w = m :: q) (hg : g.result = s.gatherer.result + ↑(tasks [m])) :
    Follows { s with nextr, outq := update s.outq w q, offline, neos, gatherer := g } u where
  memory := h.memory
  counter_worker := h.counter_worker
  ideal_service_worker := h.ideal_service_worker
  collector := h.collector
  collected := h.collected
  emitter := h.emitter
  assigned := h.assigned
  calls := h.calls
  returned := by
    have hqueues : ∑ j, (↑(tasks (s.outq j)) : Multiset τ) =
        ∑ j, ↑(tasks (update s.outq w q j)) + ↑(tasks [m]) := by
      have hcons : tasks (m :: q) = tasks [m] ++ tasks q := by
        rw [← List.singleton_append]
        exact List.filterMap_append
      rw [sum_update_split (fun q => (↑(tasks q) : Multiset τ)) s.outq w,
        sum_split (fun q => (↑(tasks q) : Multiset τ)) s.outq w, hq, hcons, ← Multiset.coe_add]
      ac_rfl
    show _ = _ + ∑ j, ↑(tasks (update s.outq w q j)) + g.result
    rw [h.returned, hqueues, hg]
    ac_rfl

-- The collector is called on the result the gatherer has taken.
theorem collect (h : Follows s u) {task : τ} (hg : s.gatherer = .svc task) :
    ∃ k, u.returned[k]? = some task ∧
      Follows { s with
        collector := P.collect s.collector task
        collected := s.collected ++ [task]
        gatherer := whileRunning s.neos P.threads } { u with
        returned := u.returned.eraseIdx k
        collector := P.collect u.collector task
        collected := u.collected ++ [task] } := by
  have hold := h.returned
  have hone : s.gatherer.result = {task} := by
    rw [hg]
    rfl
  rw [hone, add_comm, Multiset.singleton_add] at hold
  obtain ⟨k, hk, hrest⟩ := exists_getElem?_of_coe hold
  refine ⟨k, hk, h.memory, h.counter_worker, h.ideal_service_worker, ?_, ?_, h.emitter, h.assigned,
    h.calls, ?_⟩
  · show P.collect u.collector task = P.collect s.collector task
    rw [h.collector]
  · show u.collected ++ [task] = s.collected ++ [task]
    rw [h.collected]
  · show (↑(u.returned.eraseIdx k) : Multiset τ) = _ + _ + (whileRunning _ _).result
    rw [result_whileRunning, add_zero]
    exact hrest

end Follows

/-! ## The simulation -/

variable {future : ε → List τ} {fuel : ε → ℕ}

theorem step_follows (L : P.Lawful future fuel) (hsteady : P.Steady) (hn : 0 < P.threads)
    {s t : State P} {es : List (Transfer P.threads τ)} {u : FastFlow.State P}
    (hu : (FastFlow.system P).Reachable u) (h : Follows s u) (hs : Step s es t) :
    ∃ bs v, (serial P).exec u bs = some v ∧ Follows t v := by
  have hdims := (FastFlow.inv L hu).memory.dims
  have hemitter := h.emitter
  cases hs with
  | idle nextw nextr =>
      exact Simulation.stutter ⟨h.memory, h.counter_worker, h.ideal_service_worker, h.collector,
        h.collected, h.emitter, h.assigned, h.calls, h.returned⟩
  | @skip e e' hl he =>
      rw [hl] at hemitter
      have hstep : (serial P).step u (.emit ⟨0, hn⟩) = some { u with emitter := e' } := by
        refine System.restrict_step.mpr ⟨rfl, ?_⟩
        show u.emitStep _ = _
        rw [← h.memory, ← show u.emitter = e from hemitter] at he
        simp only [FastFlow.State.emitStep, he]
      refine Simulation.one hstep ⟨h.memory, h.counter_worker, h.ideal_service_worker, h.collector,
        h.collected, rfl, h.assigned, h.calls, h.returned⟩
  | @hold e e' task hl he =>
      rw [hl] at hemitter
      rw [← h.memory, hsteady _ _ hdims, ← show u.emitter = e from hemitter] at he
      exact Simulation.stutter (h.of_lb he)
  | @close e hl he =>
      rw [hl] at hemitter
      rw [← h.memory, hsteady _ _ hdims, ← show u.emitter = e from hemitter] at he
      exact Simulation.stutter (h.of_lb he)
  | @send task e w hl hq =>
      rw [hl] at hemitter
      have hstep : (serial P).step u (.emit w) = some { u with
          emitter := e, assigned := u.assigned ++ [(w, task)] } := by
        refine System.restrict_step.mpr ⟨rfl, ?_⟩
        show u.emitStep w = _
        have he : P.emit u.memory.heap u.emitter = some (some task, e) := by
          rw [hsteady _ _ hdims]
          exact hemitter
        simp only [FastFlow.State.emitStep, he]
      exact Simulation.one hstep (h.send hq)
  | notify hi hl hq =>
      rw [hl] at hemitter
      exact Simulation.stutter (h.notify hq hemitter)
  | postpone hi hl =>
      rw [hl] at hemitter
      exact Simulation.stutter (h.of_lb hemitter)
  | tryAgain hi hl =>
      rw [hl] at hemitter
      exact Simulation.stutter (h.of_lb hemitter)
  | notifyAgain hl hq =>
      rw [hl] at hemitter
      exact Simulation.stutter (h.notify hq hemitter)
  | closed hl =>
      rw [hl] at hemitter
      exact Simulation.stutter (h.of_lb hemitter)
  | @take i task q hw hq =>
      obtain ⟨k, hk, hfollows⟩ := h.take (.mark task (P.svc s.memory.heap task)) hw hq
      have hstep : (serial P).step u (.call k) = some { u with
          assigned := u.assigned.eraseIdx k
          calls := u.calls ++ [(i, .mark task (P.svc s.memory.heap task))] } := by
        refine System.restrict_step.mpr ⟨?_, ?_⟩
        · simp only [FastFlow.State.oneCallAWorker, hk, Option.all_some]
          exact h.idle_of_pop hw
        · show u.callStep k = _
          simp only [FastFlow.State.callStep, hk, h.memory]
      exact Simulation.one hstep hfollows
  | takeEos hw hq => exact Simulation.stutter (h.takeEos hw hq)
  | @mark i task t t' memory hw ht =>
      obtain ⟨k, hk⟩ := h.exists_call hw
      have hmemory : Follows { s with memory } { u with memory } :=
        ⟨rfl, h.counter_worker, h.ideal_service_worker, h.collector, h.collected, h.emitter,
          h.assigned, h.calls, h.returned⟩
      have hstep : (serial P).step u (.work k 0) =
          some ({ u with memory }.setCall k i (.mark task t')) := by
        refine System.restrict_step.mpr ⟨rfl, ?_⟩
        show u.workStep k 0 = _
        rw [← h.memory] at ht
        simp only [FastFlow.State.workStep, hk, ht]
      exact Simulation.one hstep (hmemory.setCall hw hk)
  | @testStamp i task t hw ht hc =>
      obtain ⟨k, hk⟩ := h.exists_call hw
      have hnone : t.step P.overlay u.memory = none := Marking.step_eq_none_iff.mpr ht
      have hstep : (serial P).step u (.work k 0) = some (u.setCall k i (.stamp task)) := by
        refine System.restrict_step.mpr ⟨rfl, ?_⟩
        show u.workStep k 0 = _
        rw [← h.counter_worker] at hc
        simp only [FastFlow.State.workStep, hk, hnone, hc, if_true]
      exact Simulation.one hstep (h.setCall hw hk)
  | @testReturn i task t hw ht hc =>
      obtain ⟨k, hk⟩ := h.exists_call hw
      have hnone : t.step P.overlay u.memory = none := Marking.step_eq_none_iff.mpr ht
      have hstep : (serial P).step u (.work k 0) = some (u.finish k task) := by
        refine System.restrict_step.mpr ⟨rfl, ?_⟩
        show u.workStep k 0 = _
        rw [← h.counter_worker] at hc
        simp only [FastFlow.State.workStep, hk, hnone, if_neg hc]
      exact Simulation.one hstep (h.finish hw hk)
  | @stamp i task ms hw =>
      obtain ⟨k, hk⟩ := h.exists_call hw
      have hideal : Follows { s with
          ideal_service_worker := P.stamp s.ideal_service_worker ms } { u with
          ideal_service_worker := P.stamp u.ideal_service_worker ms } :=
        ⟨h.memory, h.counter_worker, congrArg (P.stamp · ms) h.ideal_service_worker, h.collector,
          h.collected, h.emitter, h.assigned, h.calls, h.returned⟩
      have hstep : (serial P).step u (.work k ms) = some ({ u with
          ideal_service_worker := P.stamp u.ideal_service_worker ms }.setCall k i
            (.bump task)) := by
        refine System.restrict_step.mpr ⟨rfl, ?_⟩
        show u.workStep k ms = _
        simp only [FastFlow.State.workStep, hk]
      exact Simulation.one hstep (hideal.setCall hw hk)
  | @bump i task hw =>
      obtain ⟨k, hk⟩ := h.exists_call hw
      have hcounter : Follows { s with counter_worker := s.counter_worker + 1 }
          { u with counter_worker := u.counter_worker + 1 } :=
        ⟨h.memory, congrArg (· + 1) h.counter_worker, h.ideal_service_worker, h.collector,
          h.collected, h.emitter, h.assigned, h.calls, h.returned⟩
      have hstep : (serial P).step u (.work k 0) =
          some ({ u with counter_worker := u.counter_worker + 1 }.finish k task) := by
        refine System.restrict_step.mpr ⟨rfl, ?_⟩
        show u.workStep k 0 = _
        simp only [FastFlow.State.workStep, hk]
      exact Simulation.one hstep (hcounter.finish hw hk)
  | @give i task hw =>
      refine Simulation.stutter (h.give ?_ rfl ?_ rfl)
      · rw [hw]
        rfl
      · rw [hw]
        rfl
  | @giveEos i hw =>
      refine Simulation.stutter (h.give ?_ rfl ?_ rfl)
      · rw [hw]
        rfl
      · rw [hw]
        rfl
  | @gather w task q hg ho hq =>
      refine Simulation.stutter (h.gather hq ?_)
      rw [hg]
      rfl
  | @gatherEos w q hg ho hq =>
      refine Simulation.stutter (h.gather hq ?_)
      rw [hg, result_whileRunning]
      rfl
  | @collect task hg =>
      obtain ⟨k, hk, hfollows⟩ := h.collect hg
      have hstep : (serial P).step u (.collect k) = some { u with
          returned := u.returned.eraseIdx k
          collector := P.collect u.collector task
          collected := u.collected ++ [task] } := by
        refine System.restrict_step.mpr ⟨rfl, ?_⟩
        show u.collectStep k = _
        simp only [FastFlow.State.collectStep, hk]
      exact Simulation.one hstep hfollows

theorem simulation (L : P.Lawful future fuel) (hsteady : P.Steady) (hn : 0 < P.threads) :
    Simulation (system P) (serial P) Follows where
  init := follows_init
  step _ _ _ _ _ hu h ha := step_follows L hsteady hn hu.of_restrict h (step_cases ha)

/-- Every run of the farm is one of the skeleton in which each worker has one call at a time. -/
theorem farm_refines_skeleton (L : P.Lawful future fuel) (hsteady : P.Steady) (hn : 0 < P.threads)
    {as : List (Action P.threads)} {s : State P}
    (hrun : (system P).exec (system P).init as = some s) :
    ∃ bs u, (serial P).exec (serial P).init bs = some u ∧ Follows s u :=
  (simulation L hsteady hn).exec .init .init follows_init hrun

/-! ## A complete run of each farm -/

def first : Fin 2 := ⟨0, Nat.two_pos⟩

def second : Fin 2 := ⟨1, Nat.one_lt_two⟩

/-- Each worker gets one part, and the load balancer has to wait with `FF_EOS` for both.  The second
part arrives first. -/
def twoRowsMapRun : List (Action 2) :=
  List.flatten [List.replicate 11 .lb, [.worker second 0, .worker first 0], List.replicate 3 .lb,
    List.replicate 7 (.worker second 0), List.replicate 3 .gatherer,
    List.replicate 13 (.worker first 0), List.replicate 4 .gatherer]

def twoRowsMapEnd : State (Map.program twoRows) :=
  ((system (Map.program twoRows)).exec (system (Map.program twoRows)).init twoRowsMapRun).get
    (by decide +kernel)

/-- The first worker gets the photo, and the second `FF_EOS` while the first is at work. -/
def twoRowsFarmRun : List (Action 2) :=
  List.flatten [List.replicate 7 .lb,
    [.worker first 0, .lb, .lb, .worker second 0, .worker second 0],
    List.replicate 2 .gatherer, List.replicate 16 (.worker first 0), List.replicate 4 .gatherer]

def twoRowsFarmEnd : State (Farm.program twoRows) :=
  ((system (Farm.program twoRows)).exec (system (Farm.program twoRows)).init twoRowsFarmRun).get
    (by decide +kernel)

theorem twoRowsMapEnd_reachable : (system (Map.program twoRows)).Reachable twoRowsMapEnd :=
  System.reachable_get _

theorem twoRowsFarmEnd_reachable : (system (Farm.program twoRows)).Reachable twoRowsFarmEnd :=
  System.reachable_get _

theorem farm_refines_skeleton_twoRows :
    ∃ bs u, (serial (Map.program twoRows)).exec (serial (Map.program twoRows)).init bs = some u ∧
      Follows twoRowsMapEnd u := by
  have hn : 0 < twoRows.threads := by decide
  apply farm_refines_skeleton (Map.lawful hn) (Map.steady twoRows) hn
  exact (Option.some_get _).symm

end Network

end Watermark.FastFlow
