import Watermark.FastFlow.Network.Agreement

/-!
# Order — the order in which tasks are sent and results come back

The emitter's tasks go out one by one to whichever worker has room.  Between workers there is no
order, but a worker's results come back in the order in which it was given the tasks.
-/

namespace Watermark.FastFlow.Network

open Function Reasoning

variable {τ ε γ : Type} {P : Program τ ε γ} {n : ℕ}

/-! ## Histories -/

/-- The tasks the load balancer has put. -/
def sent (es : List (Transfer n τ)) : List τ :=
  es.filterMap fun
    | .sent _ task => some task
    | .gathered _ _ => none

/-- The results the gatherer has taken. -/
def gathered (es : List (Transfer n τ)) : List τ :=
  es.filterMap fun
    | .sent _ _ => none
    | .gathered _ task => some task

/-- The tasks the load balancer has put into the queue of worker `w`. -/
def sentTo (w : Fin n) (es : List (Transfer n τ)) : List τ :=
  es.filterMap fun
    | .sent v task => if v = w then some task else none
    | .gathered _ _ => none

/-- The results the gatherer has taken out of the queue of worker `w`. -/
def gatheredFrom (w : Fin n) (es : List (Transfer n τ)) : List τ :=
  es.filterMap fun
    | .sent _ _ => none
    | .gathered v task => if v = w then some task else none

section Histories

variable (es fs : List (Transfer n τ)) (v w : Fin n) (task : τ)

theorem sent_append : sent (es ++ fs) = sent es ++ sent fs := List.filterMap_append

theorem gathered_append : gathered (es ++ fs) = gathered es ++ gathered fs := List.filterMap_append

theorem sentTo_append : sentTo w (es ++ fs) = sentTo w es ++ sentTo w fs := List.filterMap_append

theorem gatheredFrom_append :
    gatheredFrom w (es ++ fs) = gatheredFrom w es ++ gatheredFrom w fs := List.filterMap_append

theorem sentTo_sent : sentTo w [.sent v task] = if v = w then [task] else [] := by
  unfold sentTo
  split <;> simp [*]

theorem gatheredFrom_gathered :
    gatheredFrom w [.gathered v task] = if v = w then [task] else [] := by
  unfold gatheredFrom
  split <;> simp [*]

end Histories

/-! ## What is on its way -/

/-- The tasks the emitter has not put. -/
def LoadBalancer.unsent (future : ε → List τ) : LoadBalancer n τ ε → List τ
  | .svc e => future e
  | .schedule task e => task :: future e
  | _ => []

def Worker.task : Worker τ → List τ
  | .svc c => [c.task]
  | .push (.task task) => [task]
  | _ => []

def Gatherer.task : Gatherer τ → List τ
  | .svc task => [task]
  | _ => []

/-- The tasks in lane `w`, from the gatherer to the load balancer. -/
def State.tasksIn (s : State P) (w : Fin P.threads) : List τ :=
  tasks (s.outq w) ++ (s.worker w).task ++ tasks (s.inq w)

theorem task_whileRunning (neos n : ℕ) : (whileRunning neos n : Gatherer τ).task = [] := by
  unfold whileRunning
  split <;> rfl

section Lane

variable {s t : State P} {i : Fin P.threads}

-- A step that changes lane `i` and not the tasks in it.
theorem tasksIn_eq (hi : t.tasksIn i = s.tasksIn i)
    (hother : ∀ j, j ≠ i → t.inq j = s.inq j ∧ t.worker j = s.worker j ∧ t.outq j = s.outq j)
    (w : Fin P.threads) : t.tasksIn w = s.tasksIn w := by
  by_cases hw : w = i
  · rw [hw]
    exact hi
  · obtain ⟨hinq, hworker, houtq⟩ := hother w hw
    unfold State.tasksIn
    rw [hinq, hworker, houtq]

theorem tasksIn_setWorker {v w : Worker τ} (hw : s.worker i = v) (htask : w.task = v.task)
    (j : Fin P.threads) : (s.setWorker i w).tasksIn j = s.tasksIn j := by
  refine tasksIn_eq (i := i) ?_ ?_ j
  · simp only [State.tasksIn, State.setWorker, update_self, hw, htask]
  · exact fun j hj => ⟨rfl, update_of_ne hj _ _, rfl⟩

-- The load balancer puts `FF_EOS` into an empty queue.
theorem tasksIn_notify {lb : LoadBalancer P.threads τ ε} (hq : s.inq i = []) (j : Fin P.threads) :
    State.tasksIn { s with inq := update s.inq i [.eos], lb } j = s.tasksIn j := by
  refine tasksIn_eq (i := i) ?_ ?_ j
  · simp only [State.tasksIn, update_self, hq]
    rfl
  · exact fun j hj => ⟨update_of_ne hj _ _, rfl, rfl⟩

-- A step that hands nothing over.
theorem tasksIn_of_nil {w : Fin P.threads} (h : t.tasksIn w = s.tasksIn w) :
    s.tasksIn w ++ sentTo w [] = gatheredFrom w [] ++ t.tasksIn w :=
  (List.append_nil _).trans h.symm

end Lane

/-! ## A step -/

variable {future : ε → List τ} {fuel : ε → ℕ} {s t : State P} {es : List (Transfer P.threads τ)}

-- The tasks go out in the order of the emitter,
theorem unsent_step (L : P.Lawful future fuel) (hdims : SameDims P.copies s.memory.heap)
    (h : Step s es t) : s.lb.unsent future = sent es ++ t.lb.unsent future := by
  cases h with
  | skip hl he =>
      rw [hl]
      exact (L.skip _ _ _ hdims he).1.symm
  | hold hl he =>
      rw [hl]
      exact (L.send _ _ _ _ hdims he).1
  | close hl he =>
      rw [hl]
      exact L.stop _ _ he
  | send w hl hq =>
      rw [hl]
      rfl
  | notify hi hl hq =>
      rw [hl]
      rfl
  | postpone hi hl =>
      rw [hl]
      rfl
  | tryAgain hi hl =>
      rw [hl]
      rfl
  | notifyAgain hl hq =>
      rw [hl]
      rfl
  | closed hl =>
      rw [hl]
      rfl
  | _ => rfl

-- the gatherer hands on what it has taken,
theorem collected_step (h : Step s es t) :
    t.collected ++ t.gatherer.task = s.collected ++ s.gatherer.task ++ gathered es := by
  cases h with
  | gather hg ho hq =>
      rw [hg]
      show _ = s.collected ++ [] ++ _
      rw [List.append_nil]
      rfl
  | gatherEos hg ho hq =>
      rw [hg, task_whileRunning]
      exact (List.append_nil _).symm
  | collect hg =>
      rw [hg, task_whileRunning]
      rfl
  | _ => exact (List.append_nil _).symm

-- and what the load balancer puts into a lane comes out at the other end.
theorem tasksIn_step (h : Step s es t) (w : Fin P.threads) :
    s.tasksIn w ++ sentTo w es = gatheredFrom w es ++ t.tasksIn w := by
  cases h with
  | @send task e i hl hq =>
      rw [sentTo_sent]
      show _ = State.tasksIn { s with
        nextw := some i, inq := update s.inq i [.task task], lb := .svc e } w
      by_cases hi : i = w
      · subst hi
        simp only [State.tasksIn, update_self, hq, if_true, List.append_assoc]
        rfl
      · have hw : w ≠ i := fun heq => hi heq.symm
        simp only [State.tasksIn, update_of_ne hw, if_neg hi, List.append_nil]
  | @gather i task q hg ho hq =>
      rw [gatheredFrom_gathered]
      show s.tasksIn w ++ [] = _ ++ State.tasksIn { s with
        nextr := some i, outq := update s.outq i q, gatherer := .svc task } w
      rw [List.append_nil]
      by_cases hi : i = w
      · subst hi
        simp only [State.tasksIn, update_self, hq, tasks_cons_task, if_true, List.append_assoc]
        rfl
      · have hw : w ≠ i := fun heq => hi heq.symm
        simp only [State.tasksIn, update_of_ne hw, if_neg hi, List.nil_append]
  | notify hi hl hq => exact tasksIn_of_nil (tasksIn_notify hq w)
  | notifyAgain hl hq => exact tasksIn_of_nil (tasksIn_notify hq w)
  | @take i task q hw hq =>
      refine tasksIn_of_nil (tasksIn_eq (i := i) ?_ ?_ w)
      · simp only [State.tasksIn, State.setWorker, update_self, hw, hq, tasks_cons_task,
          List.append_assoc]
        rfl
      · exact fun j hj => ⟨update_of_ne hj _ _, update_of_ne hj _ _, rfl⟩
  | @takeEos i q hw hq =>
      refine tasksIn_of_nil (tasksIn_eq (i := i) ?_ ?_ w)
      · simp only [State.tasksIn, State.setWorker, update_self, hw, hq, tasks_cons_eos]
        rfl
      · exact fun j hj => ⟨update_of_ne hj _ _, update_of_ne hj _ _, rfl⟩
  | @mark i task m m' memory hw hm =>
      exact tasksIn_of_nil
        (tasksIn_setWorker (s := { s with memory }) (w := .svc (.mark task m')) hw rfl w)
  | @testStamp i task m hw hm hc =>
      exact tasksIn_of_nil (tasksIn_setWorker (w := .svc (.stamp task)) hw rfl w)
  | @testReturn i task m hw hm hc =>
      exact tasksIn_of_nil (tasksIn_setWorker (w := .push (.task task)) hw rfl w)
  | @stamp i task ms hw =>
      exact tasksIn_of_nil (tasksIn_setWorker (s := { s with
        ideal_service_worker := P.stamp s.ideal_service_worker ms }) (w := .svc (.bump task)) hw
        rfl w)
  | @bump i task hw =>
      exact tasksIn_of_nil (tasksIn_setWorker (s := { s with
        counter_worker := s.counter_worker + 1 }) (w := .push (.task task)) hw rfl w)
  | @give i task hw =>
      refine tasksIn_of_nil (tasksIn_eq (i := i) ?_ ?_ w)
      · simp only [State.tasksIn, State.setWorker, update_self, hw, tasks_concat_task]
        exact congrArg (· ++ tasks (s.inq i)) (List.append_nil _)
      · exact fun j hj => ⟨rfl, update_of_ne hj _ _, update_of_ne hj _ _⟩
  | @giveEos i hw =>
      refine tasksIn_of_nil (tasksIn_eq (i := i) ?_ ?_ w)
      · simp only [State.tasksIn, State.setWorker, update_self, hw, tasks_concat_eos]
        rfl
      · exact fun j hj => ⟨rfl, update_of_ne hj _ _, update_of_ne hj _ _⟩
  | @gatherEos i q hg ho hq =>
      refine tasksIn_of_nil (tasksIn_eq (i := i) ?_ ?_ w)
      · simp only [State.tasksIn, update_self, hq, tasks_cons_eos]
      · exact fun j hj => ⟨rfl, rfl, update_of_ne hj _ _⟩
  | _ => exact List.append_nil _

/-! ## A run -/

/-- What is sent follows the emitter, what the collector is called on is what has been gathered, and
in each lane the results come out in the order in which the tasks went in, one task at most waiting
for the worker. -/
theorem delivered_in_order (L : P.Lawful future fuel) (hsteady : P.Steady) (hn : 0 < P.threads)
    {p : State P × List (Transfer P.threads τ)}
    (hp : ((system P).record State.transfers).Reachable p) :
    sent p.2 ++ p.1.lb.unsent future = future P.emitter ∧
      p.1.collected ++ p.1.gatherer.task = gathered p.2 ∧
      ∀ w, sentTo w p.2 = gatheredFrom w p.2 ++ p.1.tasksIn w ∧ (p.1.inq w).length ≤ ondemand := by
  have hlanes := (inv hn hp.of_record).lane
  refine ⟨?_, ?_, fun w => ⟨?_, (hlanes w).length_inq⟩⟩
  · apply hp.invariant (P := fun p => sent p.2 ++ p.1.lb.unsent future = future P.emitter) rfl
    intro p a q hreach ih ha
    obtain ⟨hs, hes⟩ := System.record_step.mp ha
    have hdims := dims L hsteady hn hreach.of_record
    have hstep := unsent_step L hdims (step_cases hs)
    rw [hes, sent_append, List.append_assoc, ← hstep]
    exact ih
  · apply hp.invariant (P := fun p => p.1.collected ++ p.1.gatherer.task = gathered p.2) rfl
    intro p a q _ ih ha
    obtain ⟨hs, hes⟩ := System.record_step.mp ha
    rw [hes, gathered_append, ← ih]
    exact collected_step (step_cases hs)
  · apply hp.invariant (P := fun p => sentTo w p.2 = gatheredFrom w p.2 ++ p.1.tasksIn w) rfl
    intro p a q _ ih ha
    obtain ⟨hs, hes⟩ := System.record_step.mp ha
    have hstep := tasksIn_step (step_cases hs) w
    rw [hes, sentTo_append, gatheredFrom_append, ih, List.append_assoc, List.append_assoc, hstep]

/-- The run of fastflow_map.cpp, with what has been handed over. -/
def twoRowsHistory : State (Map.program twoRows) × List (Transfer 2 Map.Image) :=
  (((system (Map.program twoRows)).record State.transfers).exec
    ((system (Map.program twoRows)).record State.transfers).init twoRowsMapRun).get
    (by decide +kernel)

theorem delivered_in_order_twoRows :
    (sent twoRowsHistory.2).length = 2 ∧
      ∀ w, sentTo w twoRowsHistory.2 =
        gatheredFrom w twoRowsHistory.2 ++ twoRowsHistory.1.tasksIn w := by
  have hreach : ((system (Map.program twoRows)).record State.transfers).Reachable twoRowsHistory :=
    System.reachable_get _
  have hn : 0 < twoRows.threads := by decide
  obtain ⟨_, _, hlanes⟩ := delivered_in_order (Map.lawful hn) (Map.steady twoRows) hn hreach
  exact ⟨by decide +kernel, fun w => (hlanes w).1⟩

end Watermark.FastFlow.Network
