import Mathlib.Data.List.Nodup
import Watermark.FastFlow.Network.Step
import Watermark.Reasoning.Threads

/-!
# Lanes — the end of the stream on its way through a worker

A worker and the two queues beside it are a lane.  The load balancer puts one `FF_EOS` into each
lane after all tasks, and behind it the lane falls silent part by part.
-/

namespace Watermark.FastFlow.Network

open Function Reasoning

variable {τ ε γ : Type} {P : Program τ ε γ} {n : ℕ}

/-- The worker has not received `FF_EOS`. -/
def Worker.live : Worker τ → Bool
  | .pop => true
  | .svc _ => true
  | .push (.task _) => true
  | _ => false

/-- The load balancer has put `FF_EOS` into the lane of worker `i`. -/
def LoadBalancer.served : LoadBalancer n τ ε → Fin n → Bool
  | .broadcast k retry, i => decide (i.1 < k ∧ i ∉ retry)
  | .again retry, i => decide (i ∉ retry)
  | .ended, _ => true
  | _, _ => false

/-- The states of a lane: the queue into the worker, the worker, the queue out of it, and whether
the gatherer has received its `FF_EOS`. -/
inductive Lane : Bool → List (Message τ) → Worker τ → List (Message τ) → Bool → Prop where
  | empty {w : Worker τ} (l : List τ) (hw : w.live = true) : Lane false [] w (l.map .task) false
  | waiting {w : Worker τ} (task : τ) (l : List τ) (hw : w.live = true) :
      Lane false [.task task] w (l.map .task) false
  | served {w : Worker τ} (l : List τ) (hw : w.live = true) :
      Lane true [.eos] w (l.map .task) false
  | passing (l : List τ) : Lane true [] (.push .eos) (l.map .task) false
  | ended (l : List τ) : Lane true [] .ended (l.map .task ++ [.eos]) false
  | offline : Lane true [] .ended [] true

namespace Lane

variable {served offline : Bool} {inq outq : List (Message τ)} {w : Worker τ}

theorem send (h : Lane served [] w outq offline) (hserved : served = false) (task : τ) :
    Lane false [.task task] w outq offline := by
  subst hserved
  cases h with
  | empty l hw => exact .waiting task l hw

theorem notify (h : Lane served [] w outq offline) (hserved : served = false) :
    Lane true [.eos] w outq offline := by
  subst hserved
  cases h with
  | empty l hw => exact .served l hw

theorem take {task : τ} {q : List (Message τ)} (h : Lane served (.task task :: q) w outq offline)
    {w' : Worker τ} (hw' : w'.live = true) : q = [] ∧ Lane served q w' outq offline := by
  cases h with
  | waiting task l _ => exact ⟨rfl, .empty l hw'⟩

theorem takeEos {q : List (Message τ)} (h : Lane served (.eos :: q) w outq offline) :
    q = [] ∧ Lane served q (.push .eos) outq offline := by
  cases h with
  | served l _ => exact ⟨rfl, .passing l⟩

-- A live worker goes on in whatever way it likes,
theorem live (h : Lane served inq w outq offline) (hw : w.live = true) {w' : Worker τ}
    (hw' : w'.live = true) : Lane served inq w' outq offline := by
  cases h with
  | empty l _ => exact .empty l hw'
  | waiting task l _ => exact .waiting task l hw'
  | served l _ => exact .served l hw'
  | passing l => cases hw
  | ended l => cases hw
  | offline => cases hw

theorem map_concat (l : List τ) (task : τ) :
    l.map Message.task ++ [.task task] = (l ++ [task]).map .task := by
  rw [List.map_append]
  rfl

-- and its results come before its `FF_EOS`.
theorem give (h : Lane served inq w outq offline) (hw : w.live = true) (task : τ) :
    Lane served inq w (outq ++ [.task task]) offline := by
  cases h with
  | empty l _ =>
      rw [map_concat]
      exact .empty _ hw
  | waiting t l _ =>
      rw [map_concat]
      exact .waiting t _ hw
  | served l _ =>
      rw [map_concat]
      exact .served _ hw
  | passing l => cases hw
  | ended l => cases hw
  | offline => cases hw

theorem giveEos (h : Lane served inq (.push .eos) outq offline) :
    Lane served inq .ended (outq ++ [.eos]) offline := by
  cases h with
  | empty l hw => cases hw
  | waiting t l hw => cases hw
  | served l hw => cases hw
  | passing l => exact .ended l

theorem eq_map_of_cons {task : τ} {q : List (Message τ)} {l : List τ}
    (h : l.map Message.task = .task task :: q) : ∃ l' : List τ, q = l'.map .task := by
  cases l with
  | nil => cases h
  | cons x l =>
      rw [List.map_cons] at h
      exact ⟨l, (List.cons.inj h).2.symm⟩

theorem gather {task : τ} {q : List (Message τ)} (h : Lane served inq w (.task task :: q) offline) :
    Lane served inq w q offline := by
  generalize hq : Message.task task :: q = outq at h
  cases h with
  | empty l hw =>
      obtain ⟨l', rfl⟩ := eq_map_of_cons hq.symm
      exact .empty l' hw
  | waiting t l hw =>
      obtain ⟨l', rfl⟩ := eq_map_of_cons hq.symm
      exact .waiting t l' hw
  | served l hw =>
      obtain ⟨l', rfl⟩ := eq_map_of_cons hq.symm
      exact .served l' hw
  | passing l =>
      obtain ⟨l', rfl⟩ := eq_map_of_cons hq.symm
      exact .passing l'
  | ended l =>
      cases l with
      | nil => cases hq
      | cons x l =>
          rw [(List.cons.inj hq).2]
          exact .ended l
  | offline => cases hq

theorem ne_map_of_eos {q : List (Message τ)} (l : List τ) : Message.eos :: q ≠ l.map .task := by
  cases l with
  | nil => exact List.cons_ne_nil _ _
  | cons x l =>
      intro h
      cases (List.cons.inj h).1

theorem gatherEos {q : List (Message τ)} (h : Lane served inq w (.eos :: q) offline) :
    q = [] ∧ Lane served inq w q true := by
  generalize hq : Message.eos :: q = outq at h
  cases h with
  | empty l hw => exact absurd hq (ne_map_of_eos l)
  | waiting t l hw => exact absurd hq (ne_map_of_eos l)
  | served l hw => exact absurd hq (ne_map_of_eos l)
  | passing l => exact absurd hq (ne_map_of_eos l)
  | ended l =>
      cases l with
      | nil =>
          rw [(List.cons.inj hq).2]
          exact ⟨rfl, .offline⟩
      | cons x l => cases (List.cons.inj hq).1
  | offline => cases hq

theorem length_inq (h : Lane served inq w outq offline) : inq.length ≤ ondemand := by
  cases h <;> exact Nat.le_of_ble_eq_true rfl

theorem inq_of_ended (h : Lane served inq .ended outq offline) : inq = [] := by
  cases h with
  | empty l hw => rfl
  | waiting task l hw => cases hw
  | served l hw => cases hw
  | ended l => rfl
  | offline => rfl

-- `FF_EOS` has been taken out of the queue into the worker.
theorem of_served (h : Lane true [] w outq offline) :
    w = .push .eos ∨ w = .ended ∧ (offline = true ∨ outq ≠ []) := by
  cases h with
  | passing l => exact Or.inl rfl
  | ended l =>
      exact Or.inr ⟨rfl, Or.inr (List.append_ne_nil_of_right_ne_nil _ (List.cons_ne_nil _ _))⟩
  | offline => exact Or.inr ⟨rfl, Or.inl rfl⟩

-- What is left of a lane when the gatherer has received its `FF_EOS`.
theorem of_offline (h : Lane served inq w outq true) :
    served = true ∧ inq = [] ∧ w = .ended ∧ outq = [] := by
  cases h
  exact ⟨rfl, rfl, rfl, rfl⟩

end Lane

/-! ## All lanes -/

/-- The workers of `broadcast_task`: those to be tried again are different ones that it has come
past. -/
def LoadBalancer.WellFormed : LoadBalancer n τ ε → Prop
  | .broadcast i retry => retry.Nodup ∧ ∀ w ∈ retry, w.1 < i
  | .again retry => retry.Nodup
  | _ => True

def Gatherer.running : Gatherer τ → Bool
  | .ended => false
  | _ => true

namespace State

/-- How many workers are offline. -/
def offlines (s : State P) : ℕ := ∑ i, if s.offline i then 1 else 0

structure Inv (s : State P) : Prop where
  lane : ∀ i, Lane (s.lb.served i) (s.inq i) (s.worker i) (s.outq i) (s.offline i)
  retry : s.lb.WellFormed
  neos : s.neos = s.offlines
  running : s.gatherer.running = true ↔ s.neos < P.threads

end State

theorem running_whileRunning (neos n : ℕ) :
    (whileRunning neos n : Gatherer τ).running = true ↔ neos < n := by
  unfold whileRunning
  split
  · rename_i h
    exact ⟨fun _ => h, fun _ => rfl⟩
  · rename_i h
    exact ⟨fun hr => (by cases hr), fun hlt => absurd hlt h⟩

theorem inv_init (hn : 0 < P.threads) : (system P).init.Inv where
  lane _ := .empty [] rfl
  retry := trivial
  neos := by
    show 0 = ∑ i : Fin P.threads, 0
    rw [Finset.sum_const_zero]
  running := ⟨fun _ => hn, fun _ => rfl⟩

/-! ## What a step keeps -/

section Served

variable {i : ℕ} {hi : i < n} {w j : Fin n} {retry : List (Fin n)}

theorem served_broadcast (k : ℕ) : (LoadBalancer.broadcast k retry : LoadBalancer n τ ε).served j =
    decide (j.1 < k ∧ j ∉ retry) := rfl

theorem served_again_eq : (LoadBalancer.again retry : LoadBalancer n τ ε).served j =
    decide (j ∉ retry) := rfl

theorem served_zero : (LoadBalancer.broadcast 0 [] : LoadBalancer n τ ε).served j = false := by
  rw [served_broadcast]
  exact decide_eq_false fun h => Nat.not_lt_zero _ h.1

theorem not_served_self :
    (LoadBalancer.broadcast i retry : LoadBalancer n τ ε).served ⟨i, hi⟩ = false := by
  rw [served_broadcast]
  exact decide_eq_false fun h => Nat.lt_irrefl _ h.1

theorem served_notify_self (hretry : ∀ w ∈ retry, w.1 < i) :
    (LoadBalancer.broadcast (i + 1) retry : LoadBalancer n τ ε).served ⟨i, hi⟩ = true :=
  decide_eq_true ⟨Nat.lt_succ_self i, fun hmem => Nat.lt_irrefl _ (hretry _ hmem)⟩

theorem served_notify (hj : j ≠ ⟨i, hi⟩) :
    (LoadBalancer.broadcast (i + 1) retry : LoadBalancer n τ ε).served j =
      (LoadBalancer.broadcast i retry : LoadBalancer n τ ε).served j := by
  have hne : j.1 ≠ i := fun heq => hj (Fin.ext heq)
  refine decide_eq_decide.mpr (and_congr_left fun _ => ?_)
  omega

theorem served_postpone :
    (LoadBalancer.broadcast (i + 1) (⟨i, hi⟩ :: retry) : LoadBalancer n τ ε).served j =
      (LoadBalancer.broadcast i retry : LoadBalancer n τ ε).served j := by
  refine decide_eq_decide.mpr ?_
  have hval : j = ⟨i, hi⟩ ↔ j.1 = i := Fin.ext_iff
  rw [List.mem_cons, not_or, hval]
  constructor
  · rintro ⟨hlt, hne, hnot⟩
    exact ⟨by omega, hnot⟩
  · rintro ⟨hlt, hnot⟩
    exact ⟨by omega, by omega, hnot⟩

theorem served_tryAgain (hi : ¬i < n) :
    (LoadBalancer.again retry : LoadBalancer n τ ε).served j =
      (LoadBalancer.broadcast i retry : LoadBalancer n τ ε).served j := by
  refine decide_eq_decide.mpr ⟨fun hnot => ⟨?_, hnot⟩, fun h => h.2⟩
  have hlt := j.2
  omega

theorem served_again (hj : j ≠ w) :
    (LoadBalancer.again retry : LoadBalancer n τ ε).served j =
      (LoadBalancer.again (w :: retry) : LoadBalancer n τ ε).served j := by
  refine decide_eq_decide.mpr ?_
  rw [List.mem_cons, not_or]
  exact ⟨fun hnot => ⟨hj, hnot⟩, fun h => h.2⟩

end Served

variable {s t : State P}

-- A step changes one lane.
theorem State.Inv.lane_of (h : s.Inv) (w : Fin P.threads)
    (hw : Lane (t.lb.served w) (t.inq w) (t.worker w) (t.outq w) (t.offline w))
    (hother : ∀ j, j ≠ w → t.lb.served j = s.lb.served j ∧ t.inq j = s.inq j ∧
      t.worker j = s.worker j ∧ t.outq j = s.outq j ∧ t.offline j = s.offline j)
    (i : Fin P.threads) :
    Lane (t.lb.served i) (t.inq i) (t.worker i) (t.outq i) (t.offline i) := by
  by_cases hi : i = w
  · rw [hi]
    exact hw
  · obtain ⟨hserved, hinq, hworker, houtq, hoffline⟩ := hother i hi
    rw [hserved, hinq, hworker, houtq, hoffline]
    exact h.lane i

-- A step of a worker that has not received `FF_EOS`.
theorem State.Inv.setWorker (h : s.Inv) {i : Fin P.threads} (hlive : (s.worker i).live = true)
    {w : Worker τ} (hw : w.live = true) : (s.setWorker i w).Inv where
  lane := by
    refine h.lane_of i ?_ fun j hj => ⟨rfl, rfl, update_of_ne hj _ _, rfl, rfl⟩
    simp only [State.setWorker, update_self]
    exact (h.lane i).live hlive hw
  retry := h.retry
  neos := h.neos
  running := h.running

theorem inv_lb {lb : LoadBalancer P.threads τ ε} (h : s.Inv) (hwf : lb.WellFormed)
    (hserved : ∀ i, lb.served i = s.lb.served i) : State.Inv { s with lb } where
  lane i := by
    show Lane (lb.served i) _ _ _ _
    rw [hserved i]
    exact h.lane i
  retry := hwf
  neos := h.neos
  running := h.running

theorem inv_put {m : Message τ} {lb : LoadBalancer P.threads τ ε}
    (nextw : Option (Fin P.threads)) {w : Fin P.threads} (h : s.Inv) (hwf : lb.WellFormed)
    (hw : Lane (lb.served w) [m] (s.worker w) (s.outq w) (s.offline w))
    (hserved : ∀ i, i ≠ w → lb.served i = s.lb.served i) :
    State.Inv { s with nextw, inq := update s.inq w [m], lb } where
  lane := by
    refine h.lane_of w ?_ fun j hj => ⟨hserved j hj, update_of_ne hj _ _, rfl, rfl, rfl⟩
    simp only [update_self]
    exact hw
  retry := hwf
  neos := h.neos
  running := h.running

theorem inv_take {q : List (Message τ)} {w : Worker τ} {i : Fin P.threads} (h : s.Inv)
    (hw : Lane (s.lb.served i) q w (s.outq i) (s.offline i)) :
    ({ s with inq := update s.inq i q }.setWorker i w).Inv where
  lane := by
    refine h.lane_of i ?_ fun j hj => ⟨rfl, update_of_ne hj _ _, update_of_ne hj _ _, rfl, rfl⟩
    simp only [State.setWorker, update_self]
    exact hw
  retry := h.retry
  neos := h.neos
  running := h.running

theorem inv_give {q : List (Message τ)} {w : Worker τ} {i : Fin P.threads} (h : s.Inv)
    (hw : Lane (s.lb.served i) (s.inq i) w q (s.offline i)) :
    ({ s with outq := update s.outq i q }.setWorker i w).Inv where
  lane := by
    refine h.lane_of i ?_ fun j hj => ⟨rfl, rfl, update_of_ne hj _ _, update_of_ne hj _ _, rfl⟩
    simp only [State.setWorker, update_self]
    exact hw
  retry := h.retry
  neos := h.neos
  running := h.running

theorem inv_step {es : List (Transfer P.threads τ)} (h : s.Inv) (hs : Step s es t) : t.Inv := by
  cases hs with
  | idle nextw nextr => exact ⟨h.lane, h.retry, h.neos, h.running⟩
  | skip hl he =>
      refine inv_lb h trivial fun i => ?_
      rw [hl]
      rfl
  | hold hl he =>
      refine inv_lb h trivial fun i => ?_
      rw [hl]
      rfl
  | close hl he =>
      refine inv_lb h ⟨List.nodup_nil, fun w hw => (by cases hw)⟩ fun i => ?_
      rw [hl, served_zero]
      rfl
  | @send task e w hl hq =>
      have hlane := h.lane w
      rw [hq, hl] at hlane
      refine inv_put _ h trivial (hlane.send rfl task) fun i _ => ?_
      rw [hl]
      rfl
  | @notify i retry hi hl hq =>
      have hwf := h.retry
      have hlane := h.lane ⟨i, hi⟩
      rw [hl] at hwf
      rw [hq, hl] at hlane
      refine inv_put s.nextw h ⟨hwf.1, fun w hw => Nat.lt_succ_of_lt (hwf.2 w hw)⟩ ?_
        fun j hj => ?_
      · rw [served_notify_self hwf.2]
        exact hlane.notify not_served_self
      · rw [hl, served_notify hj]
  | @postpone i retry hi hl =>
      have hwf := h.retry
      rw [hl] at hwf
      refine inv_lb h ⟨?_, fun w hw => ?_⟩ fun j => ?_
      · exact List.nodup_cons.mpr ⟨fun hmem => Nat.lt_irrefl _ (hwf.2 _ hmem), hwf.1⟩
      · rcases List.mem_cons.mp hw with rfl | hw
        · exact Nat.lt_succ_self i
        · exact Nat.lt_succ_of_lt (hwf.2 w hw)
      · rw [hl, served_postpone]
  | @tryAgain i retry hi hl =>
      have hwf := h.retry
      rw [hl] at hwf
      refine inv_lb h hwf.1 fun j => ?_
      rw [hl, served_tryAgain hi]
  | @notifyAgain w retry hl hq =>
      have hwf := h.retry
      have hlane := h.lane w
      rw [hl] at hwf
      rw [hq, hl] at hlane
      obtain ⟨hnot, hnodup⟩ := List.nodup_cons.mp hwf
      refine inv_put s.nextw h hnodup ?_ fun j hj => ?_
      · have hserved : (LoadBalancer.again retry : LoadBalancer P.threads τ ε).served w = true :=
          decide_eq_true hnot
        rw [hserved]
        apply hlane.notify
        rw [served_again_eq]
        exact decide_eq_false fun hne => hne List.mem_cons_self
      · rw [hl, served_again hj]
  | closed hl =>
      refine inv_lb h trivial fun j => ?_
      rw [hl, served_again_eq]
      exact (decide_eq_true List.not_mem_nil).symm
  | @take i task q hw hq =>
      have hlane := h.lane i
      rw [hq] at hlane
      exact inv_take h (hlane.take rfl).2
  | @takeEos i q hw hq =>
      have hlane := h.lane i
      rw [hq] at hlane
      exact inv_take h hlane.takeEos.2
  | @mark i task t t' memory hw ht =>
      have hinv : State.Inv { s with memory } := ⟨h.lane, h.retry, h.neos, h.running⟩
      exact hinv.setWorker (by rw [hw]; rfl) rfl
  | testStamp hw ht hc => exact h.setWorker (by rw [hw]; rfl) rfl
  | testReturn hw ht hc => exact h.setWorker (by rw [hw]; rfl) rfl
  | @stamp i task ms hw =>
      have hinv : State.Inv { s with
        ideal_service_worker := P.stamp s.ideal_service_worker ms } :=
        ⟨h.lane, h.retry, h.neos, h.running⟩
      exact hinv.setWorker (by rw [hw]; rfl) rfl
  | @bump i task hw =>
      have hinv : State.Inv { s with counter_worker := s.counter_worker + 1 } :=
        ⟨h.lane, h.retry, h.neos, h.running⟩
      exact hinv.setWorker (by rw [hw]; rfl) rfl
  | @give i task hw =>
      have hlane := (h.lane i).give (by rw [hw]; rfl) task
      exact inv_give h (hlane.live (by rw [hw]; rfl) rfl)
  | @giveEos i hw =>
      have hlane := h.lane i
      rw [hw] at hlane
      exact inv_give h hlane.giveEos
  | @gather w task q hg ho hq =>
      have hlane := h.lane w
      rw [hq] at hlane
      refine ⟨h.lane_of w ?_ fun j hj => ⟨rfl, rfl, rfl, update_of_ne hj _ _, rfl⟩, h.retry, h.neos,
        ?_⟩
      · simp only [update_self]
        exact hlane.gather
      · have hrunning := h.running
        rw [hg] at hrunning
        exact hrunning
  | @gatherEos w q hg ho hq =>
      have hlane := h.lane w
      rw [hq] at hlane
      refine ⟨h.lane_of w ?_ fun j hj => ⟨rfl, rfl, rfl, update_of_ne hj _ _, update_of_ne hj _ _⟩,
        h.retry, ?_, running_whileRunning _ _⟩
      · simp only [update_self]
        exact hlane.gatherEos.2
      · have hsum := sum_update (fun b : Bool => if b then 1 else 0) s.offline w true
        rw [ho] at hsum
        have hneos := h.neos
        show s.neos + 1 = ∑ i, if update s.offline w true i then 1 else 0
        change s.neos = ∑ i, if s.offline i then 1 else 0 at hneos
        simp only [Bool.false_eq_true, if_false, if_true, Nat.add_zero] at hsum
        omega
  | collect hg => exact ⟨h.lane, h.retry, h.neos, running_whileRunning _ _⟩

theorem inv (hn : 0 < P.threads) (hs : (system P).Reachable s) : s.Inv :=
  step_invariant (inv_init hn) (fun _ _ _ h hstep => inv_step h hstep) hs

end Watermark.FastFlow.Network
