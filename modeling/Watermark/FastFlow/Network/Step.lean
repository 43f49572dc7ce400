import Watermark.FastFlow.Network.Model

/-!
# Step — what a step of the farm can do
-/

namespace Watermark.FastFlow.Network

open Function Reasoning

variable {τ ε γ : Type} {P : Program τ ε γ}

/-- What a step hands over: the load balancer gives worker `w` a task, or the gatherer takes one of
its results. -/
inductive Transfer (n : ℕ) (τ : Type) where
  | sent (w : Fin n) (task : τ)
  | gathered (w : Fin n) (task : τ)

def State.transfers (s : State P) : Action P.threads → List (Transfer P.threads τ)
  | .lb =>
    match s.lb, following s.nextw with
    | .schedule task _, some w => if (s.put w (.task task)).isSome then [.sent w task] else []
    | _, _ => []
  | .worker _ _ => []
  | .gatherer =>
    match s.gatherer, following s.nextr with
    | .gather, some w =>
      match s.offline w, s.outq w with
      | false, .task task :: _ => [.gathered w task]
      | _, _ => []
    | _, _ => []

/-- A step, whichever thread takes it.  A thread that finds a queue full or empty at most moves on
to the next worker. -/
inductive Step (s : State P) : List (Transfer P.threads τ) → State P → Prop where
  | idle (nextw nextr : Option (Fin P.threads)) : Step s [] { s with nextw, nextr }
  | skip {e e' : ε} (hl : s.lb = .svc e) (he : P.emit s.memory.heap e = some (none, e')) :
      Step s [] { s with lb := .svc e' }
  | hold {e e' : ε} {task : τ} (hl : s.lb = .svc e)
      (he : P.emit s.memory.heap e = some (some task, e')) :
      Step s [] { s with lb := .schedule task e' }
  | close {e : ε} (hl : s.lb = .svc e) (he : P.emit s.memory.heap e = none) :
      Step s [] { s with lb := .broadcast 0 [] }
  | send {task : τ} {e : ε} (w : Fin P.threads) (hl : s.lb = .schedule task e)
      (hq : s.inq w = []) :
      Step s [.sent w task]
        { s with nextw := some w, inq := update s.inq w [.task task], lb := .svc e }
  | notify {i : ℕ} {retry : List (Fin P.threads)} (hi : i < P.threads)
      (hl : s.lb = .broadcast i retry) (hq : s.inq ⟨i, hi⟩ = []) :
      Step s [] { s with inq := update s.inq ⟨i, hi⟩ [.eos], lb := .broadcast (i + 1) retry }
  | postpone {i : ℕ} {retry : List (Fin P.threads)} (hi : i < P.threads)
      (hl : s.lb = .broadcast i retry) :
      Step s [] { s with lb := .broadcast (i + 1) (⟨i, hi⟩ :: retry) }
  | tryAgain {i : ℕ} {retry : List (Fin P.threads)} (hi : ¬i < P.threads)
      (hl : s.lb = .broadcast i retry) : Step s [] { s with lb := .again retry }
  | notifyAgain {w : Fin P.threads} {retry : List (Fin P.threads)} (hl : s.lb = .again (w :: retry))
      (hq : s.inq w = []) :
      Step s [] { s with inq := update s.inq w [.eos], lb := .again retry }
  | closed (hl : s.lb = .again []) : Step s [] { s with lb := .ended }
  | take {i : Fin P.threads} {task : τ} {q : List (Message τ)} (hw : s.worker i = .pop)
      (hq : s.inq i = .task task :: q) :
      Step s [] ({ s with inq := update s.inq i q }.setWorker i
        (.svc (.mark task (P.svc s.memory.heap task))))
  | takeEos {i : Fin P.threads} {q : List (Message τ)} (hw : s.worker i = .pop)
      (hq : s.inq i = .eos :: q) :
      Step s [] ({ s with inq := update s.inq i q }.setWorker i (.push .eos))
  | mark {i : Fin P.threads} {task : τ} {t t' : Marking} {memory : Memory}
      (hw : s.worker i = .svc (.mark task t)) (ht : t.step P.overlay s.memory = some (memory, t')) :
      Step s [] ({ s with memory }.setWorker i (.svc (.mark task t')))
  | testStamp {i : Fin P.threads} {task : τ} {t : Marking}
      (hw : s.worker i = .svc (.mark task t)) (ht : t.todo = []) (hc : s.counter_worker = 0) :
      Step s [] (s.setWorker i (.svc (.stamp task)))
  | testReturn {i : Fin P.threads} {task : τ} {t : Marking}
      (hw : s.worker i = .svc (.mark task t)) (ht : t.todo = []) (hc : s.counter_worker ≠ 0) :
      Step s [] (s.setWorker i (.push (.task task)))
  | stamp {i : Fin P.threads} {task : τ} (ms : ℤ) (hw : s.worker i = .svc (.stamp task)) :
      Step s [] ({ s with ideal_service_worker := P.stamp s.ideal_service_worker ms }.setWorker i
        (.svc (.bump task)))
  | bump {i : Fin P.threads} {task : τ} (hw : s.worker i = .svc (.bump task)) :
      Step s [] ({ s with counter_worker := s.counter_worker + 1 }.setWorker i (.push (.task task)))
  | give {i : Fin P.threads} {task : τ} (hw : s.worker i = .push (.task task)) :
      Step s []
        ({ s with outq := update s.outq i (s.outq i ++ [Message.task task]) }.setWorker i .pop)
  | giveEos {i : Fin P.threads} (hw : s.worker i = .push .eos) :
      Step s [] ({ s with outq := update s.outq i (s.outq i ++ [Message.eos]) }.setWorker i .ended)
  | gather {w : Fin P.threads} {task : τ} {q : List (Message τ)} (hg : s.gatherer = .gather)
      (ho : s.offline w = false) (hq : s.outq w = .task task :: q) :
      Step s [.gathered w task]
        { s with nextr := some w, outq := update s.outq w q, gatherer := .svc task }
  | gatherEos {w : Fin P.threads} {q : List (Message τ)} (hg : s.gatherer = .gather)
      (ho : s.offline w = false) (hq : s.outq w = .eos :: q) :
      Step s [] { s with
        nextr := some w
        outq := update s.outq w q
        offline := update s.offline w true
        neos := s.neos + 1
        gatherer := whileRunning (s.neos + 1) P.threads }
  | collect {task : τ} (hg : s.gatherer = .svc task) :
      Step s [] { s with
        collector := P.collect s.collector task
        collected := s.collected ++ [task]
        gatherer := whileRunning s.neos P.threads }

theorem put_of_nil {s : State P} {w : Fin P.threads} {m : Message τ} (h : s.inq w = []) :
    s.put w m = some { s with inq := update s.inq w [m] } := by
  unfold State.put
  rw [h]
  rfl

theorem put_eq_some {s s' : State P} {w : Fin P.threads} {m : Message τ}
    (h : s.put w m = some s') : s.inq w = [] ∧ s' = { s with inq := update s.inq w [m] } := by
  unfold State.put at h
  split at h
  · rename_i hroom
    have hnil : s.inq w = [] := List.length_eq_zero_iff.mp (Nat.lt_one_iff.mp hroom)
    cases h
    rw [hnil]
    exact ⟨rfl, rfl⟩
  · cases h

theorem lbStep_cases {s t : State P} (h : s.lbStep = some t) : Step s (s.transfers .lb) t := by
  unfold State.lbStep at h
  unfold State.transfers
  split at h
  · rename_i e hl
    rw [hl]
    split at h
    · rename_i he
      cases h
      exact .close hl he
    · rename_i e' he
      cases h
      exact .skip hl he
    · rename_i task e' he
      cases h
      exact .hold hl he
  · rename_i task e hl
    rw [hl]
    split at h
    · cases h
    · rename_i w hw
      rw [hw]
      split at h
      · rename_i s' hput
        obtain ⟨hq, rfl⟩ := put_eq_some hput
        cases h
        simp only [hput, Option.isSome_some, if_true]
        exact .send w hl hq
      · rename_i hput
        cases h
        simp only [hput, Option.isSome_none, Bool.false_eq_true, if_false]
        exact .idle _ _
  · rename_i i retry hl
    rw [hl]
    split at h
    · rename_i hi
      split at h
      · rename_i s' hput
        obtain ⟨hq, rfl⟩ := put_eq_some hput
        cases h
        exact .notify hi hl hq
      · cases h
        exact .postpone hi hl
    · rename_i hi
      cases h
      exact .tryAgain hi hl
  · rename_i hl
    rw [hl]
    cases h
    exact .closed hl
  · rename_i w retry hl
    rw [hl]
    split at h
    · rename_i s' hput
      obtain ⟨hq, rfl⟩ := put_eq_some hput
      cases h
      exact .notifyAgain hl hq
    · cases h
      exact .idle s.nextw s.nextr
  · cases h

theorem workerStep_cases {s t : State P} {i : Fin P.threads} {ms : ℤ}
    (h : s.workerStep i ms = some t) : Step s [] t := by
  unfold State.workerStep at h
  split at h
  · rename_i hw
    split at h
    · cases h
      exact .idle s.nextw s.nextr
    · rename_i q hq
      cases h
      exact .takeEos hw hq
    · rename_i task q hq
      cases h
      exact .take hw hq
  · rename_i task m hw
    split at h
    · rename_i memory t' ht
      cases h
      exact .mark hw ht
    · rename_i hnone
      have htodo := Marking.step_eq_none_iff.mp hnone
      split at h
      · rename_i hc
        cases h
        exact .testStamp hw htodo hc
      · rename_i hc
        cases h
        exact .testReturn hw htodo hc
  · rename_i task hw
    cases h
    exact .stamp ms hw
  · rename_i task hw
    cases h
    exact .bump hw
  · rename_i task hw
    cases h
    exact .give hw
  · rename_i hw
    cases h
    exact .giveEos hw
  · cases h

theorem gathererStep_cases {s t : State P} (h : s.gathererStep = some t) :
    Step s (s.transfers .gatherer) t := by
  unfold State.gathererStep at h
  unfold State.transfers
  split at h
  · rename_i hg
    rw [hg]
    split at h
    · cases h
    · rename_i w hw
      rw [hw]
      split at h
      · rename_i ho
        cases h
        simp only [ho]
        exact .idle _ _
      · rename_i ho
        rw [Bool.not_eq_true] at ho
        simp only [ho]
        split at h
        · rename_i hq
          cases h
          simp only [hq]
          exact .idle _ _
        · rename_i q hq
          cases h
          simp only [hq]
          exact .gatherEos hg ho hq
        · rename_i task q hq
          cases h
          simp only [hq]
          exact .gather hg ho hq
  · rename_i task hg
    rw [hg]
    cases h
    exact .collect hg
  · cases h

theorem step_cases {s t : State P} {a : Action P.threads} (h : (system P).step s a = some t) :
    Step s (s.transfers a) t := by
  cases a with
  | lb => exact lbStep_cases h
  | worker i ms => exact workerStep_cases h
  | gatherer => exact gathererStep_cases h

theorem step_invariant {I : State P → Prop} (h0 : I (system P).init)
    (hstep : ∀ s es t, I s → Step s es t → I t) {s : State P} (hs : (system P).Reachable s) : I s :=
  hs.invariant h0 fun s _ t _ ih ha => hstep s _ t ih (step_cases ha)

end Watermark.FastFlow.Network
