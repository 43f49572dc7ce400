import Watermark.FastFlow.Network.Ending

/-!
# Progress — the farm ends when no thread is starved

The threads poll their queues, so a run can go on for ever: a worker may find its queue empty again
and again.  What is not polling is paid for by a measure, and a run of nothing but polling leaves
some thread out.
-/

namespace Watermark.FastFlow.Network

open Function Reasoning

variable {τ ε γ : Type} {P : Program τ ε γ} {future : ε → List τ} {fuel : ε → ℕ}

/-- A step that leaves everything but the places where the queues are tried next. -/
def Idle (s t : State P) : Prop := ∃ nextw nextr, t = { s with nextw, nextr }

/-! ## The measure -/

/-- The steps of a call on the task. -/
def svcFuel (P : Program τ ε γ) (task : τ) : ℕ := (P.svc (loadHeap P.copies) task).fuel

def unsent (P : Program τ ε γ) (future : ε → List τ) (fuel : ε → ℕ) (e : ε) : ℕ :=
  ((future e).map fun task => svcFuel P task + 9).sum + fuel e

def LoadBalancer.measure (P : Program τ ε γ) (future : ε → List τ) (fuel : ε → ℕ) :
    LoadBalancer P.threads τ ε → ℕ
  | .svc e => unsent P future fuel e + 5 * P.threads + 3
  | .schedule task e => svcFuel P task + 8 + unsent P future fuel e + 5 * P.threads + 3
  | .broadcast i retry => 5 * (P.threads - i) + 4 * retry.length + 2
  | .again retry => 4 * retry.length + 1
  | .ended => 0

def Message.measureIn (P : Program τ ε γ) : Message τ → ℕ
  | .task t => svcFuel P t + 7
  | .eos => 3

def Message.measureOut : Message τ → ℕ
  | .task _ => 2
  | .eos => 1

def Worker.measure : Worker τ → ℕ
  | .svc (.mark _ t) => t.fuel + 6
  | .svc (.stamp _) => 5
  | .svc (.bump _) => 4
  | .push (.task _) => 3
  | .push .eos => 2
  | _ => 0

def Gatherer.measure : Gatherer τ → ℕ
  | .svc _ => 1
  | _ => 0

def measureIn (P : Program τ ε γ) (q : List (Message τ)) : ℕ := (q.map (Message.measureIn P)).sum

def measureOut (q : List (Message τ)) : ℕ := (q.map Message.measureOut).sum

def State.measure (future : ε → List τ) (fuel : ε → ℕ) (s : State P) : ℕ :=
  s.lb.measure P future fuel + ∑ i, measureIn P (s.inq i) + ∑ i, (s.worker i).measure +
    ∑ i, measureOut (s.outq i) + s.gatherer.measure

theorem measure_whileRunning (neos n : ℕ) : (whileRunning neos n : Gatherer τ).measure = 0 := by
  unfold whileRunning
  split <;> rfl

section Queues

variable (task : τ) (q : List (Message τ))

theorem measureIn_nil : measureIn P [] = 0 := rfl

theorem measureIn_task : measureIn P (.task task :: q) = svcFuel P task + 7 + measureIn P q := rfl

theorem measureIn_eos : measureIn P (.eos :: q) = 3 + measureIn P q := rfl

theorem measureOut_task : measureOut (.task task :: q) = 2 + measureOut q := rfl

theorem measureOut_eos : measureOut (.eos :: q : List (Message τ)) = 1 + measureOut q := rfl

theorem measureOut_concat_task : measureOut (q ++ [.task task]) = measureOut q + 2 := by
  unfold measureOut
  rw [List.map_append, List.sum_append]
  rfl

theorem measureOut_concat_eos : measureOut (q ++ [.eos]) = measureOut q + 1 := by
  unfold measureOut
  rw [List.map_append, List.sum_append]
  rfl

end Queues

theorem measure_pop : (Worker.pop : Worker τ).measure = 0 := rfl

theorem measure_pushTask (task : τ) : (Worker.push (.task task)).measure = 3 := rfl

theorem measure_pushEos : (Worker.push .eos : Worker τ).measure = 2 := rfl

theorem measure_ended : (Worker.ended : Worker τ).measure = 0 := rfl

theorem measure_gather : (Gatherer.gather : Gatherer τ).measure = 0 := rfl

theorem measure_collect (task : τ) : (Gatherer.svc task).measure = 1 := rfl

section Sums

variable (s : State P) (i : Fin P.threads)

theorem sum_inq (q : List (Message τ)) :
    ∑ j, measureIn P (update s.inq i q j) + measureIn P (s.inq i) =
      ∑ j, measureIn P (s.inq j) + measureIn P q :=
  sum_update (measureIn P) s.inq i q

theorem sum_outq (q : List (Message τ)) :
    ∑ j, measureOut (update s.outq i q j) + measureOut (s.outq i) =
      ∑ j, measureOut (s.outq j) + measureOut q :=
  sum_update measureOut s.outq i q

theorem sum_worker (w : Worker τ) :
    ∑ j, (update s.worker i w j).measure + (s.worker i).measure =
      ∑ j, (s.worker j).measure + w.measure :=
  sum_update Worker.measure s.worker i w

end Sums

-- A worker that goes from one state to a smaller one.
theorem measure_setWorker {s : State P} {i : Fin P.threads} {v w : Worker τ} (hw : s.worker i = v)
    (hlt : w.measure < v.measure) :
    (s.setWorker i w).measure future fuel < s.measure future fuel := by
  have hworker := sum_worker s i w
  rw [hw] at hworker
  simp only [State.measure, State.setWorker]
  omega

theorem dims (L : P.Lawful future fuel) (hsteady : P.Steady) (hn : 0 < P.threads) {s : State P}
    (hs : (system P).Reachable s) : SameDims P.copies s.memory.heap := by
  obtain ⟨u, hu, hfollows⟩ := (simulation L hsteady hn).reachable hs
  rw [← hfollows.memory]
  exact (FastFlow.inv L hu.of_restrict).memory.dims

-- Every step but polling decreases the measure.
theorem measure_step (L : P.Lawful future fuel) {s t : State P}
    {es : List (Transfer P.threads τ)} (hdims : SameDims P.copies s.memory.heap)
    (h : Step s es t) :
    Idle s t ∨ t.measure future fuel < s.measure future fuel := by
  cases h with
  | idle nextw nextr => exact Or.inl ⟨nextw, nextr, rfl⟩
  | @skip e e' hl he =>
      apply Or.inr
      obtain ⟨hfuture, hfuel⟩ := L.skip _ _ _ hdims he
      simp only [State.measure, hl, LoadBalancer.measure, unsent, hfuture]
      omega
  | @hold e e' task hl he =>
      apply Or.inr
      obtain ⟨hfuture, hfuel⟩ := L.send _ _ _ _ hdims he
      simp only [State.measure, hl, LoadBalancer.measure, unsent, hfuture, List.map_cons,
        List.sum_cons]
      omega
  | @close e hl he =>
      apply Or.inr
      simp only [State.measure, hl, LoadBalancer.measure, List.length_nil]
      omega
  | @send task e w hl hq =>
      apply Or.inr
      have hsum := sum_inq s w [.task task]
      rw [hq, measureIn_nil, measureIn_task, measureIn_nil] at hsum
      simp only [State.measure, hl, LoadBalancer.measure]
      omega
  | @notify i retry hi hl hq =>
      apply Or.inr
      have hsum := sum_inq s ⟨i, hi⟩ [.eos]
      rw [hq, measureIn_nil, measureIn_eos, measureIn_nil] at hsum
      simp only [State.measure, hl, LoadBalancer.measure]
      omega
  | @postpone i retry hi hl =>
      apply Or.inr
      simp only [State.measure, hl, LoadBalancer.measure, List.length_cons]
      omega
  | @tryAgain i retry hi hl =>
      apply Or.inr
      simp only [State.measure, hl, LoadBalancer.measure]
      omega
  | @notifyAgain w retry hl hq =>
      apply Or.inr
      have hsum := sum_inq s w [.eos]
      rw [hq, measureIn_nil, measureIn_eos, measureIn_nil] at hsum
      simp only [State.measure, hl, LoadBalancer.measure, List.length_cons]
      omega
  | closed hl =>
      apply Or.inr
      simp only [State.measure, hl, LoadBalancer.measure]
      omega
  | @take i task q hw hq =>
      apply Or.inr
      have hsum := sum_inq s i q
      have hworker := sum_worker s i (.svc (.mark task (P.svc s.memory.heap task)))
      have hnew : (Worker.svc (.mark task (P.svc s.memory.heap task))).measure =
          svcFuel P task + 6 := by
        rw [L.svc_congr _ _ hdims]
        rfl
      rw [hq, measureIn_task] at hsum
      rw [hw, hnew, measure_pop] at hworker
      simp only [State.measure, State.setWorker]
      omega
  | @takeEos i q hw hq =>
      apply Or.inr
      have hsum := sum_inq s i q
      have hworker := sum_worker s i (.push .eos)
      rw [hq, measureIn_eos] at hsum
      rw [hw, measure_pop, measure_pushEos] at hworker
      simp only [State.measure, State.setWorker]
      omega
  | @mark i task t t' memory hw ht =>
      apply Or.inr
      have hfuel := Marking.fuel_step ht
      have hlt : (Worker.svc (.mark task t')).measure < (Worker.svc (.mark task t)).measure := by
        show t'.fuel + 6 < t.fuel + 6
        omega
      exact measure_setWorker hw hlt
  | testStamp hw ht hc =>
      exact Or.inr (measure_setWorker hw (Nat.lt_add_left _ (Nat.lt_succ_self 5)))
  | testReturn hw ht hc => exact Or.inr (measure_setWorker hw (by change 3 < _ + 6; omega))
  | stamp ms hw => exact Or.inr (measure_setWorker hw (Nat.lt_succ_self 4))
  | bump hw => exact Or.inr (measure_setWorker hw (Nat.lt_succ_self 3))
  | @give i task hw =>
      apply Or.inr
      have hsum := sum_outq s i (s.outq i ++ [.task task])
      have hworker := sum_worker s i .pop
      rw [measureOut_concat_task] at hsum
      rw [hw, measure_pop, measure_pushTask] at hworker
      simp only [State.measure, State.setWorker]
      omega
  | @giveEos i hw =>
      apply Or.inr
      have hsum := sum_outq s i (s.outq i ++ [.eos])
      have hworker := sum_worker s i .ended
      rw [measureOut_concat_eos] at hsum
      rw [hw, measure_pushEos, measure_ended] at hworker
      simp only [State.measure, State.setWorker]
      omega
  | @gather w task q hg ho hq =>
      apply Or.inr
      have hsum := sum_outq s w q
      rw [hq, measureOut_task] at hsum
      simp only [State.measure, hg, measure_gather, measure_collect]
      omega
  | @gatherEos w q hg ho hq =>
      apply Or.inr
      have hsum := sum_outq s w q
      rw [hq, measureOut_eos] at hsum
      simp only [State.measure, hg, measure_whileRunning, measure_gather]
      omega
  | @collect task hg =>
      apply Or.inr
      simp only [State.measure, hg, measure_whileRunning, measure_collect]
      omega

/-! ## Polling -/

inductive Thread (n : ℕ) where
  | lb
  | worker (i : Fin n)
  | gatherer

def Action.thread {n : ℕ} : Action n → Thread n
  | .lb => .lb
  | .worker i _ => .worker i
  | .gatherer => .gatherer

/-- The thread has ended. -/
def State.HasEnded (s : State P) : Thread P.threads → Prop
  | .lb => s.lb = .ended
  | .worker i => s.worker i = .ended
  | .gatherer => s.gatherer = .ended

theorem ended_iff {s : State P} : s.Ended ↔ ∀ x, s.HasEnded x := by
  constructor
  · intro h x
    cases x with
    | lb => exact h.lb
    | worker i => exact h.worker i
    | gatherer => exact h.gatherer
  · intro h
    exact ⟨h .lb, fun i => h (.worker i), h .gatherer⟩

section Polls

variable {s t : State P}

-- The load balancer polls when a worker has not taken what it was given last.
theorem lb_polls (L : P.Lawful future fuel) (hdims : SameDims P.copies s.memory.heap)
    (hidle : Idle s t) (h : s.lbStep = some t) : ∃ w, s.inq w ≠ [] := by
  obtain ⟨nextw, nextr, rfl⟩ := hidle
  unfold State.lbStep at h
  split at h
  · rename_i e hl
    split at h
    · have hlb := congrArg State.lb (Option.some.inj h)
      rw [hl] at hlb
      cases hlb
    · rename_i e' he
      have hlb := congrArg State.lb (Option.some.inj h)
      rw [hl] at hlb
      cases hlb
      exact absurd (L.skip _ _ _ hdims he).2 (Nat.lt_irrefl _)
    · have hlb := congrArg State.lb (Option.some.inj h)
      rw [hl] at hlb
      cases hlb
  · rename_i task e hl
    split at h
    · cases h
    · rename_i w _
      refine ⟨w, fun hq => ?_⟩
      rw [put_of_nil hq] at h
      have hlb := congrArg State.lb (Option.some.inj h)
      rw [hl] at hlb
      cases hlb
  · rename_i i retry hl
    have hlb : ∃ j retry', s.lb = .broadcast j retry' ∧ j = i + 1 ∨ s.lb = .again retry' := by
      split at h
      · split at h
        · have hlb := congrArg State.lb (Option.some.inj h)
          exact ⟨_, _, Or.inl ⟨hlb.symm, rfl⟩⟩
        · have hlb := congrArg State.lb (Option.some.inj h)
          exact ⟨_, _, Or.inl ⟨hlb.symm, rfl⟩⟩
      · have hlb := congrArg State.lb (Option.some.inj h)
        exact ⟨0, _, Or.inr hlb.symm⟩
    obtain ⟨j, retry', ⟨hlb, hj⟩ | hlb⟩ := hlb
    · rw [hl] at hlb
      cases hlb
      exact absurd hj.symm (Nat.succ_ne_self i)
    · rw [hl] at hlb
      cases hlb
  · rename_i hl
    have hlb := congrArg State.lb (Option.some.inj h)
    rw [hl] at hlb
    cases hlb
  · rename_i w retry hl
    refine ⟨w, fun hq => ?_⟩
    rw [put_of_nil hq] at h
    have hlb := congrArg State.lb (Option.some.inj h)
    rw [hl] at hlb
    have hlen := congrArg List.length (LoadBalancer.again.inj hlb)
    exact absurd hlen.symm (Nat.succ_ne_self _)
  · cases h

theorem worker_of_setWorker {u : State P} {i : Fin P.threads} {w : Worker τ} (hidle : Idle s t)
    (h : some (u.setWorker i w) = some t) : s.worker i = w := by
  obtain ⟨nextw, nextr, rfl⟩ := hidle
  have hworker := congrFun (congrArg State.worker (Option.some.inj h)) i
  change update u.worker i w i = s.worker i at hworker
  rw [update_self] at hworker
  exact hworker.symm

-- A worker polls when the queue into it is empty.
theorem worker_polls {i : Fin P.threads} {ms : ℤ} (hidle : Idle s t)
    (h : s.workerStep i ms = some t) : s.worker i = .pop ∧ s.inq i = [] := by
  unfold State.workerStep at h
  split at h
  · rename_i hw
    split at h
    · rename_i hq
      exact ⟨hw, hq⟩
    · have hworker := worker_of_setWorker hidle h
      rw [hw] at hworker
      cases hworker
    · have hworker := worker_of_setWorker hidle h
      rw [hw] at hworker
      cases hworker
  · rename_i task m hw
    split at h
    · rename_i memory m' hm
      have hworker := worker_of_setWorker hidle h
      rw [hw] at hworker
      cases hworker
      have hfuel := Marking.fuel_step hm
      omega
    · split at h
      · have hworker := worker_of_setWorker hidle h
        rw [hw] at hworker
        cases hworker
      · have hworker := worker_of_setWorker hidle h
        rw [hw] at hworker
        cases hworker
  · rename_i task hw
    have hworker := worker_of_setWorker hidle h
    rw [hw] at hworker
    cases hworker
  · rename_i task hw
    have hworker := worker_of_setWorker hidle h
    rw [hw] at hworker
    cases hworker
  · rename_i task hw
    have hworker := worker_of_setWorker hidle h
    rw [hw] at hworker
    cases hworker
  · rename_i hw
    have hworker := worker_of_setWorker hidle h
    rw [hw] at hworker
    cases hworker
  · cases h

-- The gatherer polls when a worker has nothing for it, and goes on to the next one.
theorem gatherer_polls (hidle : Idle s t) (h : s.gathererStep = some t) :
    ∃ w, following s.nextr = some w ∧ t.nextr = some w ∧
      (s.offline w = true ∨ s.outq w = []) := by
  obtain ⟨nextw, nextr, rfl⟩ := hidle
  unfold State.gathererStep at h
  split at h
  · rename_i hg
    split at h
    · cases h
    · rename_i w hw
      split at h
      · rename_i ho
        cases h
        exact ⟨w, hw, rfl, Or.inl ho⟩
      · split at h
        · rename_i hq
          cases h
          exact ⟨w, hw, rfl, Or.inr hq⟩
        · have hneos := congrArg State.neos (Option.some.inj h)
          exact absurd hneos (Nat.succ_ne_self _)
        · have hgatherer := congrArg State.gatherer (Option.some.inj h)
          rw [hg] at hgatherer
          cases hgatherer
  · have hcollected := congrArg State.collected (Option.some.inj h)
    have hlen := congrArg List.length hcollected
    rw [List.length_append] at hlen
    exact absurd hlen (Nat.succ_ne_self _)
  · cases h

theorem nextr_of_put {w : Fin P.threads} {m : Message τ} (h : s.put w m = some t) :
    t.nextr = s.nextr := by
  obtain ⟨_, rfl⟩ := put_eq_some h
  rfl

-- Nobody else says where the gatherer reads next.
theorem nextr_of_step {a : Action P.threads} (ha : a.thread ≠ .gatherer)
    (h : (system P).step s a = some t) : t.nextr = s.nextr := by
  cases a with
  | lb =>
      change s.lbStep = some t at h
      unfold State.lbStep at h
      split at h
      · split at h <;> (cases h; rfl)
      · split at h
        · cases h
        · split at h
          · rename_i s' hput
            have hnextr := nextr_of_put hput
            cases h
            exact hnextr
          · cases h
            rfl
      · split at h
        · split at h
          · rename_i s' hput
            have hnextr := nextr_of_put hput
            cases h
            exact hnextr
          · cases h
            rfl
        · cases h
          rfl
      · cases h
        rfl
      · split at h
        · rename_i s' hput
          have hnextr := nextr_of_put hput
          cases h
          exact hnextr
        · cases h
          rfl
      · cases h
  | worker i ms =>
      change s.workerStep i ms = some t at h
      unfold State.workerStep at h
      repeat' split at h
      all_goals cases h
      all_goals rfl
  | gatherer => exact absurd rfl ha

end Polls

/-! ## Round robin -/

section RoundRobin

variable {n : ℕ}

/-- The way from place `k` to place `w` of a ring of `n`. -/
def distance (n k w : ℕ) : ℕ := if k ≤ w then w - k else w + n - k

theorem distance_succ_mod {k w : ℕ} (hk : k < n) (hw : w < n) (hne : k ≠ w) :
    distance n ((k + 1) % n) w < distance n k w := by
  rcases Nat.lt_or_ge (k + 1) n with hlt | hge
  · rw [Nat.mod_eq_of_lt hlt]
    unfold distance
    split <;> split <;> omega
  · have hlast : k + 1 = n := by omega
    rw [hlast, Nat.mod_self]
    unfold distance
    split <;> split <;> omega

/-- How many workers come before `w` when the last one tried is `last`. -/
def before (w : Fin n) (last : Option (Fin n)) : ℕ :=
  distance n ((last.elim 0 fun v => v.1 + 1) % n) w

theorem before_lt {last : Option (Fin n)} {v w : Fin n} (h : following last = some v)
    (hne : v ≠ w) : before w (some v) < before w last := by
  have hval : v.1 = (last.elim 0 fun v => v.1 + 1) % n := by
    simp only [following] at h
    split at h
    · cases h
      rfl
    · cases h
  unfold before
  rw [← hval]
  exact distance_succ_mod v.2 w.2 fun heq => hne (Fin.ext heq)

theorem exists_following (hn : 0 < n) (last : Option (Fin n)) : ∃ v, following last = some v := by
  refine ⟨⟨(last.elim 0 fun w => w.1 + 1) % n, Nat.mod_lt _ hn⟩, ?_⟩
  simp only [following]
  exact dif_pos (Nat.mod_lt _ hn)

end RoundRobin

/-! ## No thread is left out for ever -/

theorem Idle.refl (s : State P) : Idle s s := ⟨s.nextw, s.nextr, rfl⟩

theorem Idle.trans {s t u : State P} (h : Idle s t) (h' : Idle t u) : Idle s u := by
  obtain ⟨_, _, rfl⟩ := h
  obtain ⟨nextw, nextr, rfl⟩ := h'
  exact ⟨nextw, nextr, rfl⟩

theorem Idle.hasEnded {s t : State P} (h : Idle s t) (x : Thread P.threads) :
    t.HasEnded x ↔ s.HasEnded x := by
  obtain ⟨_, _, rfl⟩ := h
  cases x <;> exact Iff.rfl

theorem Idle.from_start {r : (system P).InfiniteRun} {m k : ℕ}
    (h : ∀ k, m ≤ k → Idle (r.state k) (r.state (k + 1))) (hk : m ≤ k) :
    Idle (r.state m) (r.state k) := by
  induction k, hk using Nat.le_induction with
  | base => exact Idle.refl _
  | succ k hk ih => exact ih.trans (h k hk)

/-- From `m` on the threads only poll, and each that has not ended does so again and again. -/
structure Quiet (r : (system P).InfiniteRun) (m : ℕ) : Prop where
  idle : ∀ k, m ≤ k → Idle (r.state k) (r.state (k + 1))
  fair : ∀ x, ¬(r.state m).HasEnded x → ∀ k, m ≤ k → ∃ l, k ≤ l ∧ (r.action l).thread = x

namespace Quiet

variable {r : (system P).InfiniteRun} {m : ℕ}

theorem worker (h : Quiet r m) (i : Fin P.threads) :
    (r.state m).worker i = .ended ∨ (r.state m).worker i = .pop ∧ (r.state m).inq i = [] := by
  by_cases hended : (r.state m).worker i = .ended
  · exact Or.inl hended
  · obtain ⟨l, hl, hthread⟩ := h.fair (.worker i) hended m (Nat.le_refl m)
    have hstep := r.next l
    generalize r.action l = a at hthread hstep
    cases a with
    | worker j ms =>
        cases hthread
        have hpoll := worker_polls (h.idle l hl) hstep
        obtain ⟨_, _, heq⟩ := Idle.from_start h.idle hl
        rw [heq] at hpoll
        exact Or.inr hpoll
    | _ => cases hthread

-- A worker that something waits for has not ended, and takes it.
theorem inq (h : Quiet r m) (hinv : (r.state m).Inv) (i : Fin P.threads) :
    (r.state m).inq i = [] := by
  rcases h.worker i with hended | ⟨_, hq⟩
  · have hlane := hinv.lane i
    rw [hended] at hlane
    exact hlane.inq_of_ended
  · exact hq

theorem lb (L : P.Lawful future fuel) (hdims : ∀ k, SameDims P.copies (r.state k).memory.heap)
    (h : Quiet r m) (hinv : (r.state m).Inv) : (r.state m).lb = .ended := by
  by_contra hended
  obtain ⟨l, hl, hthread⟩ := h.fair .lb hended m (Nat.le_refl m)
  have hstep := r.next l
  generalize r.action l = a at hthread hstep
  cases a with
  | lb =>
      obtain ⟨w, hw⟩ := lb_polls L (hdims l) (h.idle l hl) hstep
      obtain ⟨_, _, heq⟩ := Idle.from_start h.idle hl
      rw [heq] at hw
      exact hw (h.inq hinv w)
  | _ => cases hthread

-- So `FF_EOS` is in every lane, and has left the worker.
theorem lane (h : Quiet r m) (hinv : (r.state m).Inv) (hlb : (r.state m).lb = .ended)
    (i : Fin P.threads) : (r.state m).worker i = .ended ∧
      ((r.state m).offline i = true ∨ (r.state m).outq i ≠ []) := by
  have hlane := hinv.lane i
  rw [hlb, h.inq hinv i] at hlane
  obtain hw | hrest := hlane.of_served
  · rcases h.worker i with hended | ⟨hpop, _⟩
    · rw [hended] at hw
      cases hw
    · rw [hpop] at hw
      cases hw
  · exact hrest

theorem gatherer (h : Quiet r m) (hinv : (r.state m).Inv) (hlb : (r.state m).lb = .ended) :
    (r.state m).gatherer = .ended := by
  by_contra hended
  obtain ⟨w, hw⟩ := hinv.exists_online hended
  have hfull : (r.state m).outq w ≠ [] := by
    rcases (h.lane hinv hlb w).2 with hoff | hq
    · rw [hw] at hoff
      cases hoff
    · exact hq
  -- each of its steps brings the gatherer nearer to `w`
  have hgather : ∀ k, m ≤ k → (r.action k).thread = .gatherer →
      before w (r.state (k + 1)).nextr < before w (r.state k).nextr := by
    intro k hk hthread
    have hstep := r.next k
    generalize r.action k = a at hthread hstep
    cases a with
    | gatherer =>
        obtain ⟨v, hv, hnextr, hnothing⟩ := gatherer_polls (h.idle k hk) hstep
        rw [hnextr]
        apply before_lt hv
        rintro rfl
        obtain ⟨_, _, heq⟩ := Idle.from_start h.idle hk
        rw [heq] at hnothing
        rcases hnothing with hoff | hq
        · exact absurd (hw.symm.trans hoff) Bool.false_ne_true
        · exact hfull hq
    | _ => cases hthread
  let μ : State P → ℕ := fun s => before w s.nextr
  have hle : ∀ k, m ≤ k → μ (r.state (k + 1)) ≤ μ (r.state k) := by
    intro k hk
    by_cases hthread : (r.action k).thread = .gatherer
    · exact Nat.le_of_lt (hgather k hk hthread)
    · exact Nat.le_of_eq (congrArg (before w) (nextr_of_step hthread (r.next k)))
  apply r.not_decreasing_forever hle
  intro k hk
  obtain ⟨l, hl, hthread⟩ := h.fair .gatherer hended k hk
  exact ⟨l, hl, hgather l (hk.trans hl) hthread⟩

theorem ended (L : P.Lawful future fuel) (hdims : ∀ k, SameDims P.copies (r.state k).memory.heap)
    (h : Quiet r m) (hinv : (r.state m).Inv) : (r.state m).Ended := by
  have hlb := h.lb L hdims hinv
  exact ⟨hlb, fun i => (h.lane hinv hlb i).1, h.gatherer hinv hlb⟩

end Quiet

theorem stuck_of_ended {s : State P} (h : s.Ended) : (system P).Stuck s := by
  intro a
  cases a with
  | lb =>
      show s.lbStep = none
      simp only [State.lbStep, h.lb]
  | worker i ms =>
      show s.workerStep i ms = none
      simp only [State.workerStep, h.worker i]
  | gatherer =>
      show s.gathererStep = none
      simp only [State.gathererStep, h.gatherer]

-- A thread that has not ended can go on, if only by trying again.
theorem exists_step (hn : 0 < P.threads) {s : State P} {x : Thread P.threads}
    (h : ¬s.HasEnded x) : ∃ a : Action P.threads, a.thread = x ∧ (system P).Enabled s a := by
  cases x with
  | lb =>
      refine ⟨.lb, rfl, ?_⟩
      show s.lbStep.isSome
      cases hl : s.lb with
      | svc e =>
          simp only [State.lbStep, hl]
          split <;> rfl
      | schedule task e =>
          obtain ⟨w, hw⟩ := exists_following hn s.nextw
          simp only [State.lbStep, hl, hw]
          split <;> rfl
      | broadcast i retry =>
          simp only [State.lbStep, hl]
          split
          · split <;> rfl
          · rfl
      | again retry =>
          cases retry with
          | nil =>
              simp only [State.lbStep, hl]
              rfl
          | cons w retry =>
              simp only [State.lbStep, hl]
              split <;> rfl
      | ended => exact absurd hl h
  | worker i =>
      refine ⟨.worker i 0, rfl, ?_⟩
      show (s.workerStep i 0).isSome
      cases hw : s.worker i with
      | pop =>
          simp only [State.workerStep, hw]
          split <;> rfl
      | svc c =>
          cases c with
          | mark task t =>
              simp only [State.workerStep, hw]
              split
              · rfl
              · split <;> rfl
          | stamp task =>
              simp only [State.workerStep, hw]
              rfl
          | bump task =>
              simp only [State.workerStep, hw]
              rfl
      | push m => cases m <;> (simp only [State.workerStep, hw]; rfl)
      | ended => exact absurd hw h
  | gatherer =>
      refine ⟨.gatherer, rfl, ?_⟩
      show s.gathererStep.isSome
      cases hg : s.gatherer with
      | gather =>
          obtain ⟨w, hw⟩ := exists_following hn s.nextr
          simp only [State.gathererStep, hg, hw]
          split
          · rfl
          · split <;> rfl
      | svc task =>
          simp only [State.gathererStep, hg]
          rfl
      | ended => exact absurd hg h

theorem stuck_iff_ended (hn : 0 < P.threads) {s : State P} : (system P).Stuck s ↔ s.Ended := by
  refine ⟨fun hstuck => ended_iff.mpr fun x => ?_, stuck_of_ended⟩
  by_contra hx
  obtain ⟨a, _, ha⟩ := exists_step hn hx
  exact hstuck.not_enabled a ha

-- In every infinite run some thread that has not ended is never scheduled again.
theorem exists_starved (L : P.Lawful future fuel) (hsteady : P.Steady) (hn : 0 < P.threads)
    (r : (system P).InfiniteRun) :
    ∃ m x, ∀ k, m ≤ k → ¬(r.state k).HasEnded x ∧ (r.action k).thread ≠ x := by
  by_contra hno
  have hdims := fun k => dims L hsteady hn (r.reachable k)
  have hle : ∀ (s : State P) (_ : Action P.threads) (t : State P), Idle s t →
      t.measure future fuel ≤ s.measure future fuel := by
    rintro s _ t ⟨nextw, nextr, rfl⟩
    exact Nat.le_refl _
  obtain ⟨m, hidle⟩ := r.idle_from hle fun s a t hs ha =>
    measure_step L (dims L hsteady hn hs) (step_cases ha)
  have hfair : ∀ x, ¬(r.state m).HasEnded x → ∀ k, m ≤ k →
      ∃ l, k ≤ l ∧ (r.action l).thread = x := by
    intro x hx k hk
    by_contra hnever
    refine hno ⟨k, x, fun l hl => ⟨fun hend => hx ?_, fun hthread => hnever ⟨l, hl, hthread⟩⟩⟩
    exact ((Idle.from_start hidle (hk.trans hl)).hasEnded x).mp hend
  have hended := Quiet.ended L hdims ⟨hidle, hfair⟩ (inv hn (r.reachable m))
  have hstuck := stuck_of_ended hended (r.action m)
  rw [r.next m] at hstuck
  cases hstuck

/-- `run_and_wait_end` returns: a farm that cannot go on has ended, and one that goes on for ever
has a thread that could go on and never gets its turn again. -/
structure Returns (P : Program τ ε γ) : Prop where
  ended : ∀ s, (system P).Stuck s ↔ s.Ended
  starved : ∀ r : (system P).InfiniteRun, ∃ m x, ∀ k, m ≤ k →
    (r.action k).thread ≠ x ∧ ∃ a, a.thread = x ∧ (system P).Enabled (r.state k) a

theorem farm_returns (L : P.Lawful future fuel) (hsteady : P.Steady) (hn : 0 < P.threads) :
    Returns P := by
  refine ⟨fun s => stuck_iff_ended hn, fun r => ?_⟩
  obtain ⟨m, x, hx⟩ := exists_starved L hsteady hn r
  exact ⟨m, x, fun k hk => ⟨(hx k hk).2, exists_step hn (hx k hk).1⟩⟩

/-- The second worker looks for a task again and again, and the others do nothing. -/
def pollingRun : (system (Farm.program twoRows)).InfiniteRun where
  state _ := (system (Farm.program twoRows)).init
  action _ := .worker second 0
  start := rfl
  next _ := rfl

theorem farm_returns_polling :
    Returns (Farm.program twoRows) ∧
      ∃ m x, ∀ k, m ≤ k → (pollingRun.action k).thread ≠ x ∧
        ∃ a, a.thread = x ∧ (system (Farm.program twoRows)).Enabled (pollingRun.state k) a := by
  have hreturns := farm_returns (Farm.lawful twoRows) (Farm.steady twoRows) (by decide)
  exact ⟨hreturns, hreturns.starved pollingRun⟩

end Watermark.FastFlow.Network
