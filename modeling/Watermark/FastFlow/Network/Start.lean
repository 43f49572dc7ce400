import Mathlib.Tactic.DeriveFintype
import Watermark.FastFlow.Barrier
import Watermark.FastFlow.Network.Progress

/-!
# Start — the farm with its initial barrier

Each thread of the farm begins with `thread_routine` of ff/node.hpp, which calls `doBarrier` once
and then `svc`.  `spawn` numbers the threads; here a thread stands for its number.
-/

namespace Watermark.FastFlow.Network

open Function Reasoning

variable {τ ε γ : Type} {P : Program τ ε γ}

deriving instance DecidableEq, Fintype for Thread

/-- `thread_routine`: before `doBarrier`, inside it and behind it. -/
inductive Routine where
  | start
  | barrier
  | svc
deriving DecidableEq

structure Started (P : Program τ ε γ) where
  barrier : SpinBarrier.State (Thread P.threads)
  routine : Thread P.threads → Routine
  net : State P

inductive Start (n : ℕ) where
  | routine (x : Thread n)
  | net (a : Action n)

def Start.thread {n : ℕ} : Start n → Thread n
  | .routine x => x
  | .net a => a.thread

namespace Started

/-- The statements of `thread_routine` before `svc` -/
def routineStep (s : Started P) (x : Thread P.threads) : Option (Started P) :=
  match s.routine x with
  | .start => (s.barrier.call x).map fun barrier =>
      { s with barrier, routine := update s.routine x .barrier }
  | .barrier => (s.barrier.doBarrier (Fintype.card (Thread P.threads)) x).map fun barrier =>
      { s with
        barrier
        routine := update s.routine x (if barrier.thread x = .outside then .svc else .barrier) }
  | .svc => none

def step (s : Started P) : Start P.threads → Option (Started P)
  | .routine x => s.routineStep x
  | .net a =>
    if s.routine a.thread = .svc then (s.net.step a).map fun net => { s with net } else none

end Started

/-- The farm when `run` has set up the barrier. -/
def started (P : Program τ ε γ) : System (Started P) (Start P.threads) where
  init := ⟨(SpinBarrier.system (Thread P.threads)).init, fun _ => .start, (system P).init⟩
  step := Started.step

/-! ## What a step can do -/

namespace Started

inductive Step (s : Started P) : Start P.threads → Started P → Prop where
  | call {x : Thread P.threads} {barrier : SpinBarrier.State (Thread P.threads)}
      (hx : s.routine x = .start) (hb : s.barrier.call x = some barrier) :
      Step s (.routine x) { s with barrier, routine := update s.routine x .barrier }
  | barrier {x : Thread P.threads} {barrier : SpinBarrier.State (Thread P.threads)}
      (hx : s.routine x = .barrier)
      (hb : s.barrier.doBarrier (Fintype.card (Thread P.threads)) x = some barrier) :
      Step s (.routine x) { s with
        barrier
        routine := update s.routine x (if barrier.thread x = .outside then .svc else .barrier) }
  | net {a : Action P.threads} {net : State P} (ha : s.routine a.thread = .svc)
      (hn : s.net.step a = some net) : Step s (.net a) { s with net }

theorem step_cases {s t : Started P} {a : Start P.threads} (h : s.step a = some t) :
    Step s a t := by
  cases a with
  | routine x =>
      simp only [step, routineStep] at h
      split at h
      · rename_i hx
        obtain ⟨barrier, hb, rfl⟩ := Option.map_eq_some_iff.mp h
        exact .call hx hb
      · rename_i hx
        obtain ⟨barrier, hb, rfl⟩ := Option.map_eq_some_iff.mp h
        exact .barrier hx hb
      · cases h
  | net a =>
      simp only [step] at h
      split at h
      · rename_i ha
        obtain ⟨net, hn, rfl⟩ := Option.map_eq_some_iff.mp h
        exact .net ha hn
      · cases h

/-- What `thread_routine` has to do with `doBarrier`. -/
def Passes : Routine → SpinBarrier.Thread → ℕ → ℕ → Prop
  | .start, x, arrived, left => x = .outside ∧ arrived = 0 ∧ left = 0
  | .barrier, x, _, left => x ≠ .outside ∧ left = 0
  | .svc, x, _, left => x = .outside ∧ left = 1

structure Inv (s : Started P) : Prop where
  net : (system P).Reachable s.net
  barrier : (SpinBarrier.system (Thread P.threads)).Reachable s.barrier
  passes : ∀ x, Passes (s.routine x) (s.barrier.thread x) (s.barrier.arrived x) (s.barrier.left x)
  -- nothing happens in the farm as long as nobody has passed
  waits : (∀ x, s.routine x ≠ .svc) → s.net = (system P).init

theorem inv_init : (started P).init.Inv where
  net := .init
  barrier := .init
  passes _ := ⟨rfl, rfl, rfl⟩
  waits _ := rfl

variable {s t : Started P} {a : Start P.threads}

-- A step in front of `svc`, after which thread `x` is at `r`.
theorem Inv.of_barrier (h : s.Inv) {x : Thread P.threads}
    {b : SpinBarrier.Action (Thread P.threads)}
    {barrier : SpinBarrier.State (Thread P.threads)} {r : Routine} (hbx : b.tid = x)
    (hb : (SpinBarrier.system (Thread P.threads)).step s.barrier b = some barrier)
    (hx : s.routine x ≠ .svc)
    (hr : Passes r (barrier.thread x) (barrier.arrived x) (barrier.left x)) :
    ({ s with barrier, routine := update s.routine x r } : Started P).Inv := by
  refine ⟨h.net, h.barrier.next hb, fun y => ?_, fun hall => h.waits fun y => ?_⟩
  · show Passes (update s.routine x r y) _ _ _
    by_cases hy : y = x
    · subst hy
      rwa [update_self]
    · obtain ⟨hthread, harrived, hleft⟩ :=
        SpinBarrier.others_of_step (SpinBarrier.step_cases hb) (hbx ▸ hy)
      rw [update_of_ne hy, hthread, harrived, hleft]
      exact h.passes y
  · by_cases hy : y = x
    · rwa [hy]
    · have hne : update s.routine x r y ≠ .svc := hall y
      rwa [update_of_ne hy] at hne

theorem Inv.of_step (h : s.Inv) (hs : Step s a t) : t.Inv := by
  cases hs with
  | @call x barrier hx hb =>
      obtain ⟨hin, hleft⟩ := SpinBarrier.inside_of_call hb
      have hpasses := h.passes x
      rw [hx] at hpasses
      refine h.of_barrier (b := .call x) rfl hb (by simp [hx]) ⟨hin, ?_⟩
      rw [hleft]
      exact hpasses.2.2
  | @barrier x barrier hx hb =>
      have hpasses := h.passes x
      rw [hx] at hpasses
      obtain ⟨hin, hleft⟩ := hpasses
      have hstep := SpinBarrier.doBarrier_cases hb
      refine h.of_barrier (b := .step x) rfl hb (by simp [hx]) ?_
      split
      · rename_i hout
        have hreturn := SpinBarrier.left_of_return hstep hin hout
        exact ⟨hout, by omega⟩
      · rename_i hout
        exact ⟨hout, (SpinBarrier.left_of_inside hstep hout).trans hleft⟩
  | @net a net ha hn =>
      exact ⟨h.net.next hn, h.barrier, h.passes, fun hall => absurd ha (hall a.thread)⟩

end Started

theorem started_inv {s : Started P} (hs : (started P).Reachable s) : s.Inv :=
  hs.invariant (P := Started.Inv) Started.inv_init fun _ _ _ _ h ha =>
    h.of_step (Started.step_cases ha)

instance : Nonempty (Thread P.threads) := ⟨.lb⟩

-- Nobody is behind the barrier before all have come to it.
theorem Started.Inv.come {s : Started P} (h : s.Inv) {x y : Thread P.threads}
    (hx : s.routine x = .svc) : s.routine y ≠ .start := by
  intro hy
  have hpassed := h.passes x
  have hmissing := h.passes y
  rw [hx] at hpassed
  rw [hy] at hmissing
  obtain ⟨_, hleft⟩ := hpassed
  obtain ⟨_, harrived, _⟩ := hmissing
  have hle := SpinBarrier.left_le_arrived h.barrier x y
  omega

/-! ## Every thread gets behind the barrier -/

section Going

variable {future : ε → List τ} {fuel : ε → ℕ} {s t : Started P} {x : Thread P.threads}

theorem routine_enabled (h : s.Inv) (hx : s.routine x ≠ .svc) :
    (started P).Enabled s (.routine x) := by
  have hpasses := h.passes x
  show (s.routineStep x).isSome = true
  unfold Started.routineStep
  cases hr : s.routine x with
  | start =>
      rw [hr] at hpasses
      rw [Option.isSome_map]
      exact SpinBarrier.exists_call hpasses.1
  | barrier =>
      rw [hr] at hpasses
      rw [Option.isSome_map]
      exact SpinBarrier.exists_doBarrier _ hpasses.1
  | svc => exact absurd hr hx

theorem net_enabled {a : Action P.threads} (hx : s.routine a.thread = .svc)
    (ha : (system P).Enabled s.net a) : (started P).Enabled s (.net a) := by
  show (s.step (.net a)).isSome = true
  simp only [Started.step, if_pos hx, Option.isSome_map]
  exact ha

theorem started_stuck_iff (hn : 0 < P.threads) (h : s.Inv) :
    (started P).Stuck s ↔ (∀ x, s.routine x = .svc) ∧ s.net.Ended := by
  constructor
  · intro hstuck
    have hall : ∀ x, s.routine x = .svc := by
      intro x
      by_contra hx
      exact hstuck.not_enabled _ (routine_enabled h hx)
    refine ⟨hall, (stuck_iff_ended hn).mp fun a => ?_⟩
    by_contra ha
    exact hstuck.not_enabled _ (net_enabled (hall a.thread) (Option.isSome_iff_ne_none.mpr ha))
  · intro ⟨hall, hended⟩ a
    cases a with
    | routine x =>
        show s.routineStep x = none
        simp only [Started.routineStep, hall x]
    | net a =>
        show s.step (.net a) = none
        have hnone : s.net.step a = none := stuck_of_ended hended a
        simp only [Started.step, hnone, Option.map_none, ite_self]

/-- A step that does not change where the threads are in `thread_routine`. -/
def Started.Idle (s : Started P) (a : Start P.threads) (t : Started P) : Prop :=
  t.barrier = s.barrier ∧ t.routine = s.routine ∧ ∀ x, a = .routine x → s.barrier.Waits x

def Started.measure (s : Started P) : ℕ := ∑ x, (3 - s.barrier.position x)

theorem position_lt (h : s.Inv) (hx : s.routine x ≠ .svc) : s.barrier.position x < 3 := by
  have hpasses := h.passes x
  have hstage := (s.barrier.thread x).stage_le
  unfold SpinBarrier.State.position
  cases hr : s.routine x with
  | start =>
      rw [hr] at hpasses
      obtain ⟨_, _, hleft⟩ := hpasses
      omega
  | barrier =>
      rw [hr] at hpasses
      obtain ⟨_, hleft⟩ := hpasses
      omega
  | svc => exact absurd hr hx

theorem measure_lt {barrier : SpinBarrier.State (Thread P.threads)} {r : Thread P.threads → Routine}
    (h : s.Inv) (hx : s.routine x ≠ .svc)
    (hpos : barrier.position = update s.barrier.position x (s.barrier.position x + 1)) :
    ({ s with barrier, routine := r } : Started P).measure < s.measure := by
  have hsum := sum_update (fun p => 3 - p) s.barrier.position x (s.barrier.position x + 1)
  have hlt := position_lt h hx
  show ∑ y, (3 - barrier.position y) < ∑ y, (3 - s.barrier.position y)
  rw [hpos]
  omega

theorem started_measure_step {a : Start P.threads} (h : s.Inv) (hs : Started.Step s a t) :
    s.Idle a t ∨ t.measure < s.measure := by
  cases hs with
  | @call x barrier hx hb =>
      have hne : s.routine x ≠ .svc := by simp [hx]
      have hstep : SpinBarrier.Step 0 s.barrier x barrier := SpinBarrier.call_cases hb
      rcases SpinBarrier.position_step hstep with hsame | hpos
      · obtain ⟨w, hw, _⟩ := hsame.2
        have hpasses := h.passes x
        rw [hx] at hpasses
        cases hpasses.1.symm.trans hw
      · exact Or.inr (measure_lt h hne hpos)
  | @barrier x barrier hx hb =>
      have hne : s.routine x ≠ .svc := by simp [hx]
      rcases SpinBarrier.position_step (SpinBarrier.doBarrier_cases hb) with ⟨rfl, hwait⟩ | hpos
      · have hpasses := h.passes x
        rw [hx] at hpasses
        refine Or.inl ⟨rfl, ?_, fun y hy => ?_⟩
        · show update s.routine x _ = s.routine
          rw [if_neg hpasses.1, ← hx, update_eq_self]
        · cases hy
          exact hwait
      · exact Or.inr (measure_lt h hne hpos)
  | net ha hn => exact Or.inl ⟨rfl, rfl, fun y hy => (by cases hy)⟩

theorem routine_of_step {a : Start P.threads} (hs : Started.Step s a t)
    (hx : s.routine a.thread ≠ .svc) : a = .routine a.thread := by
  cases hs with
  | call _ _ => rfl
  | barrier _ _ => rfl
  | net ha _ => exact absurd ha hx

end Going

section Runs

variable {future : ε → List τ} {fuel : ε → ℕ} {r : (started P).InfiniteRun} {m : ℕ}

/-- Some thread that could go on is never scheduled again. -/
def Starves (r : (started P).InfiniteRun) : Prop :=
  ∃ m x, ∀ k, m ≤ k → (r.action k).thread ≠ x ∧
    ∃ a : Start P.threads, a.thread = x ∧ (started P).Enabled (r.state k) a

theorem Started.Idle.from_start
    (h : ∀ k, m ≤ k → (r.state k).Idle (r.action k) (r.state (k + 1))) {k : ℕ} (hk : m ≤ k) :
    (r.state k).barrier = (r.state m).barrier ∧ (r.state k).routine = (r.state m).routine := by
  induction k, hk using Nat.le_induction with
  | base => exact ⟨rfl, rfl⟩
  | succ k hk ih =>
      obtain ⟨hbarrier, hroutine, _⟩ := h k hk
      exact ⟨hbarrier.trans ih.1, hroutine.trans ih.2⟩

-- Who is not behind the barrier waits,
theorem waits_of_idle (h : ∀ k, m ≤ k → (r.state k).Idle (r.action k) (r.state (k + 1)))
    (hno : ¬Starves r) {x : Thread P.threads} (hx : (r.state m).routine x ≠ .svc) :
    (r.state m).barrier.Waits x := by
  by_contra hnever
  refine hno ⟨m, x, fun k hk => ?_⟩
  obtain ⟨hbarrier, hroutine⟩ := Started.Idle.from_start h hk
  have hxk : (r.state k).routine x ≠ .svc := by rwa [hroutine]
  refine ⟨fun hthread => hnever ?_, .routine x, rfl, ?_⟩
  · subst hthread
    have ha := routine_of_step (Started.step_cases (r.next k)) hxk
    rw [← hbarrier]
    exact (h k hk).2.2 _ ha
  · exact routine_enabled (started_inv (r.reachable k)) hxk

-- but they cannot all wait for each other.
theorem svc_of_idle (h : ∀ k, m ≤ k → (r.state k).Idle (r.action k) (r.state (k + 1)))
    (hno : ¬Starves r) (x : Thread P.threads) : (r.state m).routine x = .svc := by
  have hinv := started_inv (r.reachable m)
  have hplace : ∀ y, (r.state m).routine y = .svc ∧ (r.state m).barrier.thread y = .outside ∧
      (r.state m).barrier.left y = 1 ∨ (r.state m).barrier.Waits y := by
    intro y
    by_cases hy : (r.state m).routine y = .svc
    · have hpasses := hinv.passes y
      rw [hy] at hpasses
      exact Or.inl ⟨hy, hpasses⟩
    · exact Or.inr (waits_of_idle h hno hy)
  by_contra hx
  obtain ⟨round, hround⟩ := SpinBarrier.exists_inv hinv.barrier
  have hxin : (r.state m).barrier.thread x ≠ .outside := by
    obtain ⟨w, hw, _⟩ := waits_of_idle h hno hx
    simp [hw]
  obtain ⟨y, hy, hlt⟩ := hround.exists_missing
    (fun j => (hplace j).imp (fun hj => hj.2.1) id) hxin
  -- `y` is behind the barrier, so that `x` would have come twice
  have hyleft : (r.state m).barrier.left y = 1 := by
    rcases hplace y with hsvc | ⟨w, hw, _⟩
    · exact hsvc.2.2
    · cases hy.symm.trans hw
  have hxleft : (r.state m).barrier.left x = 0 := by
    have hpasses := hinv.passes x
    cases hr : (r.state m).routine x with
    | start =>
        rw [hr] at hpasses
        exact hpasses.2.2
    | barrier =>
        rw [hr] at hpasses
        exact hpasses.2
    | svc => exact absurd hr hx
  have hycome := SpinBarrier.left_le_arrived hinv.barrier y y
  have hxcome := (hround.place x).arrived_le
  omega

theorem started_starves (L : P.Lawful future fuel) (hsteady : P.Steady) (hn : 0 < P.threads)
    (r : (started P).InfiniteRun) : Starves r := by
  by_contra hno
  have hle : ∀ (s : Started P) (a : Start P.threads) (t : Started P), s.Idle a t →
      t.measure ≤ s.measure := by
    intro s a t h
    unfold Started.measure
    rw [h.1]
  obtain ⟨m, hidle⟩ := r.idle_from hle fun s a t hs ha =>
    started_measure_step (started_inv hs) (Started.step_cases ha)
  have hsvc : ∀ k, m ≤ k → ∀ x, (r.state k).routine x = .svc := by
    intro k hk x
    rw [(Started.Idle.from_start hidle hk).2]
    exact svc_of_idle hidle hno x
  -- from `m` on it is a run of the farm
  have hnet : ∀ k, ∃ a, r.action (m + k) = .net a ∧
      (system P).step (r.state (m + k)).net a = some (r.state (m + k + 1)).net := by
    intro k
    have hstep := Started.step_cases (r.next (m + k))
    have hall := hsvc (m + k) (Nat.le_add_right m k)
    generalize r.action (m + k) = a at hstep
    generalize hu : r.state (m + k + 1) = u at hstep
    cases hstep with
    | @call x barrier hx hb => cases (hall x).symm.trans hx
    | @barrier x barrier hx hb => cases (hall x).symm.trans hx
    | @net a net ha hn => exact ⟨a, rfl, hn⟩
  choose action haction hnext using hnet
  obtain ⟨r', m', hr'⟩ := (started_inv (r.reachable m)).net.exists_infiniteRun
    (fun k => (r.state (m + k)).net) action rfl hnext
  obtain ⟨n, x, hx⟩ := exists_starved L hsteady hn r'
  refine hno ⟨m + n, x, fun k hk => ?_⟩
  obtain ⟨d, rfl⟩ : ∃ d, k = m + d := ⟨k - m, by omega⟩
  obtain ⟨hended, hthread⟩ := hx (m' + d) (by omega)
  rw [(hr' d).1] at hended
  rw [(hr' d).2] at hthread
  obtain ⟨a, ha, henabled⟩ := exists_step hn hended
  rw [haction d]
  refine ⟨hthread, .net a, ha, net_enabled ?_ henabled⟩
  exact hsvc (m + d) (Nat.le_add_right m d) _

end Runs

/-- The farm with its initial barrier.  No thread enters `svc` before all have been started, nothing
happens in the farm until then, and from there on it runs as it does without the barrier: it comes
to rest when all threads have ended, and if it goes on for ever a thread is left out that could
go on. -/
theorem farm_starts_together {future : ε → List τ} {fuel : ε → ℕ} (L : P.Lawful future fuel)
    (hsteady : P.Steady) (hn : 0 < P.threads) :
    (∀ s, (started P).Reachable s →
      (system P).Reachable s.net ∧
      (∀ x y, s.routine x = .svc → s.routine y ≠ .start) ∧
      ((∀ x, s.routine x ≠ .svc) → s.net = (system P).init) ∧
      ((started P).Stuck s ↔ (∀ x, s.routine x = .svc) ∧ s.net.Ended)) ∧
    ∀ r : (started P).InfiniteRun, Starves r := by
  refine ⟨fun s hs => ?_, started_starves L hsteady hn⟩
  have h := started_inv hs
  exact ⟨h.net, fun _ _ => h.come, h.waits, started_stuck_iff hn h⟩

/-- The gatherer comes last, and the load balancer is the first behind the barrier. -/
def startRun : List (Start 2) :=
  List.flatten [List.replicate 2 (.routine .lb), List.replicate 2 (.routine (.worker first)),
    List.replicate 2 (.routine (.worker second)), List.replicate 3 (.routine .gatherer),
    [.routine .lb, .net .lb]]

def startEnd : Started (Farm.program twoRows) :=
  ((started (Farm.program twoRows)).exec (started (Farm.program twoRows)).init startRun).get
    (by decide +kernel)

theorem farm_starts_together_twoRows :
    (∀ y, startEnd.routine y ≠ .start) ∧ (system (Farm.program twoRows)).Reachable startEnd.net ∧
      ∀ r : (started (Farm.program twoRows)).InfiniteRun, Starves r := by
  obtain ⟨hstates, hruns⟩ :=
    farm_starts_together (Farm.lawful twoRows) (Farm.steady twoRows) (by decide)
  obtain ⟨hnet, hcome, _⟩ := hstates startEnd (System.reachable_get _)
  have hlb : startEnd.routine .lb = .svc := by decide +kernel
  exact ⟨fun y => hcome .lb y hlb, hnet, hruns⟩

end Watermark.FastFlow.Network
