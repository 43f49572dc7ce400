import Watermark.Map.Clocked

/-!
# CompletionTime — how long map.cpp takes at least

There is a delay before every part and before every EOS, so it is paid for each worker once more
than there are photos.
-/

namespace Watermark.Map

open Function Reasoning

variable {cfg : Config}

/-- The pushes of `scatter`. -/
def Config.pushes (cfg : Config) : ℕ := cfg.photos.length * cfg.threads + cfg.threads

namespace Scattering

/-- Before the loops. -/
def early : Scattering → Bool
  | .start => true
  | .completionStart => true
  | _ => false

end Scattering

-- The collector gets the last EOS after scatter has pushed it.
theorem scatterReturned_of_poll {s : State cfg} (hn : 0 < cfg.threads)
    (hs : (system cfg).Reachable s) (hp : s.collector.poll = .returned) : s.ScatterReturned := by
  have hneg := number_workers_nonneg hn
  have hrest := rest_of_counter hneg hs ((pollInv hs).returned hp)
  have hfuture : ∀ i : Fin cfg.threads, s.scatter.future cfg i = [] := by
    intro i
    have hnil := hrest i
    simp only [State.rest, State.inbound, List.append_eq_nil_iff] at hnil
    exact hnil.2.2
  have hlast := hfuture ⟨cfg.threads - 1, by omega⟩
  cases hsc : s.scatter with
  | photos left =>
      rw [hsc] at hlast
      simp [Scatter.future, stream] at hlast
  | parts ii left v =>
      rw [hsc] at hlast
      simp [Scatter.future, stream] at hlast
  | eos m =>
      rw [hsc] at hlast
      refine ⟨m, ?_, hsc⟩
      by_contra hm
      have hle : m ≤ cfg.threads - 1 := by omega
      simp only [Scatter.future, if_pos hle] at hlast
      cases hlast
  | divided =>
      have hinv := scatterInv hneg hs
      unfold State.ScatterInv at hinv
      rw [hsc, number_workers_eq hn] at hinv
      have hinv : (cfg.threads : ℤ) = 0 := hinv
      omega

namespace Clocked

/-- The time before which the pushes that have been made cannot have been. -/
def due (inserted_delay : ℤ) (s : Clocked cfg) : ℤ :=
  s.completion_time_start +
    ((cfg.pushes - s.map.scatter.left cfg.threads : ℕ) : ℤ) * (inserted_delay + 1) * 1000000

/-- `scatter` is not ahead of its delays. -/
structure Paced (inserted_delay now : ℤ) (s : Clocked cfg) : Prop where
  start_le : s.completion_time_start ≤ now
  scatter_le : s.start_scatter ≤ now
  early : s.scattering.early = true → s.map.scatter = .photos cfg.photos
  ordered : s.scattering.early = false → s.start_scatter ≤ s.completion_time_start
  due : s.scattering.early = false → s.due inserted_delay ≤ now
  delay : ∀ d, s.scattering = .delay d → s.map.scatter.pushes cfg.threads = true ∧
    d.CalledFrom (s.due inserted_delay) inserted_delay now
  left_le : s.map.scatter.left cfg.threads ≤ cfg.pushes
  -- the branch `counter==0` is for the first push of a part
  stamp : s.scattering = .stamp → s.map.scatter.inParts = true ∧
    s.map.scatter.left cfg.threads < cfg.pushes
  zero : s.counter = 0 → s.inter_arival_time = 0 ∧ (s.scattering = .stamp ∨
    s.map.scatter.left cfg.threads = cfg.pushes ∨ cfg.photos = [])
  inter : s.counter ≠ 0 → inserted_delay + 1 ≤ s.inter_arival_time

variable {s t : Clocked cfg} {inserted_delay now later : ℤ}

theorem Paced.wait (h : s.Paced inserted_delay now) (hle : now ≤ later) :
    s.Paced inserted_delay later where
  start_le := h.start_le.trans hle
  scatter_le := h.scatter_le.trans hle
  early := h.early
  ordered := h.ordered
  due he := (h.due he).trans hle
  delay d he := ⟨(h.delay d he).1, (h.delay d he).2.wait hle⟩
  left_le := h.left_le
  stamp := h.stamp
  zero := h.zero
  inter := h.inter

-- Each push comes one delay later.
theorem due_push {map : State cfg} {scattering : Scattering}
    (hle : s.map.scatter.left cfg.threads ≤ cfg.pushes)
    (hleft : map.scatter.left cfg.threads + 1 = s.map.scatter.left cfg.threads) :
    ({ s with map, scattering } : Clocked cfg).due inserted_delay =
      s.due inserted_delay + (inserted_delay + 1) * 1000000 := by
  have hsent : cfg.pushes - map.scatter.left cfg.threads =
      (cfg.pushes - s.map.scatter.left cfg.threads) + 1 := by omega
  unfold due
  show s.completion_time_start + ((cfg.pushes - map.scatter.left cfg.threads : ℕ) : ℤ) * _ * _ = _
  rw [hsent]
  push_cast
  ring

theorem due_same {map : State cfg} {scattering : Scattering}
    (hleft : map.scatter.left cfg.threads = s.map.scatter.left cfg.threads) :
    ({ s with map, scattering } : Clocked cfg).due inserted_delay = s.due inserted_delay := by
  unfold due
  show s.completion_time_start + ((cfg.pushes - map.scatter.left cfg.threads : ℕ) : ℤ) * _ * _ = _
  rw [hleft]

theorem Paced.zero_of_ne {P : Prop} (h : s.Paced inserted_delay now) (hne : s.scattering ≠ .stamp)
    (hc : s.counter = 0) : s.inter_arival_time = 0 ∧
      (P ∨ s.map.scatter.left cfg.threads = cfg.pushes ∨ cfg.photos = []) :=
  ⟨(h.zero hc).1, Or.inr ((h.zero hc).2.resolve_left hne)⟩

-- The EOS loop is reached with `counter` zero only when there are no photos.
theorem photos_nil_of_eos {i : ℕ} (hs : s.map.scatter = .eos i) (hi : i < cfg.threads)
    (hleft : s.map.scatter.left cfg.threads = cfg.pushes) : cfg.photos = [] := by
  rw [hs] at hleft
  have hleft : cfg.threads - i = cfg.photos.length * cfg.threads + cfg.threads := hleft
  have hzero : cfg.photos.length * cfg.threads = 0 := by omega
  rcases Nat.mul_eq_zero.mp hzero with hlen | hn
  · exact List.length_eq_zero_iff.mp hlen
  · omega

theorem paced_scatteringStep (h : s.Paced inserted_delay now)
    (he : ScatteringStep inserted_delay now s t) : t.Paced inserted_delay now := by
  cases he with
  | start he =>
      have hearly := h.early (by rw [he]; rfl)
      refine { h with
        scatter_le := le_refl now
        early := fun _ => hearly
        ordered := fun h => (by cases h)
        due := fun h => (by cases h)
        delay := fun _ he => (by cases he)
        stamp := fun he => (by cases he)
        zero := fun hc => ⟨(h.zero hc).1, Or.inr (Or.inl ?_)⟩ }
      rw [hearly]
      rfl
  | completionStart he =>
      have hearly := h.early (by rw [he]; rfl)
      have hleft : s.map.scatter.left cfg.threads = cfg.pushes := by
        rw [hearly]
        rfl
      refine { h with
        start_le := le_refl now
        early := fun h => (by cases h)
        ordered := fun _ => h.scatter_le
        due := fun _ => ?_
        delay := fun _ he => (by cases he)
        stamp := fun he => (by cases he)
        zero := fun hc => ⟨(h.zero hc).1, Or.inr (Or.inl hleft)⟩ }
      show now + ((cfg.pushes - s.map.scatter.left cfg.threads : ℕ) : ℤ) * _ * _ ≤ now
      rw [hleft, Nat.sub_self]
      simp
  | call he hp =>
      have hdue := h.due (by rw [he]; rfl)
      exact { h with
        early := fun h => (by cases h)
        ordered := fun _ => h.ordered (by rw [he]; rfl)
        due := fun _ => hdue
        delay := fun d hd => (by cases hd; exact ⟨hp, hdue⟩)
        stamp := fun he => (by cases he)
        zero := h.zero_of_ne (by rw [he]; exact Scattering.noConfusion) }
  | @loop map he hp hm =>
      have hleft := left_of_loop hp (scatterStep_cases hm)
      have hdue : ({ s with map, scattering := .loop } : Clocked cfg).due inserted_delay ≤ now := by
        rw [due_same hleft]
        exact h.due (by rw [he]; rfl)
      refine { h with
        early := fun h => (by cases h)
        ordered := fun _ => h.ordered (by rw [he]; rfl)
        due := fun _ => hdue
        delay := fun d hd => (by cases hd)
        left_le := hleft.trans_le h.left_le
        stamp := fun he => (by cases he)
        zero := ?_ }
      show s.counter = 0 → s.inter_arival_time = 0 ∧ (_ ∨ map.scatter.left cfg.threads = _ ∨ _)
      rw [hleft]
      exact h.zero_of_ne (by rw [he]; exact Scattering.noConfusion)
  | read he hd =>
      obtain ⟨hp, hcalled⟩ := h.delay _ he
      exact { h with
        early := fun h => (by cases h)
        ordered := fun _ => h.ordered (by rw [he]; rfl)
        due := fun _ => h.due (by rw [he]; rfl)
        delay := fun d' hd' => (by cases hd'; exact ⟨hp, hcalled.read hd⟩)
        stamp := fun he => (by cases he)
        zero := h.zero_of_ne (by rw [he]; exact Scattering.noConfusion) }
  | @push map he hm =>
      obtain ⟨hp, hcalled⟩ := h.delay _ he
      obtain ⟨hleft, hparts, heos⟩ := left_of_push hp (scatterStep_cases hm)
      have hle := h.left_le
      have hordered := h.ordered (by rw [he]; rfl)
      have hdue : ∀ scattering, ({ s with map, scattering } : Clocked cfg).due inserted_delay ≤
          now := by
        intro scattering
        rw [due_push hle hleft]
        exact hcalled.2
      cases hin : s.map.scatter.inParts with
      | true =>
          exact { h with
            early := fun h => (by cases h)
            ordered := fun _ => hordered
            due := fun _ => hdue _
            delay := fun d hd => (by cases hd)
            left_le := by show map.scatter.left cfg.threads ≤ _; omega
            stamp := fun _ => ⟨hparts hin, by show map.scatter.left cfg.threads < _; omega⟩
            zero := fun hc => ⟨(h.zero hc).1, Or.inl rfl⟩ }
      | false =>
          obtain ⟨i, hi, hlt⟩ := heos hin
          refine { h with
            early := fun h => (by cases h)
            ordered := fun _ => hordered
            due := fun _ => hdue _
            delay := fun d hd => (by cases hd)
            left_le := by show map.scatter.left cfg.threads ≤ _; omega
            stamp := fun he => (by cases he)
            zero := fun hc => ?_ }
          obtain ⟨hzero, hnone⟩ := h.zero hc
          refine ⟨hzero, Or.inr (Or.inr ?_)⟩
          rcases hnone with hstamp | hall | hnil
          · rw [he] at hstamp
            cases hstamp
          · exact photos_nil_of_eos hi hlt hall
          · exact hnil
  | first he hc =>
      have hearly : s.scattering.early = false := by rw [he]; rfl
      have hdue := h.due hearly
      have hordered := h.ordered hearly
      have hstart := h.start_le
      have hlt := (h.stamp he).2
      refine { h with
        early := fun h => (by cases h)
        ordered := fun _ => hordered
        due := fun _ => hdue
        delay := fun d hd => (by cases hd)
        stamp := fun he => (by cases he)
        zero := fun hc => absurd hc (Nat.succ_ne_zero _)
        inter := fun _ => ?_ }
      show inserted_delay + 1 ≤ s.inter_arival_time + milliseconds (now - s.start_scatter)
      have hfirst := add_delay_le (by omega) hstart hdue
      rw [(h.zero hc).1, zero_add]
      exact le_milliseconds (by omega) (by omega)
  | next he hc =>
      have hearly : s.scattering.early = false := by rw [he]; rfl
      exact { h with
        early := fun h => (by cases h)
        ordered := fun _ => h.ordered hearly
        due := fun _ => h.due hearly
        delay := fun d hd => (by cases hd)
        stamp := fun he => (by cases he)
        zero := fun hz => absurd hz hc }

-- The other threads leave `scatter` alone.
theorem paced_of_map {map : State cfg} (h : s.Paced inserted_delay now)
    (hsame : map.scatter = s.map.scatter) :
    ({ s with map } : Clocked cfg).Paced inserted_delay now := by
  have hdue : ({ s with map } : Clocked cfg).due inserted_delay = s.due inserted_delay := by
    show s.completion_time_start + ((cfg.pushes - map.scatter.left _ : ℕ) : ℤ) * _ * _ = _
    rw [hsame]
    rfl
  exact {
    start_le := h.start_le
    scatter_le := h.scatter_le
    early := fun he => hsame.trans (h.early he)
    ordered := h.ordered
    due := fun he => hdue ▸ h.due he
    delay := fun d hd => by
      rw [hdue]
      show map.scatter.pushes _ = true ∧ _
      rw [hsame]
      exact h.delay d hd
    left_le := by
      show map.scatter.left _ ≤ _
      rw [hsame]
      exact h.left_le
    stamp := fun hs => by
      show map.scatter.inParts = true ∧ map.scatter.left _ < _
      rw [hsame]
      exact h.stamp hs
    zero := fun hc => by
      show _ ∧ (_ ∨ map.scatter.left _ = _ ∨ _)
      rw [hsame]
      exact h.zero hc
    inter := h.inter }

theorem paced_step {a : Thread cfg.threads} (h : s.Paced inserted_delay now)
    (ha : s.step inserted_delay now a = some t) : t.Paced inserted_delay now := by
  cases a with
  | scatter => exact paced_scatteringStep h (scatteringStep_cases ha)
  | worker i ms =>
      obtain ⟨map, hm, rfl⟩ := Option.map_eq_some_iff.mp ha
      exact paced_of_map h (scatter_of_workerStep (workerStep_cases hm))
  | collector =>
      cases collectingStep_cases ha with
      | collect hm => exact paced_of_map h (scatter_of_collectorStep (collectorStep_cases hm))
      | complete hp hnone => exact { h with }

/-! ## The completion time -/

/-- The completion time is set at the end, and not before all delays have passed. -/
def Completed (inserted_delay : ℤ) (s : Clocked cfg) : Prop :=
  ∀ c, s.completion_time = some c → s.map.collector.poll = .returned ∧
    cfg.pushes * (inserted_delay + 1) ≤ c

theorem completed_step {a : Thread cfg.threads} (hn : 0 < cfg.threads)
    (hs : (system cfg).Reachable s.map) (hp : s.Paced inserted_delay now)
    (h : s.Completed inserted_delay) (ha : s.step inserted_delay now a = some t) :
    t.Completed inserted_delay := by
  cases a with
  | scatter =>
      cases scatteringStep_cases ha with
      | @loop map he hpush hm =>
          intro c hc
          show map.collector.poll = _ ∧ _
          rw [collector_of_scatterStep (scatterStep_cases hm)]
          exact h c hc
      | @push map he hm =>
          intro c hc
          show map.collector.poll = _ ∧ _
          rw [collector_of_scatterStep (scatterStep_cases hm)]
          exact h c hc
      | _ => exact h
  | worker i ms =>
      obtain ⟨map, hm, rfl⟩ := Option.map_eq_some_iff.mp ha
      intro c hc
      show map.collector.poll = _ ∧ _
      rw [collector_of_workerStep (workerStep_cases hm)]
      exact h c hc
  | collector =>
      cases collectingStep_cases ha with
      | collect hm =>
          intro c hc
          have hret := (h c hc).1
          cases collectorStep_cases hm <;> simp_all
      | complete hret hnone =>
          intro c hc
          cases hc
          refine ⟨hret, ?_⟩
          obtain ⟨i, hi, heos⟩ := scatterReturned_of_poll hn hs hret
          have hearly : s.scattering.early = false := by
            rw [Bool.eq_false_iff]
            intro he
            have hphotos := hp.early he
            rw [heos] at hphotos
            cases hphotos
          have hdue := hp.due hearly
          have hle := hp.start_le
          have hleft : s.map.scatter.left cfg.threads = 0 := by
            rw [heos]
            exact Nat.sub_eq_zero_of_le hi
          unfold due at hdue
          rw [hleft, Nat.sub_zero] at hdue
          exact le_milliseconds (by omega) (by omega)

end Clocked

section Runs

variable {inserted_delay loaded : ℤ} {p : Clocked cfg × ℤ}

theorem paced (hp : (clocked cfg inserted_delay loaded).Reachable p) :
    p.1.Paced inserted_delay p.2 := by
  apply hp.timed_invariant (P := fun now s => s.Paced inserted_delay now)
  · exact {
      start_le := le_refl loaded
      scatter_le := le_refl loaded
      early := fun _ => rfl
      ordered := fun he => (by cases he)
      due := fun he => (by cases he)
      delay := fun _ he => (by cases he)
      left_le := Nat.le_refl _
      stamp := fun he => (by cases he)
      zero := fun _ => ⟨rfl, Or.inr (Or.inl rfl)⟩
      inter := fun hc => absurd rfl hc }
  · exact fun _ _ _ hle h => h.wait hle
  · exact fun _ _ _ _ _ h ha => Clocked.paced_step h ha

theorem completed (hn : 0 < cfg.threads) (hp : (clocked cfg inserted_delay loaded).Reachable p) :
    p.1.Completed inserted_delay := by
  have hboth : p.1.Paced inserted_delay p.2 ∧ p.1.Completed inserted_delay := by
    apply hp.timed_invariant
      (P := fun now s => s.Paced inserted_delay now ∧ s.Completed inserted_delay)
    · exact ⟨paced .init, fun _ hc => (by cases hc)⟩
    · exact fun _ _ _ hle h => ⟨h.1.wait hle, h.2⟩
    · intro _ s _ _ ⟨_, hs⟩ h ha
      exact ⟨Clocked.paced_step h.1 ha, Clocked.completed_step hn (reachable_map hs) h.1 h.2 ha⟩
  exact hboth.2

end Runs

/-- In every run the completion time is at least one delay for each part and one for each EOS,
each a millisecond longer than asked for, and the inter-arrival time is at least one. -/
theorem completion_time_ge (cfg : Config) (inserted_delay loaded : ℤ)
    (hn : 1 ≤ cfg.number_workers) (p : Clocked cfg × ℤ)
    (hp : (clocked cfg inserted_delay loaded).Reachable p) (c : ℤ)
    (hc : p.1.completion_time = some c) :
    (cfg.copies.length + 1) * cfg.number_workers * (inserted_delay + 1) ≤ c ∧
      (cfg.copies ≠ [] → inserted_delay + 1 ≤ p.1.inter_arival_time) := by
  have hthreads : 0 < cfg.threads := by
    unfold Config.threads
    omega
  have hnum := number_workers_eq hthreads
  have hlen : cfg.photos.length = cfg.copies.length := by simp [Config.photos]
  have hpaced := paced hp
  obtain ⟨hret, hbound⟩ := completed hthreads hp c hc
  refine ⟨?_, fun hcopies => hpaced.inter fun hzero => ?_⟩
  · have hpushes : (cfg.pushes : ℤ) = (cfg.copies.length + 1) * cfg.number_workers := by
      unfold Config.pushes
      rw [hnum, hlen]
      push_cast
      ring
    rwa [← hpushes]
  · obtain ⟨i, hi, heos⟩ := scatterReturned_of_poll hthreads (reachable_map hp) hret
    rcases (hpaced.zero hzero).2 with hstamp | hleft | hnil
    · have hparts := (hpaced.stamp hstamp).1
      rw [heos] at hparts
      cases hparts
    · rw [heos] at hleft
      have hleft : cfg.threads - i = cfg.photos.length * cfg.threads + cfg.threads := hleft
      omega
    · rw [hnil] at hlen
      exact hcopies (List.eq_nil_of_length_eq_zero hlen.symm)

/-- One photo and two workers: `scatter` pushes two parts and two marks before the others begin. -/
def clockedRun : List (Thread twoWorkers.threads × ℤ) :=
  let first : Thread twoWorkers.threads := .worker ⟨0, Nat.two_pos⟩ 0
  let second : Thread twoWorkers.threads := .worker ⟨1, Nat.one_lt_two⟩ 0
  (List.flatten [[(.scatter, 1)], List.replicate 3 (.scatter, 2), [(.scatter, 3), (.scatter, 9),
    (.scatter, 9)], List.replicate 3 (.scatter, 10), List.replicate 5 (.scatter, 16),
    List.replicate 2 (.scatter, 17), List.replicate 3 (.scatter, 23), [(.scatter, 24),
    (.scatter, 30), (.scatter, 30)], List.replicate 16 (first, 31), List.replicate 5 (second, 31),
    List.replicate 9 (.collector, 32)]).map fun e => (e.1, e.2 * 1000000)

def clockedEnd : Clocked twoWorkers × ℤ :=
  ((clocked twoWorkers 5 0).exec (clocked twoWorkers 5 0).init clockedRun).get (by decide +kernel)

/-- Four pushes, each 6 milliseconds after the one before. -/
theorem completion_time_ge_twoWorkers :
    clockedEnd.1.completion_time = some 30 ∧ clockedEnd.1.inter_arival_time = 9 ∧
      (1 + 1) * 2 * (5 + 1) ≤ (30 : ℤ) ∧ 5 + 1 ≤ clockedEnd.1.inter_arival_time := by
  have hc : clockedEnd.1.completion_time = some 30 := by decide +kernel
  obtain ⟨hbound, hinter⟩ := completion_time_ge twoWorkers 5 0 (by decide) clockedEnd
    (System.reachable_get _) 30 hc
  exact ⟨hc, by decide +kernel, hbound, hinter (by decide)⟩

end Watermark.Map
