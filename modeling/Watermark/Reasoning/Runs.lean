import Watermark.Reasoning.System
import Mathlib.Data.List.GetD

/-!
# Runs — schedules taken as runs

An invariant speaks of one state at a time.  This file is about the run that leads there: what
holds before each of its steps, what an observer has written down along it, and what cannot go on
for ever.  `restrict` keeps the runs whose steps are allowed and `record` adds a history variable;
both are systems again, so what is proved about systems applies to them.
-/

namespace Watermark.Reasoning.System

variable {σ α β : Type*} {S : System σ α}

theorem exec_append (s : σ) (as bs : List α) :
    S.exec s (as ++ bs) = (S.exec s as).bind fun t => S.exec t bs := by
  induction as generalizing s with
  | nil => rfl
  | cons a as ih =>
      simp only [List.cons_append, exec]
      cases S.step s a with
      | none => rfl
      | some t => exact ih t

theorem exec_singleton {s t : σ} {a : α} (h : S.step s a = some t) : S.exec s [a] = some t := by
  show (S.step s a).bind (fun t => some t) = some t
  rw [h]
  rfl

theorem exec_trans {s t u : σ} {as bs : List α} (h : S.exec s as = some t)
    (h' : S.exec t bs = some u) : S.exec s (as ++ bs) = some u := by
  rw [exec_append, h]
  exact h'

theorem exec_step {s t u : σ} {a : α} {as : List α} (h : S.step s a = some t)
    (h' : S.exec t as = some u) : S.exec s (a :: as) = some u :=
  exec_trans (exec_singleton h) h'

-- The states a schedule that can be executed goes through.
theorem exec_take_succ {s t : σ} {as : List α} (h : S.exec s as = some t) {k : ℕ}
    (hk : k < as.length) :
    ∃ u v, S.exec s (as.take k) = some u ∧ S.step u as[k] = some v ∧
      S.exec s (as.take (k + 1)) = some v := by
  rw [← List.take_append_drop k as, exec_append, List.drop_eq_getElem_cons hk] at h
  obtain ⟨u, hu, h⟩ := Option.bind_eq_some_iff.mp h
  obtain ⟨v, hv, _⟩ := exec_cons h
  refine ⟨u, v, hu, hv, ?_⟩
  rw [List.take_add_one, List.getElem?_eq_getElem hk, exec_append, hu]
  show (S.step u as[k]).bind _ = _
  rw [hv]
  rfl

/-- The run that follows a schedule and then repeats an action that changes nothing. -/
def InfiniteRun.lasso {s : σ} (as : List α) (a : α) (h : S.exec S.init as = some s)
    (ha : S.step s a = some s) : S.InfiniteRun where
  state k := (S.exec S.init (as.take k)).getD s
  action k := as.getD k a
  start := rfl
  next k := by
    rcases Nat.lt_or_ge k as.length with hk | hk
    · obtain ⟨u, v, hu, hv, hnext⟩ := exec_take_succ h hk
      rw [hu, hnext, List.getD_eq_getElem as a hk]
      exact hv
    · rw [List.take_of_length_le hk, List.take_of_length_le (Nat.le_succ_of_le hk), h,
        List.getD_eq_default as a hk]
      exact ha

section Lasso

variable {s : σ} {as : List α} {a : α} {h : S.exec S.init as = some s} {ha : S.step s a = some s}
variable {k : ℕ}

theorem InfiniteRun.lasso_state (hk : as.length ≤ k) : (lasso as a h ha).state k = s := by
  show (S.exec S.init (as.take k)).getD s = s
  rw [List.take_of_length_le hk, h]
  rfl

theorem InfiniteRun.lasso_action (hk : as.length ≤ k) : (lasso as a h ha).action k = a :=
  List.getD_eq_default as a hk

end Lasso

theorem Reachable.exists_exec {s : σ} (h : S.Reachable s) : ∃ as, S.exec S.init as = some s := by
  induction h with
  | init => exact ⟨[], rfl⟩
  | next _ ha ih =>
      obtain ⟨as, has⟩ := ih
      exact ⟨as ++ [_], exec_trans has (exec_singleton ha)⟩

/-! ## Conditions on the steps of a run -/

/-- Every step of the schedule is taken in a state in which `P` allows it. -/
def Along (S : System σ α) (P : σ → α → Prop) (s : σ) : List α → Prop
  | [] => True
  | a :: as => P s a ∧ ∀ t, S.step s a = some t → Along S P t as

/-- Every state of the run has the property, the first and the last included. -/
def Throughout (S : System σ α) (I : σ → Prop) (s : σ) : List α → Prop
  | [] => I s
  | a :: as => I s ∧ ∀ t, S.step s a = some t → Throughout S I t as

theorem along_of_forall {P : σ → α → Prop} (hP : ∀ s a, S.Reachable s → P s a) {s : σ}
    (hs : S.Reachable s) (as : List α) : S.Along P s as := by
  induction as generalizing s with
  | nil => exact trivial
  | cons a as ih => exact ⟨hP s a hs, fun t ht => ih (hs.next ht)⟩

theorem Along.at {P : σ → α → Prop} {s u : σ} {a : α} {as bs : List α}
    (h : S.Along P s (as ++ a :: bs)) (hrun : S.exec s as = some u) : P u a := by
  induction as generalizing s with
  | nil =>
      cases hrun
      exact h.1
  | cons b as ih =>
      obtain ⟨t, ht, hu⟩ := exec_cons hrun
      exact ih (h.2 t ht) hu

theorem throughout_of_forall {I : σ → Prop} (hI : ∀ s, S.Reachable s → I s) {s : σ}
    (hs : S.Reachable s) (as : List α) : S.Throughout I s as := by
  induction as generalizing s with
  | nil => exact hI s hs
  | cons a as ih => exact ⟨hI s hs, fun t ht => ih (hs.next ht)⟩

-- What the allowed steps keep holds at the end of a run of allowed steps, and all along it.
theorem Along.throughout {P : σ → α → Prop} {I : σ → Prop}
    (hstep : ∀ s a t, S.Reachable s → I s → P s a → S.step s a = some t → I t)
    {s : σ} (hs : S.Reachable s) (h0 : I s) {as : List α} (h : S.Along P s as) :
    S.Throughout I s as := by
  induction as generalizing s with
  | nil => exact h0
  | cons a as ih => exact ⟨h0, fun t ht => ih (hs.next ht) (hstep s a t hs h0 h.1 ht) (h.2 t ht)⟩

theorem Throughout.first {I : σ → Prop} {s : σ} {as : List α} (h : S.Throughout I s as) : I s := by
  cases as with
  | nil => exact h
  | cons a as => exact h.1

theorem Throughout.mono {I J : σ → Prop} (hIJ : ∀ s, S.Reachable s → I s → J s) {s : σ}
    (hs : S.Reachable s) {as : List α} (h : S.Throughout I s as) : S.Throughout J s as := by
  induction as generalizing s with
  | nil => exact hIJ s hs h
  | cons a as ih => exact ⟨hIJ s hs h.1, fun t ht => ih (hs.next ht) (h.2 t ht)⟩

theorem Throughout.prefix {I : σ → Prop} {s t : σ} {as bs : List α}
    (h : S.Throughout I s (as ++ bs)) (hrun : S.exec s as = some t) : S.Throughout I t bs := by
  induction as generalizing s with
  | nil =>
      cases hrun
      exact h
  | cons a as ih =>
      obtain ⟨u, hu, ht⟩ := exec_cons hrun
      exact ih (h.2 u hu) ht

theorem Throughout.last {I : σ → Prop} {s t : σ} {as : List α} (h : S.Throughout I s as)
    (hrun : S.exec s as = some t) : I t := by
  have hrest : S.Throughout I t [] := by
    apply Throughout.prefix _ hrun
    rwa [List.append_nil]
  exact hrest

-- What a step keeps when it ends in `J` is kept by a run inside `J`.
theorem Throughout.keeps {I J : σ → Prop}
    (hstep : ∀ s a t, S.Reachable s → I s → S.step s a = some t → J t → I t)
    {s t : σ} (hs : S.Reachable s) (h0 : I s) {as : List α} (h : S.Throughout J s as)
    (hrun : S.exec s as = some t) : I t := by
  induction as generalizing s with
  | nil =>
      cases hrun
      exact h0
  | cons a as ih =>
      obtain ⟨u, hu, ht⟩ := exec_cons hrun
      have hrest := h.2 u hu
      exact ih (hs.next hu) (hstep s a u hs h0 hu hrest.first) hrest ht

-- A run with a step that is not allowed splits at the first such step.
theorem exists_first_of_not_along {P : σ → α → Prop} {s t : σ} {as : List α}
    (h : ¬S.Along P s as) (hrun : S.exec s as = some t) :
    ∃ before a after u v, as = before ++ a :: after ∧ S.exec s before = some u ∧
      S.Along P s before ∧ ¬P u a ∧ S.step u a = some v ∧ S.exec v after = some t := by
  induction as generalizing s with
  | nil => exact absurd trivial h
  | cons a as ih =>
      obtain ⟨v, hv, ht⟩ := exec_cons hrun
      by_cases hP : P s a
      · have hrest : ¬S.Along P v as := by
          intro hrest
          apply h
          refine ⟨hP, fun t ht => ?_⟩
          rw [hv] at ht
          cases ht
          exact hrest
        obtain ⟨before, b, after, u, w, rfl, hu, halong, hb, hw, hend⟩ := ih hrest ht
        refine ⟨a :: before, b, after, u, w, rfl, exec_step hv hu, ⟨hP, fun t ht => ?_⟩, hb, hw,
          hend⟩
        rw [hv] at ht
        cases ht
        exact halong
      · exact ⟨[], a, as, s, v, rfl, rfl, trivial, hP, hv, ht⟩

theorem Along.keeps {P : σ → α → Prop} {I : σ → Prop}
    (hstep : ∀ s a t, S.Reachable s → I s → P s a → S.step s a = some t → I t)
    {s t : σ} (hs : S.Reachable s) (h0 : I s) {as : List α} (h : S.Along P s as)
    (hrun : S.exec s as = some t) : I t := by
  apply Throughout.last _ hrun
  exact h.throughout hstep hs h0

-- What every step that is not allowed leads to, and every step keeps, holds at the end of a run
-- that is not allowed.
theorem of_not_along {P : σ → α → Prop} {J : σ → Prop}
    (hbad : ∀ s a t, S.Reachable s → ¬P s a → S.step s a = some t → J t)
    (hkeep : ∀ s a t, S.Reachable s → J s → S.step s a = some t → J t)
    {s t : σ} (hs : S.Reachable s) {as : List α} (h : ¬S.Along P s as)
    (hrun : S.exec s as = some t) : J t := by
  obtain ⟨before, a, after, u, v, _, hu, _, hnot, hv, hend⟩ := exists_first_of_not_along h hrun
  have hreach := hs.exec hu
  exact (hreach.next hv).exec_keeps hkeep (hbad u a v hreach hnot hv) hend

/-! ## Runs that get somewhere -/

-- If outside `goal` some step keeps `I` and decreases the measure, a run inside `I` reaches `goal`.
theorem Reachable.exists_run {μ : σ → ℕ} {I goal : σ → Prop}
    (hprog : ∀ s, S.Reachable s → I s → ¬goal s →
      ∃ a t, S.step s a = some t ∧ I t ∧ μ t < μ s)
    {s : σ} (hs : S.Reachable s) (h0 : I s) :
    ∃ as t, S.exec s as = some t ∧ I t ∧ goal t := by
  induction hm : μ s using Nat.strong_induction_on generalizing s with
  | h m ih =>
      by_cases hg : goal s
      · exact ⟨[], s, rfl, h0, hg⟩
      · obtain ⟨a, t, ht, hI, hlt⟩ := hprog s hs h0 hg
        obtain ⟨as, u, hu, hend⟩ := ih (μ t) (hm ▸ hlt) (hs.next ht) hI rfl
        exact ⟨a :: as, u, exec_step ht hu, hend⟩

-- A measure that never grows again decreases only finitely often.
theorem InfiniteRun.not_decreasing_forever (r : S.InfiniteRun) {μ : σ → ℕ} {n : ℕ}
    (hle : ∀ m, n ≤ m → μ (r.state (m + 1)) ≤ μ (r.state m)) :
    ¬∀ m, n ≤ m → ∃ k, m ≤ k ∧ μ (r.state (k + 1)) < μ (r.state k) := by
  intro hlt
  have hmono : ∀ m d, n ≤ m → μ (r.state (m + d)) ≤ μ (r.state m) := by
    intro m d hm
    induction d with
    | zero => exact Nat.le_refl _
    | succ d ih => exact (hle (m + d) (by omega)).trans ih
  have hdown : ∀ b, ∀ m, n ≤ m → b ≤ μ (r.state m) := by
    intro b
    induction b with
    | zero => exact fun m _ => Nat.zero_le _
    | succ b ih =>
        intro m hm
        obtain ⟨k, hk, hdec⟩ := hlt m hm
        have hfirst := hmono m (k - m) hm
        rw [Nat.add_sub_cancel' hk] at hfirst
        have hlast := ih (k + 1) (by omega)
        omega
  have hend := hdown (μ (r.state n) + 1) n (Nat.le_refl n)
  omega

-- If idle steps do not increase the measure and the others decrease it, an infinite run takes idle
-- steps only from some point on.
theorem InfiniteRun.idle_from (r : S.InfiniteRun) {μ : σ → ℕ} {idle : σ → α → σ → Prop}
    (hidle : ∀ s a t, idle s a t → μ t ≤ μ s)
    (hstep : ∀ s a t, S.Reachable s → S.step s a = some t → idle s a t ∨ μ t < μ s) :
    ∃ m, ∀ k, m ≤ k → idle (r.state k) (r.action k) (r.state (k + 1)) := by
  by_contra hno
  have hrun : ∀ k, idle (r.state k) (r.action k) (r.state (k + 1)) ∨
      μ (r.state (k + 1)) < μ (r.state k) :=
    fun k => hstep _ _ _ (r.reachable k) (r.next k)
  have hle : ∀ k, 0 ≤ k → μ (r.state (k + 1)) ≤ μ (r.state k) := by
    intro k _
    rcases hrun k with h | h
    · exact hidle _ _ _ h
    · exact Nat.le_of_lt h
  apply r.not_decreasing_forever hle
  intro m _
  by_contra hnever
  refine hno ⟨m, fun k hk => (hrun k).resolve_right fun hlt => hnever ⟨k, hk, hlt⟩⟩

-- An infinite run from a reachable state is the rest of one from the initial state.
theorem Reachable.exists_infiniteRun {s : σ} (hs : S.Reachable s) (state : ℕ → σ) (action : ℕ → α)
    (hstart : state 0 = s) (hnext : ∀ n, S.step (state n) (action n) = some (state (n + 1))) :
    ∃ (r : S.InfiniteRun) (m : ℕ), ∀ k,
      r.state (m + k) = state k ∧ r.action (m + k) = action k := by
  induction hs generalizing state action with
  | init =>
      refine ⟨⟨state, action, hstart, hnext⟩, 0, fun k => ?_⟩
      rw [Nat.zero_add]
      exact ⟨rfl, rfl⟩
  | @next s t a _ ha ih =>
      let state' : ℕ → σ
        | 0 => s
        | n + 1 => state n
      let action' : ℕ → α
        | 0 => a
        | n + 1 => action n
      have hnext' : ∀ n, S.step (state' n) (action' n) = some (state' (n + 1)) := by
        intro n
        cases n with
        | zero => exact ha.trans (congrArg some hstart.symm)
        | succ n => exact hnext n
      obtain ⟨r, m, hr⟩ := ih state' action' rfl hnext'
      refine ⟨r, m + 1, fun k => ?_⟩
      rw [Nat.add_right_comm]
      exact hr (k + 1)

/-! ## Fewer runs, and runs with a history -/

/-- The runs all of whose steps are allowed. -/
def restrict (S : System σ α) (allowed : σ → α → Bool) : System σ α where
  init := S.init
  step s a := if allowed s a then S.step s a else none

theorem restrict_step {allowed : σ → α → Bool} {s t : σ} {a : α} :
    (S.restrict allowed).step s a = some t ↔ allowed s a = true ∧ S.step s a = some t := by
  show (if allowed s a then S.step s a else none) = some t ↔ _
  rw [Option.ite_none_right_eq_some]

theorem Reachable.of_restrict {allowed : σ → α → Bool} {s : σ}
    (h : (S.restrict allowed).Reachable s) : S.Reachable s := by
  induction h with
  | init => exact .init
  | next _ ha ih => exact ih.next (restrict_step.mp ha).2

/-- The same runs, with what is observed at each step written down. -/
def record (S : System σ α) (obs : σ → α → List β) : System (σ × List β) α where
  init := (S.init, [])
  step p a := (S.step p.1 a).map fun t => (t, p.2 ++ obs p.1 a)

theorem record_step {obs : σ → α → List β} {p q : σ × List β} {a : α} :
    (S.record obs).step p a = some q ↔ S.step p.1 a = some q.1 ∧ q.2 = p.2 ++ obs p.1 a := by
  show (S.step p.1 a).map (fun t => (t, p.2 ++ obs p.1 a)) = some q ↔ _
  rw [Option.map_eq_some_iff]
  constructor
  · rintro ⟨t, ht, rfl⟩
    exact ⟨ht, rfl⟩
  · intro ⟨ht, hl⟩
    exact ⟨q.1, ht, Prod.ext rfl hl.symm⟩

theorem Reachable.of_record {obs : σ → α → List β} {p : σ × List β}
    (h : (S.record obs).Reachable p) : S.Reachable p.1 := by
  induction h with
  | init => exact .init
  | next _ ha ih => exact ih.next (record_step.mp ha).1

-- The history is written down without changing the run.
theorem exec_record (obs : σ → α → List β) {s t : σ} {as : List α} (l : List β)
    (h : S.exec s as = some t) : ∃ l', (S.record obs).exec (s, l) as = some (t, l') := by
  induction as generalizing s l with
  | nil =>
      cases h
      exact ⟨l, rfl⟩
  | cons a as ih =>
      obtain ⟨u, hu, ht⟩ := exec_cons h
      obtain ⟨l', hl⟩ := ih (l ++ obs s a) ht
      exact ⟨l', exec_step (record_step.mpr ⟨hu, rfl⟩) hl⟩

theorem Reachable.exists_record (obs : σ → α → List β) {s : σ} (hs : S.Reachable s) :
    ∃ l, (S.record obs).Reachable (s, l) := by
  obtain ⟨as, hrun⟩ := hs.exists_exec
  obtain ⟨l, hl⟩ := exec_record obs [] hrun
  exact ⟨l, Reachable.init.exec hl⟩

end Watermark.Reasoning.System
