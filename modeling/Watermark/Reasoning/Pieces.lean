import Mathlib.Algebra.BigOperators.Group.Multiset.Basic
import Mathlib.Algebra.GroupWithZero.Nat
import Mathlib.Algebra.Order.Group.Multiset
import Mathlib.Data.List.Perm.Basic

/-!
# Pieces — a state as a bag of pieces, of which a step replaces one

Where a step takes a piece from any position of some list and puts what it makes of it into
another, the order of the lists carries no information.  Seen as a bag the step replaces one piece,
and what each replacement keeps, the bag keeps.
-/

namespace Watermark.Reasoning

variable {α β : Type*}

/-! ## Lists as bags -/

theorem coe_map_concat (f : α → β) (l : List α) (a : α) :
    ((l ++ [a]).map f : Multiset β) = f a ::ₘ ↑(l.map f) := by
  rw [List.map_append, List.map_singleton, ← Multiset.coe_add, Multiset.add_comm]
  rfl

theorem coe_map_eraseIdx (f : α → β) {l : List α} {k : ℕ} {a : α} (h : l[k]? = some a) :
    (l.map f : Multiset β) = f a ::ₘ ↑((l.eraseIdx k).map f) := by
  obtain ⟨hk, ha⟩ := List.getElem?_eq_some_iff.mp h
  have hperm := (List.getElem_cons_eraseIdx_perm hk).symm.map f
  rw [ha] at hperm
  exact Multiset.coe_eq_coe.mpr hperm

theorem coe_map_set (f : α → β) {l : List α} {k : ℕ} {a : α} (h : l[k]? = some a) (b : α) :
    ((l.set k b).map f : Multiset β) = f b ::ₘ ↑((l.eraseIdx k).map f) := by
  obtain ⟨hk, _⟩ := List.getElem?_eq_some_iff.mp h
  exact Multiset.coe_eq_coe.mpr ((List.set_perm_cons_eraseIdx hk b).map f)

-- An element of the bag is at some position of the list, and erasing it there leaves the others.
theorem exists_getElem?_of_coe {l : List α} {a : α} {m : Multiset α}
    (h : (l : Multiset α) = a ::ₘ m) :
    ∃ k, l[k]? = some a ∧ ((l.eraseIdx k : List α) : Multiset α) = m := by
  have hmem : a ∈ l := by
    rw [← Multiset.mem_coe, h]
    exact Multiset.mem_cons_self a m
  obtain ⟨k, hk⟩ := List.mem_iff_getElem?.mp hmem
  refine ⟨k, hk, ?_⟩
  have herase := coe_map_eraseIdx id hk
  rw [List.map_id, List.map_id, h] at herase
  exact ((Multiset.cons_inj_right a).mp herase).symm

-- What replacing or erasing one element does to a sum over the list.
theorem sum_map_set (f : α → ℕ) {l : List α} {k : ℕ} {a : α} (h : l[k]? = some a) (b : α) :
    ((l.set k b).map f).sum + f a = (l.map f).sum + f b := by
  have hset := congrArg Multiset.sum (coe_map_set f h b)
  have herase := congrArg Multiset.sum (coe_map_eraseIdx f h)
  simp only [Multiset.sum_cons, Multiset.sum_coe] at hset herase
  omega

theorem sum_map_eraseIdx (f : α → ℕ) {l : List α} {k : ℕ} {a : α} (h : l[k]? = some a) :
    ((l.eraseIdx k).map f).sum + f a = (l.map f).sum := by
  have herase := congrArg Multiset.sum (coe_map_eraseIdx f h)
  simp only [Multiset.sum_cons, Multiset.sum_coe] at herase
  omega

/-! ## Replacing one piece -/

/-- The second bag has a piece `b` where the first has a piece `a`, with `r a b`. -/
def Replaces (r : α → α → Prop) (p q : Multiset α) : Prop :=
  ∃ a b rest, p = a ::ₘ rest ∧ q = b ::ₘ rest ∧ r a b

namespace Replaces

variable {r : α → α → Prop} {p q : Multiset α}

theorem intro {a b : α} {rest : Multiset α} (hp : p = a ::ₘ rest) (hq : q = b ::ₘ rest)
    (hr : r a b) : Replaces r p q :=
  ⟨a, b, rest, hp, hq, hr⟩

theorem map_eq (h : Replaces r p q) {f : α → β} (hf : ∀ a b, r a b → f b = f a) :
    q.map f = p.map f := by
  obtain ⟨a, b, rest, rfl, rfl, hr⟩ := h
  rw [Multiset.map_cons, Multiset.map_cons, hf a b hr]

theorem forall_mem (h : Replaces r p q) {Q : α → Prop} (hQ : ∀ a b, r a b → Q a → Q b)
    (hp : ∀ a ∈ p, Q a) : ∀ b ∈ q, Q b := by
  obtain ⟨a, b, rest, rfl, rfl, hr⟩ := h
  intro c hc
  rcases Multiset.mem_cons.mp hc with rfl | hc
  · exact hQ a c hr (hp a (Multiset.mem_cons_self _ _))
  · exact hp c (Multiset.mem_cons_of_mem hc)

-- A measure that each replacement decreases.
theorem sum_lt (h : Replaces r p q) {μ : α → ℕ} (hμ : ∀ a b, r a b → μ b < μ a) :
    (q.map μ).sum < (p.map μ).sum := by
  obtain ⟨a, b, rest, rfl, rfl, hr⟩ := h
  have hlt := hμ a b hr
  simp only [Multiset.map_cons, Multiset.sum_cons]
  omega

end Replaces

end Watermark.Reasoning
