import Mathlib.Data.List.Nodup
import Watermark.FastFlow.Channel.UBuffer
import Watermark.Reasoning.Threads

/-!
# Chain — the buffers of an unbounded buffer

The consumer reads along a chain of buffers, and the producer writes to the last one of it or is
about to.  Buffers between the two are not empty, and those outside the chain are; this is what
lets the consumer leave an empty buffer behind.
-/

namespace Watermark.FastFlow.USWSRPtrBuffer

open Reasoning

variable {α : Type*}

/-- The new buffer at the end of the chain, which the producer does not write to yet. -/
def Producer.ahead : Producer α → List ℕ
  | .adopt _ t => [t]
  | _ => []

/-- The producer has found its buffer full and is on its way to a new one. -/
def Producer.leaving : Producer α → Bool
  | .cache _ => true
  | .malloc _ => true
  | .enqueue _ _ => true
  | .adopt _ _ => true
  | _ => false

/-- In this call of `pop` the consumer has not taken anything from the first buffer of the chain. -/
def Consumer.settled : Consumer → Bool
  | .release _ => true
  | .cache _ => true
  | .free _ => true
  | .adopt _ => true
  | .pop => true
  | _ => false

/-- The consumer has seen that its buffer is not the producer's. -/
def Consumer.turned : Consumer → Bool
  | .retest => true
  | .next => true
  | _ => false

namespace State

/-- The buffers of the chain the consumer has not taken anything from since it has looked. -/
def unread (s : State α) : List ℕ := if s.consumer.settled then s.chain else s.inuse

/-- The buffers the producer has found full, `front` being those it has left. -/
def filled (s : State α) (front : List ℕ) : List ℕ :=
  front ++ if s.producer.leaving then [s.buf_w] else []

/-- The buffers that are not in the chain, and the one the producer has not written to. -/
def spare (s : State α) : List ℕ :=
  s.consumer.released s.buf_r ++ (s.producer.taken ++ s.bufcache) ++ s.producer.ahead

structure Inv (c : Config) (s : State α) : Prop where
  nodup : s.live.Nodup
  valid : ∀ b ∈ s.live, (s.heap b).Valid c.size
  spare : ∀ b ∈ s.spare, (s.heap b).held = []
  chain : ∃ front, s.chain = front ++ s.buf_w :: s.producer.ahead ∧
    ∀ b ∈ s.filled front, b ∈ s.unread → (s.heap b).held ≠ []
  cached : s.bufcache.length ≤ cacheSize
  room : ∀ data, s.producer = .push data → (s.heap s.buf_w).held.length < c.size.toNat
  fixed : c.fixedsize = true → s.chain = [s.buf_w] ∧ s.producer.leaving = false
  turned : s.consumer.turned = true → s.buf_r ≠ s.buf_w
  drained : s.consumer = .next → (s.heap s.buf_r).held = []

end State

variable {c : Config} {s t : State α}

namespace State.Inv

theorem buf_w_mem (h : s.Inv c) : s.buf_w ∈ s.chain := by
  obtain ⟨front, hchain, _⟩ := h.chain
  rw [hchain]
  exact List.mem_append_right _ List.mem_cons_self

theorem valid_buf_w (h : s.Inv c) : (s.heap s.buf_w).Valid c.size :=
  h.valid _ (List.mem_append_left _ h.buf_w_mem)

theorem nodup_chain (h : s.Inv c) : s.chain.Nodup := (List.nodup_append.mp h.nodup).1

-- The chain, the buffer that is given back, the one that is taken and the cache are disjoint.
theorem notMem_spare (h : s.Inv c) {b : ℕ} (hb : b ∈ s.chain) :
    b ∉ s.consumer.released s.buf_r ++ (s.producer.taken ++ s.bufcache) := fun hspare =>
  (List.nodup_append.mp h.nodup).2.2 b hb b hspare rfl

end State.Inv

-- A new content of one buffer does not change what other buffers hold.
theorem held_update {heap : ℕ → SWSRPtrBuffer α} {b x : ℕ} {q : SWSRPtrBuffer α} (h : x ≠ b) :
    (Function.update heap b q x).held = (heap x).held := by
  rw [Function.update_of_ne h]

theorem flatMap_update {heap : ℕ → SWSRPtrBuffer α} {b : ℕ} {q : SWSRPtrBuffer α} {l : List ℕ}
    (h : b ∉ l) : (l.flatMap fun x => (Function.update heap b q x).held) =
      l.flatMap fun x => (heap x).held := by
  apply List.flatMap_congr
  intro x hx
  exact held_update fun heq => h (heq ▸ hx)

/-! ## The producer -/

section Producer

variable {heap : ℕ → SWSRPtrBuffer α} {buf_r buf_w b : ℕ} {inuse bufcache : List ℕ}
variable {consumer : Consumer} {data : α}

theorem inv_room (h : State.Inv c ⟨heap, buf_r, buf_w, inuse, bufcache, .test data, consumer⟩)
    (ha : (heap buf_w).available = true) :
    State.Inv c ⟨heap, buf_r, buf_w, inuse, bufcache, .push data, consumer⟩ where
  nodup := h.nodup
  valid := h.valid
  spare := h.spare
  chain := h.chain
  cached := h.cached
  room _ _ := h.valid_buf_w.available_iff.mp ha
  fixed := h.fixed
  turned := h.turned
  drained := h.drained

-- A buffer without room is not empty.
theorem inv_full (h : State.Inv c ⟨heap, buf_r, buf_w, inuse, bufcache, .test data, consumer⟩)
    (ha : ¬(heap buf_w).available = true) (hfixed : ¬c.fixedsize = true) :
    State.Inv c ⟨heap, buf_r, buf_w, inuse, bufcache, .cache data, consumer⟩ where
  nodup := h.nodup
  valid := h.valid
  spare := h.spare
  chain := by
    obtain ⟨front, hchain, hfilled⟩ := h.chain
    refine ⟨front, hchain, fun b hb hunread hnil => ?_⟩
    rcases List.mem_append.mp hb with hb | hb
    · exact hfilled b (List.mem_append_left _ hb) hunread hnil
    · rw [List.mem_singleton.mp hb] at hnil
      apply ha
      rw [h.valid_buf_w.available_iff]
      change (heap buf_w).held = [] at hnil
      show (heap buf_w).held.length < _
      rw [hnil]
      exact c.size_pos
  cached := h.cached
  room _ hd := by cases hd
  fixed hf := absurd hf hfixed
  turned := h.turned
  drained := h.drained

theorem inv_cached
    (h : State.Inv c ⟨heap, buf_r, buf_w, inuse, b :: bufcache, .cache data, consumer⟩) :
    State.Inv c ⟨heap, buf_r, buf_w, inuse, bufcache, .enqueue data b, consumer⟩ where
  nodup := h.nodup
  valid := h.valid
  spare := h.spare
  chain := h.chain
  cached := Nat.le_of_succ_le h.cached
  room _ hd := by cases hd
  fixed := h.fixed
  turned := h.turned
  drained := h.drained

theorem inv_cacheEmpty
    (h : State.Inv c ⟨heap, buf_r, buf_w, inuse, bufcache, .cache data, consumer⟩) :
    State.Inv c ⟨heap, buf_r, buf_w, inuse, bufcache, .malloc data, consumer⟩ where
  nodup := h.nodup
  valid := h.valid
  spare := h.spare
  chain := h.chain
  cached := h.cached
  room _ hd := by cases hd
  fixed := h.fixed
  turned := h.turned
  drained := h.drained

-- A new buffer is none of those in use; it may be one that has just been freed.
theorem inv_malloc {address : ℕ}
    (h : State.Inv c ⟨heap, buf_r, buf_w, inuse, bufcache, .malloc data, consumer⟩)
    (hnew : address ∉ State.live ⟨heap, buf_r, buf_w, inuse, bufcache, .malloc data, consumer⟩) :
    State.Inv c ⟨Function.update heap address (.reset c.size c.size_pos), buf_r, buf_w, inuse,
      bufcache, .enqueue data address, consumer⟩ := by
  let s : State α := ⟨heap, buf_r, buf_w, inuse, bufcache, .malloc data, consumer⟩
  let t : State α := ⟨Function.update heap address (.reset c.size c.size_pos), buf_r, buf_w, inuse,
    bufcache, .enqueue data address, consumer⟩
  have hlive : t.live.Perm (address :: s.live) := by
    show (s.chain ++ (consumer.released buf_r ++ address :: bufcache)).Perm
      (address :: (s.chain ++ (consumer.released buf_r ++ bufcache)))
    rw [← List.append_assoc, ← List.append_assoc]
    exact List.perm_middle
  have hold : ∀ x ∈ s.live, t.heap x = heap x := by
    intro x hx
    have hne : x ≠ address := fun heq => hnew (heq ▸ hx)
    exact Function.update_of_ne hne _ _
  have hreset : t.heap address = .reset c.size c.size_pos := Function.update_self ..
  have hchain : ∀ x ∈ s.chain, x ∈ s.live := fun x hx => List.mem_append_left _ hx
  refine ⟨?_, fun x hx => ?_, fun x hx => ?_, ?_, h.cached, fun _ hd => (by cases hd), h.fixed,
    h.turned, fun hc => ?_⟩
  · exact hlive.nodup_iff.mpr (List.nodup_cons.mpr ⟨hnew, h.nodup⟩)
  · rcases List.mem_cons.mp (hlive.mem_iff.mp hx) with rfl | hx
    · rw [hreset]
      exact (SWSRPtrBuffer.Valid.reset c.size_pos).1
    · rw [hold x hx]
      exact h.valid x hx
  · have hx' : x ∈ consumer.released buf_r ++ bufcache ∨ x = address := by
      simp only [State.spare, Producer.taken, Producer.ahead, List.mem_append, List.append_nil,
        List.mem_singleton] at hx ⊢
      tauto
    rcases hx' with hx | rfl
    · rw [hold x (List.mem_append_right _ hx)]
      exact h.spare x (List.mem_append_left _ hx)
    · rw [hreset]
      exact (SWSRPtrBuffer.Valid.reset c.size_pos).2
  · obtain ⟨front, heq, hfilled⟩ := h.chain
    refine ⟨front, heq, fun x hx hunread => ?_⟩
    have hmem : x ∈ s.chain := by
      change s.chain = front ++ buf_w :: [] at heq
      rw [heq]
      exact hx
    rw [hold x (hchain x hmem)]
    exact hfilled x hx hunread
  · have hc' : consumer = .next := hc
    subst hc'
    rw [hold buf_r (hchain buf_r List.mem_cons_self)]
    exact h.drained rfl

theorem inv_enqueue
    (h : State.Inv c ⟨heap, buf_r, buf_w, inuse, bufcache, .enqueue data b, consumer⟩) :
    State.Inv c ⟨heap, buf_r, buf_w, inuse ++ [b], bufcache, .adopt data b, consumer⟩ := by
  let s : State α := ⟨heap, buf_r, buf_w, inuse, bufcache, .enqueue data b, consumer⟩
  let t : State α := ⟨heap, buf_r, buf_w, inuse ++ [b], bufcache, .adopt data b, consumer⟩
  have hlive : t.live.Perm s.live := by
    show (s.chain ++ [b] ++ (consumer.released buf_r ++ bufcache)).Perm
      (s.chain ++ (consumer.released buf_r ++ b :: bufcache))
    rw [List.append_assoc, List.singleton_append]
    exact List.Perm.append_left _ List.perm_middle.symm
  have hb : b ∉ s.chain := fun hmem => h.notMem_spare hmem
    (List.mem_append_right _ (List.mem_append_left _ List.mem_cons_self))
  refine ⟨hlive.nodup_iff.mpr h.nodup, fun x hx => h.valid x (hlive.mem_iff.mp hx), fun x hx => ?_,
    ?_, h.cached, fun _ hd => (by cases hd), fun hf => ?_, h.turned, h.drained⟩
  · apply h.spare x
    simp only [State.spare, Producer.taken, Producer.ahead, List.mem_append, List.append_nil,
      List.nil_append] at hx ⊢
    tauto
  · obtain ⟨front, heq, hfilled⟩ := h.chain
    have heq' : s.chain = front ++ [buf_w] := heq
    refine ⟨front, ?_, fun x hx hunread => ?_⟩
    · show s.chain ++ [b] = front ++ buf_w :: [b]
      rw [heq', List.append_assoc]
      rfl
    · have hmem : x ∈ s.chain := by
        rw [heq']
        exact hx
      apply hfilled x hx
      have hne : x ≠ b := fun heq => hb (heq ▸ hmem)
      unfold State.unread at hunread ⊢
      split
      · exact hmem
      · rename_i hnot
        rw [if_neg hnot] at hunread
        exact (List.mem_append.mp hunread).resolve_right fun hx => hne (List.mem_singleton.mp hx)
  · have hleaving := (h.fixed hf).2
    cases hleaving

-- The producer's new buffer is not the consumer's, which comes before it in the chain.
theorem adopt_ne (h : State.Inv c ⟨heap, buf_r, buf_w, inuse, bufcache, .adopt data b, consumer⟩)
    (hreading : consumer.reading buf_r = buf_r) : buf_r ≠ b := by
  obtain ⟨front, heq, _⟩ := h.chain
  have hchain : buf_r :: inuse = front ++ buf_w :: [b] := by
    rw [← hreading]
    exact heq
  have hnodup : (buf_r :: inuse).Nodup := by
    rw [← hreading]
    exact h.nodup_chain
  have hmem : b ∈ inuse := by
    cases front with
    | nil =>
        rw [(List.cons.inj hchain).2]
        exact List.mem_cons_self
    | cons a front =>
        rw [(List.cons.inj hchain).2]
        exact List.mem_append_right _ (List.mem_cons_of_mem _ List.mem_cons_self)
  intro heq
  rw [heq] at hnodup
  exact (List.nodup_cons.mp hnodup).1 hmem

theorem inv_adopt
    (h : State.Inv c ⟨heap, buf_r, buf_w, inuse, bufcache, .adopt data b, consumer⟩) :
    State.Inv c ⟨heap, buf_r, b, inuse, bufcache, .push data, consumer⟩ := by
  obtain ⟨front, heq, hfilled⟩ := h.chain
  refine ⟨h.nodup, h.valid, fun x hx => ?_, ⟨front ++ [buf_w], ?_, fun x hx hunread => ?_⟩,
    h.cached, fun d _ => ?_, fun hf => ?_, fun hc => ?_, h.drained⟩
  · apply h.spare x
    simp only [State.spare, Producer.taken, Producer.ahead, List.mem_append, List.append_nil,
      List.nil_append] at hx ⊢
    tauto
  · show _ = front ++ [buf_w] ++ b :: []
    rw [List.append_assoc]
    exact heq
  · apply hfilled x _ hunread
    change x ∈ front ++ [buf_w] ++ [] at hx
    rw [List.append_nil] at hx
    exact hx
  · have hheld : (heap b).held = [] := h.spare b (List.mem_append_right _ List.mem_cons_self)
    show (heap b).held.length < _
    rw [hheld]
    exact c.size_pos
  · have hleaving := (h.fixed hf).2
    cases hleaving
  · apply adopt_ne h
    cases consumer <;> first | rfl | cases hc

theorem inv_push {q : SWSRPtrBuffer α}
    (h : State.Inv c ⟨heap, buf_r, buf_w, inuse, bufcache, .push data, consumer⟩)
    (hvalid : q.Valid c.size) (hheld : q.held = (heap buf_w).held ++ [data]) :
    State.Inv c ⟨Function.update heap buf_w q, buf_r, buf_w, inuse, bufcache, .idle, consumer⟩ := by
  let s : State α := ⟨heap, buf_r, buf_w, inuse, bufcache, .push data, consumer⟩
  refine ⟨h.nodup, fun x hx => ?_, fun x hx => ?_, ?_, h.cached, fun _ hd => (by cases hd), h.fixed,
    h.turned, fun hc => ?_⟩
  · exact forall_update (fun x v => x ∈ s.live → SWSRPtrBuffer.Valid c.size v) (fun _ => hvalid)
      (fun x _ hx => h.valid x hx) x hx
  · have hx' : x ∈ consumer.released buf_r ++ bufcache := by
      simpa [State.spare, Producer.taken, Producer.ahead] using hx
    have hne : x ≠ buf_w := fun heq => h.notMem_spare h.buf_w_mem (heq ▸ hx')
    rw [held_update hne]
    exact h.spare x (List.mem_append_left _ hx')
  · obtain ⟨front, heq, hfilled⟩ := h.chain
    refine ⟨front, heq, fun x hx hunread => ?_⟩
    refine forall_update (fun x v => (heap x).held ≠ [] → SWSRPtrBuffer.held v ≠ [])
      (fun _ => ?_) (fun x _ hx => hx) x (hfilled x hx hunread)
    rw [hheld]
    exact List.append_ne_nil_of_right_ne_nil _ (List.cons_ne_nil _ _)
  · have hc' : consumer = .next := hc
    subst hc'
    rw [held_update (h.turned rfl)]
    exact h.drained rfl

end Producer

/-! ## The consumer -/

section Consumer

variable {heap : ℕ → SWSRPtrBuffer α} {buf_r buf_w tmp : ℕ} {inuse bufcache : List ℕ}
variable {producer : Producer α}

theorem inv_compare (h : State.Inv c ⟨heap, buf_r, buf_w, inuse, bufcache, producer, .test⟩) :
    State.Inv c ⟨heap, buf_r, buf_w, inuse, bufcache, producer, .compare⟩ :=
  ⟨h.nodup, h.valid, h.spare, h.chain, h.cached, h.room, h.fixed,
    fun hc => (by cases hc), fun hc => (by cases hc)⟩

theorem inv_retest (h : State.Inv c ⟨heap, buf_r, buf_w, inuse, bufcache, producer, .compare⟩)
    (hne : buf_r ≠ buf_w) :
    State.Inv c ⟨heap, buf_r, buf_w, inuse, bufcache, producer, .retest⟩ :=
  ⟨h.nodup, h.valid, h.spare, h.chain, h.cached, h.room, h.fixed, fun _ => hne,
    fun hc => (by cases hc)⟩

theorem inv_next (h : State.Inv c ⟨heap, buf_r, buf_w, inuse, bufcache, producer, .retest⟩)
    (hnil : (heap buf_r).held = []) :
    State.Inv c ⟨heap, buf_r, buf_w, inuse, bufcache, producer, .next⟩ :=
  ⟨h.nodup, h.valid, h.spare, h.chain, h.cached, h.room, h.fixed,
    fun _ => h.turned rfl, fun _ => hnil⟩

-- The consumer has found something in its buffer.
theorem inv_nonempty {consumer : Consumer} (hc : consumer = .test ∨ consumer = .retest)
    (h : State.Inv c ⟨heap, buf_r, buf_w, inuse, bufcache, producer, consumer⟩)
    (hne : (heap buf_r).held ≠ []) :
    State.Inv c ⟨heap, buf_r, buf_w, inuse, bufcache, producer, .pop⟩ := by
  have hchain : State.chain ⟨heap, buf_r, buf_w, inuse, bufcache, producer, consumer⟩ =
      buf_r :: inuse := by
    rcases hc with rfl | rfl <;> rfl
  have hinv : State.Inv c ⟨heap, buf_r, buf_w, inuse, bufcache, producer, .test⟩ := by
    rcases hc with rfl | rfl
    · exact h
    · exact ⟨h.nodup, h.valid, h.spare, h.chain, h.cached, h.room, h.fixed,
        fun hc => (by cases hc), fun hc => (by cases hc)⟩
  obtain ⟨front, heq, hfilled⟩ := hinv.chain
  refine ⟨hinv.nodup, hinv.valid, hinv.spare, ⟨front, heq, fun b hb hunread => ?_⟩, hinv.cached,
    hinv.room, hinv.fixed, fun hc => (by cases hc),
    fun hc => (by cases hc)⟩
  rcases List.mem_cons.mp hunread with rfl | hmem
  · exact hne
  · exact hfilled b hb hmem

theorem inv_release
    (h : State.Inv c ⟨heap, buf_r, buf_w, tmp :: inuse, bufcache, producer, .next⟩) :
    State.Inv c ⟨heap, buf_r, buf_w, inuse, bufcache, producer, .release tmp⟩ := by
  let s : State α := ⟨heap, buf_r, buf_w, tmp :: inuse, bufcache, producer, .next⟩
  let t : State α := ⟨heap, buf_r, buf_w, inuse, bufcache, producer, .release tmp⟩
  have hlive : t.live.Perm s.live := by
    show ((tmp :: inuse) ++ buf_r :: (producer.taken ++ bufcache)).Perm _
    exact List.perm_middle
  refine ⟨hlive.nodup_iff.mpr h.nodup, fun x hx => h.valid x (hlive.mem_iff.mp hx), fun x hx => ?_,
    ?_, h.cached, h.room, fun hf => ?_, fun hc => (by cases hc),
    fun hc => (by cases hc)⟩
  · rcases List.mem_cons.mp hx with rfl | hx
    · exact h.drained rfl
    · exact h.spare x hx
  · obtain ⟨front, heq, hfilled⟩ := h.chain
    have heq' : buf_r :: tmp :: inuse = front ++ buf_w :: producer.ahead := heq
    cases front with
    | nil => exact absurd (List.cons.inj heq').1 (h.turned rfl)
    | cons a front =>
        refine ⟨front, (List.cons.inj heq').2, fun b hb hunread => ?_⟩
        exact hfilled b (List.mem_cons_of_mem a hb) hunread
  · have hone : buf_r :: tmp :: inuse = [buf_w] := (h.fixed hf).1
    cases (List.cons.inj hone).2

-- The consumer knows of another buffer, so there is one.
theorem next_ne_nil (h : State.Inv c ⟨heap, buf_r, buf_w, [], bufcache, producer, .next⟩) :
    False := by
  have hmem : buf_w ∈ [buf_r] := h.buf_w_mem
  exact h.turned rfl (List.mem_singleton.mp hmem).symm

theorem inv_reset
    (h : State.Inv c ⟨heap, buf_r, buf_w, inuse, bufcache, producer, .release tmp⟩) :
    State.Inv c ⟨Function.update heap buf_r (.reset c.size c.size_pos), buf_r, buf_w, inuse,
      bufcache, producer, .cache tmp⟩ := by
  let s : State α := ⟨heap, buf_r, buf_w, inuse, bufcache, producer, .release tmp⟩
  have hreset := SWSRPtrBuffer.Valid.reset (α := α) c.size_pos
  have hchain : buf_r ∉ s.chain := fun hmem => h.notMem_spare hmem List.mem_cons_self
  have hne : ∀ x ∈ s.chain, x ≠ buf_r := fun x hx heq => hchain (heq ▸ hx)
  refine ⟨h.nodup, fun x hx => ?_, fun x hx => ?_, ?_, h.cached, fun d hd => ?_, h.fixed,
    fun hc => (by cases hc), fun hc => (by cases hc)⟩
  · exact forall_update (fun x v => x ∈ s.live → SWSRPtrBuffer.Valid c.size v) (fun _ => hreset.1)
      (fun x _ hx => h.valid x hx) x hx
  · exact forall_update (fun x v => x ∈ s.spare → SWSRPtrBuffer.held v = []) (fun _ => hreset.2)
      (fun x _ hx => h.spare x hx) x hx
  · obtain ⟨front, heq, hfilled⟩ := h.chain
    refine ⟨front, heq, fun x hx hunread => ?_⟩
    rw [held_update (hne x hunread)]
    exact hfilled x hx hunread
  · rw [held_update (hne buf_w h.buf_w_mem)]
    exact h.room d hd

theorem inv_recycle
    (h : State.Inv c ⟨heap, buf_r, buf_w, inuse, bufcache, producer, .cache tmp⟩)
    (hroom : bufcache.length < cacheSize) :
    State.Inv c ⟨heap, buf_r, buf_w, inuse, bufcache ++ [buf_r], producer, .adopt tmp⟩ := by
  let s : State α := ⟨heap, buf_r, buf_w, inuse, bufcache, producer, .cache tmp⟩
  let t : State α := ⟨heap, buf_r, buf_w, inuse, bufcache ++ [buf_r], producer, .adopt tmp⟩
  have hperm : (producer.taken ++ (bufcache ++ [buf_r])).Perm
      (buf_r :: (producer.taken ++ bufcache)) := by
    rw [← List.append_assoc]
    exact List.perm_append_singleton _ _
  have hlive : t.live.Perm s.live := List.Perm.append_left (tmp :: inuse) hperm
  have hspare : ∀ x ∈ t.spare, x ∈ s.spare := fun x hx =>
    ((hperm.append_right producer.ahead).mem_iff).mp hx
  refine ⟨hlive.nodup_iff.mpr h.nodup, fun x hx => h.valid x (hlive.mem_iff.mp hx),
    fun x hx => h.spare x (hspare x hx), h.chain, ?_, h.room, h.fixed,
    fun hc => (by cases hc), fun hc => (by cases hc)⟩
  show (bufcache ++ [buf_r]).length ≤ _
  rw [List.length_append, List.length_singleton]
  exact hroom

theorem inv_cacheFull
    (h : State.Inv c ⟨heap, buf_r, buf_w, inuse, bufcache, producer, .cache tmp⟩) :
    State.Inv c ⟨heap, buf_r, buf_w, inuse, bufcache, producer, .free tmp⟩ :=
  ⟨h.nodup, h.valid, h.spare, h.chain, h.cached, h.room, h.fixed,
    fun hc => (by cases hc), fun hc => (by cases hc)⟩

theorem inv_free
    (h : State.Inv c ⟨heap, buf_r, buf_w, inuse, bufcache, producer, .free tmp⟩) :
    State.Inv c ⟨heap, buf_r, buf_w, inuse, bufcache, producer, .adopt tmp⟩ := by
  have hsub : (producer.taken ++ bufcache).Sublist (buf_r :: (producer.taken ++ bufcache)) :=
    List.sublist_cons_self _ _
  have hlive : ((tmp :: inuse) ++ (producer.taken ++ bufcache)).Sublist
      ((tmp :: inuse) ++ (buf_r :: (producer.taken ++ bufcache))) := hsub.append_left _
  exact ⟨h.nodup.sublist hlive, fun x hx => h.valid x (hlive.mem hx),
    fun x hx => h.spare x (List.mem_cons_of_mem _ hx), h.chain, h.cached, h.room, h.fixed,
    fun hc => (by cases hc), fun hc => (by cases hc)⟩

theorem inv_move (h : State.Inv c ⟨heap, buf_r, buf_w, inuse, bufcache, producer, .adopt tmp⟩) :
    State.Inv c ⟨heap, tmp, buf_w, inuse, bufcache, producer, .pop⟩ :=
  ⟨h.nodup, h.valid, h.spare, h.chain, h.cached, h.room, h.fixed,
    fun hc => (by cases hc), fun hc => (by cases hc)⟩

theorem inv_pop {q : SWSRPtrBuffer α} {x : α} {l : List α}
    (h : State.Inv c ⟨heap, buf_r, buf_w, inuse, bufcache, producer, .pop⟩)
    (hvalid : q.Valid c.size) (hold : (heap buf_r).held = x :: l) (hheld : q.held = l) :
    State.Inv c ⟨Function.update heap buf_r q, buf_r, buf_w, inuse, bufcache, producer, .idle⟩ := by
  let s : State α := ⟨heap, buf_r, buf_w, inuse, bufcache, producer, .pop⟩
  have hnodup : (buf_r :: inuse).Nodup := h.nodup_chain
  refine ⟨h.nodup, fun b hb => ?_, fun b hb => ?_, ?_, h.cached, fun d hd => ?_, h.fixed,
    fun hc => (by cases hc), fun hc => (by cases hc)⟩
  · exact forall_update (fun b v => b ∈ s.live → SWSRPtrBuffer.Valid c.size v) (fun _ => hvalid)
      (fun b _ hb => h.valid b hb) b hb
  · have hnil : (heap b).held = [] := h.spare b hb
    have hne : b ≠ buf_r := by
      rintro rfl
      rw [hold] at hnil
      cases hnil
    rw [held_update hne]
    exact hnil
  · obtain ⟨front, heq, hfilled⟩ := h.chain
    refine ⟨front, heq, fun b hb hunread => ?_⟩
    have hmem : b ∈ inuse := hunread
    have hne : b ≠ buf_r := fun heq => (List.nodup_cons.mp hnodup).1 (heq ▸ hmem)
    rw [held_update hne]
    exact hfilled b hb (List.mem_cons_of_mem _ hmem)
  · refine forall_update (fun b v => (heap b).held.length < c.size.toNat →
      (SWSRPtrBuffer.held v).length < c.size.toNat) (fun hlt => ?_) (fun b _ hlt => hlt) buf_w
      (h.room d hd)
    rw [hold] at hlt
    rw [hheld]
    exact Nat.lt_of_succ_lt hlt

end Consumer

end Watermark.FastFlow.USWSRPtrBuffer
