import Watermark.Reasoning.Fifo
import Watermark.Reasoning.Ring

/-!
# Buffer — SWSR_Ptr_Buffer

The circular buffer of ff/buffer.hpp, which carries the tasks between two nodes of a FastFlow
program without a lock.  Only the producer writes `pwrite`, only the consumer writes `pread`, and
what they know of each other they read off the slots.
-/

namespace Watermark.FastFlow

open Reasoning

/-- `SWSR_Ptr_Buffer` after `init`; a slot is `none` while it holds `NULL`. -/
structure SWSRPtrBuffer (α : Type*) where
  size : BitVec 64
  buf : List (Option α)
  pread : BitVec 64
  pwrite : BitVec 64
  buf_length : buf.length = size.toNat
  pread_lt : pread.toNat < size.toNat
  pwrite_lt : pwrite.toNat < size.toNat

/-- `p += (p+1 >= size) ? (1-size): 1`, with unsigned numbers -/
def circular (size p : BitVec 64) : BitVec 64 := p + if size ≤ p + 1 then 1 - size else 1

theorem circular_toNat {size p : BitVec 64} (h : p.toNat < size.toNat) :
    (circular size p).toNat = (p.toNat + 1) % size.toNat := by
  unfold circular
  split
  · rename_i hle
    have hlast : p.toNat + 1 = size.toNat := by bv_omega
    rw [hlast, Nat.mod_self]
    bv_omega
  · rename_i hlt
    have hnext : p.toNat + 1 < size.toNat := by bv_omega
    rw [Nat.mod_eq_of_lt hnext]
    bv_omega

theorem circular_lt {size p : BitVec 64} (h : p.toNat < size.toNat) :
    (circular size p).toNat < size.toNat := by
  rw [circular_toNat h]
  exact Nat.mod_lt _ (Nat.lt_of_le_of_lt (Nat.zero_le _) h)

namespace SWSRPtrBuffer

variable {α : Type*}

/-- `init`, which refuses to make a buffer without slots, ends with this `reset`. -/
def reset (size : BitVec 64) (h : 0 < size.toNat) : SWSRPtrBuffer α where
  size := size
  buf := List.replicate size.toNat none
  pread := 0
  pwrite := 0
  buf_length := List.length_replicate
  pread_lt := h
  pwrite_lt := h

variable (q : SWSRPtrBuffer α)

/-- `buf[pread]` -/
def top : Option α := q.buf.get ⟨q.pread.toNat, q.buf_length ▸ q.pread_lt⟩

def empty : Bool := q.top.isNone

def available : Bool := (q.buf.get ⟨q.pwrite.toNat, q.buf_length ▸ q.pwrite_lt⟩).isNone

/-- `buf[pwrite] = data` -/
def store (data : α) : SWSRPtrBuffer α :=
  { q with
    buf := q.buf.set q.pwrite.toNat (some data)
    buf_length := by rw [List.length_set, q.buf_length] }

def advanceWrite : SWSRPtrBuffer α :=
  { q with
    pwrite := circular q.size q.pwrite
    pwrite_lt := circular_lt q.pwrite_lt }

/-- `buf[pread]=NULL` -/
def clear : SWSRPtrBuffer α :=
  { q with
    buf := q.buf.set q.pread.toNat none
    buf_length := by rw [List.length_set, q.buf_length] }

def advanceRead : SWSRPtrBuffer α :=
  { q with
    pread := circular q.size q.pread
    pread_lt := circular_lt q.pread_lt }

def inc : SWSRPtrBuffer α := q.clear.advanceRead

/-- `none` is `false`. -/
def push (data : α) : Option (SWSRPtrBuffer α) :=
  if q.available then some (q.store data).advanceWrite else none

def pop : Option (Option α × SWSRPtrBuffer α) := if q.empty then none else some (q.top, q.inc)

/-! ## The buffer as a ring -/

/-- The slots hold `l` when the consumer reads on at `r` and the producer writes on at `w`. -/
structure Holds (r w : ℕ) (l : List α) : Prop where
  ring : Ring.Holds q.buf r l
  write : w = Ring.writeSlot q.buf r l

variable {q} {r w : ℕ} {l : List α}

theorem getElem?_top : q.buf[q.pread.toNat]? = some q.top :=
  List.getElem?_eq_getElem _

theorem Holds.length_le (h : q.Holds r w l) : l.length ≤ q.size.toNat := by
  rw [← q.buf_length]
  exact h.ring.length_le

theorem top_eq (h : q.Holds q.pread.toNat w l) : q.top = l.head? := by
  have hstart := h.ring.getElem?_start
  rw [getElem?_top] at hstart
  exact Option.some.inj hstart

-- `empty` and `available` are exact, also when all slots are full.
theorem empty_iff (h : q.Holds q.pread.toNat w l) : q.empty = true ↔ l = [] := by
  rw [empty, top_eq h, Option.isNone_iff_eq_none, List.head?_eq_none_iff]

theorem available_iff (h : q.Holds r q.pwrite.toNat l) :
    q.available = true ↔ l.length < q.size.toNat := by
  have hslot := h.ring.getElem?_writeSlot
  rw [← h.write, List.getElem?_eq_getElem (q.buf_length ▸ q.pwrite_lt), Option.some.injEq] at hslot
  rw [← q.buf_length, ← hslot, available, Option.isNone_iff_eq_none]
  rfl

theorem holds_reset {size : BitVec 64} (hsize : 0 < size.toNat) :
    (reset size hsize : SWSRPtrBuffer α).Holds 0 0 [] where
  ring := Ring.holds_replicate hsize
  write := by
    show 0 = (0 + 0) % _
    rw [Nat.zero_mod]

-- The writing position is the slot after the new element, whether `pwrite` has been moved or not.
theorem Holds.store (h : q.Holds r q.pwrite.toNat l) (hroom : l.length < q.size.toNat) (data : α) :
    (q.store data).Holds r (circular q.size q.pwrite).toNat (l ++ [data]) where
  ring := by
    show Ring.Holds (q.buf.set q.pwrite.toNat (some data)) r _
    rw [h.write]
    exact h.ring.push (q.buf_length ▸ hroom) data
  write := by
    show _ = Ring.writeSlot (q.buf.set q.pwrite.toNat (some data)) r _
    rw [circular_toNat q.pwrite_lt, h.write, Ring.writeSlot_push, q.buf_length]

theorem Holds.clear {x : α} (h : q.Holds q.pread.toNat w (x :: l)) :
    q.clear.Holds (circular q.size q.pread).toNat w l where
  ring := by
    rw [circular_toNat q.pread_lt, ← q.buf_length]
    exact h.ring.pop
  write := by
    rw [circular_toNat q.pread_lt, ← q.buf_length, h.write]
    exact (Ring.writeSlot_pop q.buf q.pread.toNat l).symm

/-! ## Between calls -/

/-- What is in the buffer while nobody is in a call on it. -/
def held (q : SWSRPtrBuffer α) : List α := Ring.contents q.buf q.pread.toNat

/-- A buffer of `size` slots that nobody is in a call on. -/
structure Valid (size : BitVec 64) (q : SWSRPtrBuffer α) : Prop where
  size_eq : q.size = size
  holds : q.Holds q.pread.toNat q.pwrite.toNat q.held

theorem Holds.valid (h : q.Holds q.pread.toNat q.pwrite.toNat l) :
    q.Valid q.size ∧ q.held = l := by
  have heq : q.held = l := h.ring.contents_eq
  exact ⟨⟨rfl, heq ▸ h⟩, heq⟩

namespace Valid

variable {size : BitVec 64}

theorem empty_iff (h : q.Valid size) : q.empty = true ↔ q.held = [] :=
  SWSRPtrBuffer.empty_iff h.holds

theorem available_iff (h : q.Valid size) : q.available = true ↔ q.held.length < size.toNat := by
  rw [← h.size_eq]
  exact SWSRPtrBuffer.available_iff h.holds

theorem length_le (h : q.Valid size) : q.held.length ≤ size.toNat := by
  rw [← h.size_eq]
  exact h.holds.length_le

theorem reset (hsize : 0 < size.toNat) :
    (reset size hsize : SWSRPtrBuffer α).Valid size ∧
      (SWSRPtrBuffer.reset size hsize : SWSRPtrBuffer α).held = [] :=
  (holds_reset hsize).valid

theorem push (h : q.Valid size) (hroom : q.held.length < size.toNat) (data : α) :
    ∃ q', q.push data = some q' ∧ q'.Valid size ∧ q'.held = q.held ++ [data] := by
  have hsize := h.size_eq
  subst hsize
  have hstore := h.holds.store hroom data
  refine ⟨(q.store data).advanceWrite, if_pos (h.available_iff.mpr hroom), ?_⟩
  exact Holds.valid (q := (q.store data).advanceWrite) ⟨hstore.ring, hstore.write⟩

theorem pop_none (h : q.Valid size) (hnil : q.held = []) : q.pop = none :=
  if_pos (h.empty_iff.mpr hnil)

theorem pop {x : α} (h : q.Valid size) (hcons : q.held = x :: l) :
    ∃ q', q.pop = some (some x, q') ∧ q'.Valid size ∧ q'.held = l := by
  have hsize := h.size_eq
  subst hsize
  have hholds := h.holds
  rw [hcons] at hholds
  have hne : ¬q.empty = true := by
    rw [h.empty_iff, hcons]
    exact List.cons_ne_nil x l
  have htop : q.top = some x := top_eq hholds
  refine ⟨q.inc, ?_, ?_⟩
  · rw [SWSRPtrBuffer.pop, if_neg hne, htop]
  · exact Holds.valid (q := q.inc) ⟨hholds.clear.ring, hholds.clear.write⟩

end Valid

/-! ## One producer and one consumer -/

/-- The producer: the statement of `push` it is about to execute. -/
inductive Producer (α : Type*) where
  | idle
  -- `if (available())`
  | test (data : α)
  | store (data : α)
  | advance

/-- The consumer, in `pop`; `data` is what it has read. -/
inductive Consumer (α : Type*) where
  | idle
  -- `if (empty())`
  | test
  | read
  | clear (data : Option α)
  | advance (data : Option α)

structure State (α : Type*) where
  q : SWSRPtrBuffer α
  producer : Producer α
  consumer : Consumer α

inductive Action (α : Type*) where
  -- `push` and `pop` are called
  | push (data : α)
  | pop
  -- the calls go on
  | produce
  | consume

namespace State

def produceStep (s : State α) : Option (State α) :=
  match s.producer with
  | .idle => none
  | .test data => some { s with producer := if s.q.available then .store data else .idle }
  | .store data => some { s with q := s.q.store data, producer := .advance }
  | .advance => some { s with q := s.q.advanceWrite, producer := .idle }

def consumeStep (s : State α) : Option (State α) :=
  match s.consumer with
  | .idle => none
  | .test => some { s with consumer := if s.q.empty then .idle else .read }
  | .read => some { s with consumer := .clear s.q.top }
  | .clear data => some { s with q := s.q.clear, consumer := .advance data }
  | .advance _ => some { s with q := s.q.advanceRead, consumer := .idle }

def step (s : State α) : Action α → Option (State α)
  | .push data => match s.producer with
    | .idle => some { s with producer := .test data }
    | _ => none
  | .pop => match s.consumer with
    | .idle => some { s with consumer := .test }
    | _ => none
  | .produce => s.produceStep
  | .consume => s.consumeStep

/-- The effect of a step: a push takes effect when it stores or finds no room, a pop when it clears
the slot or finds nothing. -/
def observe (s : State α) : Action α → List (Fifo.Event α)
  | .produce => match s.producer with
    | .test _ => if s.q.available then [] else [.full]
    | .store data => [.push data]
    | _ => []
  | .consume => match s.consumer with
    | .test => if s.q.empty then [.empty] else []
    | .clear data => data.toList.map .pop
    | _ => []
  | _ => []

/-- The slot the consumer reads next, `pread` unless it is on its way there. -/
def readSlot (s : State α) : ℕ :=
  match s.consumer with
  | .advance _ => (circular s.q.size s.q.pread).toNat
  | _ => s.q.pread.toNat

def writeSlot (s : State α) : ℕ :=
  match s.producer with
  | .advance => (circular s.q.size s.q.pwrite).toNat
  | _ => s.q.pwrite.toNat

def contents (s : State α) : List α := Ring.contents s.q.buf s.readSlot

end State

/-- A buffer of `size` slots that nobody has used. -/
def system (α : Type*) (size : BitVec 64) (h : 0 < size.toNat) : System (State α) (Action α) where
  init := ⟨reset size h, .idle, .idle⟩
  step := State.step

/-- What holds of a state whose contents are `l`: a test that has been passed stays true until the
thread that made it acts on it. -/
structure State.Inv (s : State α) (l : List α) : Prop where
  holds : s.q.Holds s.readSlot s.writeSlot l
  store : ∀ data, s.producer = .store data → l.length < s.q.size.toNat
  read : s.consumer = .read → l ≠ []
  clear : ∀ data, s.consumer = .clear data → data = l.head? ∧ l ≠ []

theorem State.Inv.contents_eq {s : State α} (h : s.Inv l) : s.contents = l :=
  h.holds.ring.contents_eq

/-- The contents that leave no room. -/
def Full (size : BitVec 64) (l : List α) : Prop := l.length = size.toNat

/-! ## What a step does -/

variable {s t : State α}

theorem produce_step (h : s.Inv l) (hs : s.produceStep = some t) :
    ∃ l', t.Inv l' ∧ Fifo.Effect (Full s.q.size) l (s.observe .produce) l' := by
  unfold State.produceStep at hs
  cases hp : s.producer with
  | idle =>
      rw [hp] at hs
      cases hs
  | test data =>
      have hw : s.writeSlot = s.q.pwrite.toNat := by rw [State.writeSlot, hp]
      have hholds := h.holds
      rw [hw] at hholds
      have hroom := available_iff hholds
      simp only [hp, Option.some.injEq] at hs
      subst hs
      simp only [State.observe, hp]
      by_cases ha : s.q.available = true
      · rw [if_pos ha, if_pos ha]
        exact ⟨l, ⟨hholds, fun d _ => hroom.mp ha, h.read, h.clear⟩, Fifo.Effect.none _ rfl⟩
      · rw [if_neg ha, if_neg ha]
        have hle := h.holds.length_le
        have hnot : ¬l.length < s.q.size.toNat := fun hlt => ha (hroom.mpr hlt)
        have hfull : Full s.q.size l := by
          unfold Full
          omega
        exact ⟨l, ⟨hholds, fun d hd => (by cases hd), h.read, h.clear⟩,
          Fifo.Effect.one (.full hfull)⟩
  | store data =>
      have hw : s.writeSlot = s.q.pwrite.toNat := by rw [State.writeSlot, hp]
      have hholds := h.holds
      rw [hw] at hholds
      have hroom := h.store data hp
      have hnot : ¬Full s.q.size l := Nat.ne_of_lt hroom
      simp only [hp, Option.some.injEq] at hs
      subst hs
      simp only [State.observe, hp]
      refine ⟨l ++ [data], ⟨hholds.store hroom data, fun d hd => (by cases hd), fun _ => ?_,
        fun d hd => ?_⟩, Fifo.Effect.one (.push data hnot)⟩
      · exact List.append_ne_nil_of_right_ne_nil l (List.cons_ne_nil _ _)
      · obtain ⟨hhead, hne⟩ := h.clear d hd
        refine ⟨?_, List.append_ne_nil_of_left_ne_nil hne _⟩
        rw [List.head?_append_of_ne_nil _ hne, hhead]
  | advance =>
      have hw : s.writeSlot = (circular s.q.size s.q.pwrite).toNat := by rw [State.writeSlot, hp]
      have hholds := h.holds
      rw [hw] at hholds
      simp only [hp, Option.some.injEq] at hs
      subst hs
      simp only [State.observe, hp]
      exact ⟨l, ⟨⟨hholds.ring, hholds.write⟩, fun d hd => (by cases hd), h.read, h.clear⟩,
        Fifo.Effect.none _ rfl⟩

theorem consume_step (h : s.Inv l) (hs : s.consumeStep = some t) :
    ∃ l', t.Inv l' ∧ Fifo.Effect (Full s.q.size) l (s.observe .consume) l' := by
  unfold State.consumeStep at hs
  cases hc : s.consumer with
  | idle =>
      rw [hc] at hs
      cases hs
  | test =>
      have hr : s.readSlot = s.q.pread.toNat := by rw [State.readSlot, hc]
      have hholds := h.holds
      rw [hr] at hholds
      have hnone := empty_iff hholds
      simp only [hc, Option.some.injEq] at hs
      subst hs
      simp only [State.observe, hc]
      by_cases he : s.q.empty = true
      · rw [if_pos he, if_pos he]
        refine ⟨l, ⟨hholds, h.store, fun hd => (by cases hd), fun d hd => (by cases hd)⟩, ?_⟩
        rw [hnone.mp he]
        exact Fifo.Effect.one .empty
      · rw [if_neg he, if_neg he]
        have hne : l ≠ [] := fun hl => he (hnone.mpr hl)
        exact ⟨l, ⟨hholds, h.store, fun _ => hne, fun d hd => (by cases hd)⟩,
          Fifo.Effect.none _ rfl⟩
  | read =>
      have hr : s.readSlot = s.q.pread.toNat := by rw [State.readSlot, hc]
      have hholds := h.holds
      rw [hr] at hholds
      simp only [hc, Option.some.injEq] at hs
      subst hs
      simp only [State.observe, hc]
      refine ⟨l, ⟨hholds, h.store, fun hd => (by cases hd), fun d hd => ?_⟩,
        Fifo.Effect.none _ rfl⟩
      cases hd
      exact ⟨top_eq hholds, h.read hc⟩
  | clear data =>
      have hr : s.readSlot = s.q.pread.toNat := by rw [State.readSlot, hc]
      have hholds := h.holds
      rw [hr] at hholds
      obtain ⟨hhead, hne⟩ := h.clear data hc
      obtain ⟨x, l', rfl⟩ := List.exists_cons_of_ne_nil hne
      simp only [hc, Option.some.injEq] at hs
      subst hs
      simp only [State.observe, hc, hhead]
      refine ⟨l', ⟨hholds.clear, fun d hd => ?_, fun hd => (by cases hd),
        fun d hd => (by cases hd)⟩, Fifo.Effect.one (.pop x l')⟩
      exact Nat.lt_of_succ_lt (h.store d hd)
  | advance data =>
      have hr : s.readSlot = (circular s.q.size s.q.pread).toNat := by rw [State.readSlot, hc]
      have hholds := h.holds
      rw [hr] at hholds
      simp only [hc, Option.some.injEq] at hs
      subst hs
      simp only [State.observe, hc]
      exact ⟨l, ⟨⟨hholds.ring, hholds.write⟩, h.store, fun hd => (by cases hd),
        fun d hd => (by cases hd)⟩, Fifo.Effect.none _ rfl⟩

theorem step_effect {a : Action α} (h : s.Inv l) (hs : s.step a = some t) :
    ∃ l', t.Inv l' ∧ Fifo.Effect (Full s.q.size) l (s.observe a) l' := by
  cases a with
  | push data =>
      simp only [State.step] at hs
      split at hs
      · rename_i hp
        cases hs
        have hw : s.writeSlot = s.q.pwrite.toNat := by rw [State.writeSlot, hp]
        have hholds := h.holds
        rw [hw] at hholds
        exact ⟨l, ⟨hholds, fun d hd => (by cases hd), h.read, h.clear⟩, Fifo.Effect.none _ rfl⟩
      · cases hs
  | pop =>
      simp only [State.step] at hs
      split at hs
      · rename_i hc
        cases hs
        have hr : s.readSlot = s.q.pread.toNat := by rw [State.readSlot, hc]
        have hholds := h.holds
        rw [hr] at hholds
        exact ⟨l, ⟨hholds, h.store, fun hd => (by cases hd), fun d hd => (by cases hd)⟩,
          Fifo.Effect.none _ rfl⟩
      · cases hs
  | produce => exact produce_step h hs
  | consume => exact consume_step h hs

theorem step_size {a : Action α} (hs : s.step a = some t) : t.q.size = s.q.size := by
  cases a with
  | push data =>
      simp only [State.step] at hs
      split at hs <;> cases hs
      rfl
  | pop =>
      simp only [State.step] at hs
      split at hs <;> cases hs
      rfl
  | produce =>
      simp only [State.step, State.produceStep] at hs
      split at hs <;> cases hs <;> rfl
  | consume =>
      simp only [State.step, State.consumeStep] at hs
      split at hs <;> cases hs <;> rfl

/-! ## Every interleaving -/

variable {size : BitVec 64} {hsize : 0 < size.toNat}

theorem inv_init : (system α size hsize).init.Inv [] where
  holds := holds_reset hsize
  store _ h := by cases h
  read h := by cases h
  clear _ h := by cases h

theorem size_eq (hs : (system α size hsize).Reachable s) : s.q.size = size := by
  refine hs.invariant (P := fun s => s.q.size = size) rfl fun s a t _ ih ha => ?_
  exact (step_size ha).trans ih

theorem inv (hs : (system α size hsize).Reachable s) : s.Inv s.contents := by
  refine hs.invariant (P := fun s => s.Inv s.contents) ?_ fun s a t _ ih ha => ?_
  · rw [inv_init.contents_eq]
    exact inv_init
  · obtain ⟨l', hinv, _⟩ := step_effect ih ha
    rw [hinv.contents_eq]
    exact hinv

-- The effects along a run are those of a queue with `size` places.
theorem run {p : State α × List (Fifo.Event α)}
    (hp : ((system α size hsize).record State.observe).Reachable p) :
    Fifo.Run (Full size) p.2 p.1.contents := by
  have hinit : (system α size hsize).init.Inv [] := inv_init
  refine Fifo.run_of_effects hinit.contents_eq (fun s a t hs ha => ?_) hp
  obtain ⟨l', hinv, heffect⟩ := step_effect (inv hs) ha
  rw [size_eq hs] at heffect
  rw [hinv.contents_eq]
  exact heffect

/-- Whatever the two threads do at the same time, pushes and pops take effect one after the other as
those of a queue with `size` places: a push is refused only when all are taken, a pop only when none
is, and what comes out is what went in, in that order.  No slot is written before it has been read,
and none is read before it has been written. -/
theorem push_pop_fifo (size : BitVec 64) (hsize : 0 < size.toNat)
    (p : State α × List (Fifo.Event α))
    (hp : ((system α size hsize).record State.observe).Reachable p) :
    Fifo.Run (Full size) p.2 p.1.contents ∧
      Fifo.pushed p.2 = Fifo.popped p.2 ++ p.1.contents ∧
      p.1.contents.length ≤ size.toNat ∧
      (∀ data, p.1.producer = .store data → p.1.q.available = true) ∧
      (∀ data, p.1.consumer = .clear data → data.isSome ∧ data = p.1.contents.head?) := by
  have hreach := hp.of_record
  have hinv := inv hreach
  refine ⟨run hp, (run hp).pushed_eq, (run hp).length_le fun l hl => hl, fun data hd => ?_,
    fun data hd => ?_⟩
  · have hw : p.1.writeSlot = p.1.q.pwrite.toNat := by rw [State.writeSlot, hd]
    have hholds := hinv.holds
    rw [hw] at hholds
    exact (available_iff hholds).mpr (hinv.store data hd)
  · obtain ⟨hhead, hne⟩ := hinv.clear data hd
    refine ⟨?_, hhead⟩
    rw [hhead, List.isSome_head?]
    exact hne

/-- Three elements go through two slots; the producer stores the third while the consumer has
cleared its slot and not moved on, and finds no place for a fourth. -/
def twoSlotsRun : List (Action ℕ) :=
  [.push 1, .produce, .produce, .produce, .push 2, .pop, .produce, .consume, .produce, .consume,
    .produce, .consume, .push 3, .produce, .produce, .consume, .produce, .pop, .push 4, .produce]

def twoSlots : State ℕ × List (Fifo.Event ℕ) :=
  (((system ℕ 2 Nat.two_pos).record State.observe).exec
    ((system ℕ 2 Nat.two_pos).record State.observe).init twoSlotsRun).get (by decide +kernel)

theorem push_pop_fifo_twoSlots :
    twoSlots.2 = [.push 1, .push 2, .pop 1, .push 3, .full] ∧ twoSlots.1.contents = [2, 3] ∧
      Fifo.pushed twoSlots.2 = Fifo.popped twoSlots.2 ++ twoSlots.1.contents := by
  refine ⟨by decide +kernel, by decide +kernel, ?_⟩
  exact (push_pop_fifo 2 Nat.two_pos twoSlots (System.reachable_get _)).2.1

end SWSRPtrBuffer

end Watermark.FastFlow
