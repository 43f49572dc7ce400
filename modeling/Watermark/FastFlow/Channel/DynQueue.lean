import Mathlib.Data.List.Nodup
import Mathlib.Logic.Function.Basic
import Watermark.Reasoning.Fifo
import Watermark.Reasoning.Linked

/-!
# DynQueue — dynqueue

The list-based queue of ff/dynqueue.hpp, which is `inuse` of the pool of buffers.  The first node of
the list has been read already; the producer links new nodes to the last one, and the consumer
gives the node it leaves back to a cache from which the producer takes its nodes.

A step is one access to a node, or one call of `malloc`, of `free` or on the cache, which is a
SWSR_Ptr_Buffer read by the producer (`Channel.Buffer` has the accesses of its calls).  `head` is
used by the consumer only and `tail` by the producer only, so they need no steps of their own.
-/

namespace Watermark.FastFlow.DynQueue

open Function Reasoning

variable {α : Type*}

/-- `Node`, a null pointer being `none`. -/
structure Node (α : Type*) where
  data : Option α
  next : Option ℕ

/-- The producer, in `push`. -/
inductive Producer (α : Type*) where
  | idle
  -- `if (cache.pop(&p.n2)) return p.n`
  | alloc (data : α)
  -- `p.n = (Node *)::malloc(sizeof(Node))`
  | malloc (data : α)
  -- `n->data = data`
  | data (data : α) (n : ℕ)
  -- `n->next = NULL`
  | next (data : α) (n : ℕ)
  -- `tail->next = n`
  | link (data : α) (n : ℕ)
  -- `tail = n`
  | tail (n : ℕ)

/-- The consumer, in `pop`. -/
inductive Consumer (α : Type*) where
  | idle
  -- `if (head->next)`
  | test
  -- `*data = (head->next)->data`: the pointer,
  | data
  -- and what the node holds
  | datum (n : ℕ)
  -- `head = head->next`
  | advance (data : Option α)
  -- `if (!cache.push(n))`
  | cache (n : ℕ)
  -- `::free(n)`
  | free (n : ℕ)

structure State (α : Type*) where
  heap : ℕ → Node α
  head : ℕ
  tail : ℕ
  cache : List ℕ
  -- what `malloc` has given out and nobody has freed
  allocated : List ℕ
  producer : Producer α
  consumer : Consumer α

/-- A step; `address` is where `malloc` puts a new node. -/
inductive Action (α : Type*) where
  | push (data : α)
  | pop
  | produce (address : ℕ)
  | consume

namespace State

/-- An assignment to a field of a node. -/
def write (s : State α) (n : ℕ) (node : Node α) : State α :=
  { s with heap := update s.heap n node }

def produceStep (s : State α) (address : ℕ) : Option (State α) :=
  match s.producer with
  | .idle => none
  | .alloc data =>
    match s.cache with
    | n :: cache => some { s with cache, producer := .data data n }
    | [] => some { s with producer := .malloc data }
  | .malloc data =>
    if address ∈ s.allocated then none
    else some { s with allocated := address :: s.allocated, producer := .data data address }
  | .data data n =>
    some { s.write n { s.heap n with data := some data } with producer := .next data n }
  | .next data n =>
    some { s.write n { s.heap n with next := none } with producer := .link data n }
  | .link _ n =>
    some { s.write s.tail { s.heap s.tail with next := some n } with producer := .tail n }
  | .tail n => some { s with tail := n, producer := .idle }

def consumeStep (cachesize : ℕ) (s : State α) : Option (State α) :=
  match s.consumer with
  | .idle => none
  | .test => some { s with consumer := if (s.heap s.head).next.isSome then .data else .idle }
  | .data => (s.heap s.head).next.map fun n => { s with consumer := .datum n }
  | .datum n => some { s with consumer := .advance (s.heap n).data }
  | .advance _ => (s.heap s.head).next.map fun n => { s with head := n, consumer := .cache s.head }
  | .cache n =>
    if s.cache.length < cachesize then some { s with cache := s.cache ++ [n], consumer := .idle }
    else some { s with consumer := .free n }
  | .free n => some { s with allocated := s.allocated.erase n, consumer := .idle }

def step (cachesize : ℕ) (s : State α) : Action α → Option (State α)
  | .push data => match s.producer with
    | .idle => some { s with producer := .alloc data }
    | _ => none
  | .pop => match s.consumer with
    | .idle => some { s with consumer := .test }
    | _ => none
  | .produce address => s.produceStep address
  | .consume => s.consumeStep cachesize

/-- A push takes effect when the node is linked, a pop when `head` moves on or when there is no next
node to be found. -/
def observe (s : State α) : Action α → List (Fifo.Event α)
  | .produce _ => match s.producer with
    | .link data _ => [.push data]
    | _ => []
  | .consume => match s.consumer with
    | .test => if (s.heap s.head).next.isSome then [] else [.empty]
    | .advance data => data.toList.map .pop
    | _ => []
  | _ => []

/-- The node the producer writes to next. -/
def writes (s : State α) : List ℕ :=
  match s.producer with
  | .data _ n => [n]
  | .next _ n => [n]
  | .link _ _ => [s.tail]
  | _ => []

/-- The node the consumer reads next. -/
def reads (s : State α) : List ℕ :=
  match s.consumer with
  | .test => [s.head]
  | .data => [s.head]
  | .datum n => [n]
  | .advance _ => [s.head]
  | _ => []

end State

/-- `dynqueue(cachesize)`; the first node is a dummy. -/
def system (α : Type*) (cachesize : ℕ) : System (State α) (Action α) where
  init := {
    heap := fun _ => ⟨none, none⟩
    head := 0
    tail := 0
    cache := []
    allocated := [0]
    producer := .idle
    consumer := .idle }
  step := State.step cachesize

/-! ## The list -/

/-- The node the producer has taken and not linked. -/
def Producer.taken : Producer α → List ℕ
  | .data _ n => [n]
  | .next _ n => [n]
  | .link _ n => [n]
  | _ => []

/-- The node that has been given its element and is not linked. -/
def Producer.filled : Producer α → List (ℕ × α)
  | .next x n => [(n, x)]
  | .link x n => [(n, x)]
  | _ => []

/-- The last node of the list, to which `tail` points or is about to. -/
def Producer.last (producer : Producer α) (tail : ℕ) : ℕ :=
  match producer with
  | .tail n => n
  | _ => tail

/-- The node the consumer gives back. -/
def Consumer.released : Consumer α → List ℕ
  | .cache n => [n]
  | .free n => [n]
  | _ => []

def nextOf (heap : ℕ → Node α) (n : ℕ) : Option ℕ := (heap n).next

/-- The nodes that are not in the list. -/
def State.spare (s : State α) : List ℕ := s.producer.taken ++ (s.consumer.released ++ s.cache)

/-- The list goes from `head` to the producer's last node, `rest` being the nodes behind `head` and
`l` what they hold. -/
structure State.Inv (s : State α) (rest : List ℕ) (l : List α) : Prop where
  linked : Linked (nextOf s.heap) (s.head :: rest)
  last : ∃ front, s.head :: rest = front ++ [s.producer.last s.tail]
  data : (rest.map fun n => (s.heap n).data) = l.map some
  nodup : (s.head :: rest ++ s.spare).Nodup
  allocated : ∀ n ∈ s.head :: rest ++ s.spare, n ∈ s.allocated
  filled : ∀ e ∈ s.producer.filled, (s.heap e.1).data = some e.2
  ending : ∀ data n, s.producer = .link data n → (s.heap n).next = none
  nonempty : s.consumer = .data → rest ≠ []
  found : ∀ n, s.consumer = .datum n → rest.head? = some n
  read : ∀ data, s.consumer = .advance data → data.isSome = true ∧ data = l.head?

variable {s t : State α} {rest cache allocated : List ℕ} {l : List α}

namespace State.Inv

theorem next_eq (h : s.Inv rest l) : (s.heap s.head).next = rest.head? := h.linked.1

-- There is a node for each element.
theorem length_eq (h : s.Inv rest l) : rest.length = l.length := by
  have hlen := congrArg List.length h.data
  rwa [List.length_map, List.length_map] at hlen

theorem rest_of_advance (h : s.Inv rest l) {data : Option α} (hc : s.consumer = .advance data) :
    rest ≠ [] := by
  obtain ⟨hsome, hhead⟩ := h.read data hc
  intro hnil
  have hlen := h.length_eq
  rw [hnil] at hlen
  rw [hhead, List.eq_nil_of_length_eq_zero hlen.symm] at hsome
  cases hsome

theorem last_mem (h : s.Inv rest l) : s.producer.last s.tail ∈ s.head :: rest := by
  obtain ⟨front, hlast⟩ := h.last
  rw [hlast]
  exact List.mem_append_right _ List.mem_cons_self

theorem notMem_of_spare (h : s.Inv rest l) {n : ℕ} (hn : n ∈ s.spare) : n ∉ s.head :: rest :=
  fun hmem => (List.nodup_append.mp h.nodup).2.2 n hmem n hn rfl

end State.Inv

theorem inv_init {cachesize : ℕ} : (system α cachesize).init.Inv [] [] where
  linked := ⟨rfl, trivial⟩
  last := ⟨[], rfl⟩
  data := rfl
  nodup := List.nodup_singleton 0
  allocated _ h := h
  filled _ h := by cases h
  ending _ _ h := by cases h
  nonempty h := by cases h
  found _ h := by cases h
  read _ h := by cases h

-- A write to a node outside the list.
theorem Linked.write {heap : ℕ → Node α} {nodes : List ℕ} {n : ℕ} {node : Node α}
    (h : Linked (nextOf heap) nodes) (hn : n ∉ nodes) :
    Linked (nextOf (update heap n node)) nodes := by
  apply h.congr
  intro x hx
  show (update heap n node x).next = (heap x).next
  rw [update_of_ne (ne_of_mem_of_not_mem hx hn)]

theorem map_data_write {heap : ℕ → Node α} {nodes : List ℕ} {n : ℕ} {node : Node α}
    (hn : n ∉ nodes) : (nodes.map fun x => (update heap n node x).data) =
      nodes.map fun x => (heap x).data := by
  apply List.map_congr_left
  intro x hx
  rw [update_of_ne (ne_of_mem_of_not_mem hx hn)]

/-! ## The producer -/

section Producer

variable {heap : ℕ → Node α} {head tail n address : ℕ} {consumer : Consumer α} {data : α}

theorem inv_cached (h : State.Inv ⟨heap, head, tail, n :: cache, allocated, .alloc data, consumer⟩
    rest l) : State.Inv ⟨heap, head, tail, cache, allocated, .data data n, consumer⟩ rest l := by
  have hperm : (head :: rest ++ ([n] ++ (consumer.released ++ cache))).Perm
      (head :: rest ++ (consumer.released ++ n :: cache)) := by
    apply List.Perm.append_left
    show (n :: (consumer.released ++ cache)).Perm _
    exact List.perm_middle.symm
  exact ⟨h.linked, h.last, h.data, hperm.nodup_iff.mpr h.nodup,
    fun x hx => h.allocated x (hperm.mem_iff.mp hx), fun _ hp => (by cases hp),
    fun _ _ hp => (by cases hp), h.nonempty, h.found, h.read⟩

theorem inv_cacheEmpty
    (h : State.Inv ⟨heap, head, tail, cache, allocated, .alloc data, consumer⟩ rest l) :
    State.Inv ⟨heap, head, tail, cache, allocated, .malloc data, consumer⟩ rest l :=
  ⟨h.linked, h.last, h.data, h.nodup, h.allocated, fun _ hp => (by cases hp),
    fun _ _ hp => (by cases hp), h.nonempty, h.found, h.read⟩

-- A new node is none of those in use; it may be one that has just been freed.
theorem inv_malloc
    (h : State.Inv ⟨heap, head, tail, cache, allocated, .malloc data, consumer⟩ rest l)
    (hnew : address ∉ allocated) :
    State.Inv ⟨heap, head, tail, cache, address :: allocated, .data data address, consumer⟩
      rest l := by
  have hperm : (head :: rest ++ ([address] ++ (consumer.released ++ cache))).Perm
      (address :: (head :: rest ++ (consumer.released ++ cache))) := List.perm_middle
  refine ⟨h.linked, h.last, h.data, hperm.nodup_iff.mpr ?_, fun x hx => ?_,
    fun _ hp => (by cases hp), fun _ _ hp => (by cases hp),
    h.nonempty, h.found, h.read⟩
  · exact List.nodup_cons.mpr ⟨fun hmem => hnew (h.allocated _ hmem), h.nodup⟩
  · rcases List.mem_cons.mp (hperm.mem_iff.mp hx) with rfl | hx
    · exact List.mem_cons_self
    · exact List.mem_cons_of_mem _ (h.allocated x hx)

theorem inv_data (h : State.Inv ⟨heap, head, tail, cache, allocated, .data data n, consumer⟩
    rest l) :
    State.Inv ⟨update heap n { heap n with data := some data }, head, tail, cache, allocated,
      .next data n, consumer⟩ rest l := by
  have hn : n ∉ head :: rest := h.notMem_of_spare List.mem_cons_self
  refine ⟨Linked.write h.linked hn, h.last, ?_, h.nodup, h.allocated, fun e he => ?_,
    fun _ _ hp => (by cases hp), h.nonempty, h.found, h.read⟩
  · exact (map_data_write (List.not_mem_of_not_mem_cons hn)).trans h.data
  · rw [show e = (n, data) from List.mem_singleton.mp he]
    show (update heap n _ n).data = some data
    rw [update_self]

theorem inv_next (h : State.Inv ⟨heap, head, tail, cache, allocated, .next data n, consumer⟩
    rest l) :
    State.Inv ⟨update heap n { heap n with next := none }, head, tail, cache, allocated,
      .link data n, consumer⟩ rest l := by
  have hn : n ∉ head :: rest := h.notMem_of_spare List.mem_cons_self
  refine ⟨Linked.write h.linked hn, h.last, ?_, h.nodup, h.allocated, fun e he => ?_,
    fun d m hp => ?_, h.nonempty, h.found, h.read⟩
  · exact (map_data_write (List.not_mem_of_not_mem_cons hn)).trans h.data
  · rw [show e = (n, data) from List.mem_singleton.mp he]
    show (update heap n _ n).data = some data
    rw [update_self]
    exact h.filled (n, data) List.mem_cons_self
  · cases hp
    show (update heap n _ n).next = none
    rw [update_self]

-- The new node is linked to the last one, which may be the one the consumer has just read.
theorem inv_link (h : State.Inv ⟨heap, head, tail, cache, allocated, .link data n, consumer⟩
    rest l) :
    State.Inv ⟨update heap tail { heap tail with next := some n }, head, tail, cache, allocated,
      .tail n, consumer⟩ (rest ++ [n]) (l ++ [data]) := by
  obtain ⟨front, hlast⟩ := h.last
  have hlast : head :: rest = front ++ [tail] := hlast
  have hn : n ∉ head :: rest := h.notMem_of_spare List.mem_cons_self
  have htail : tail ∉ front := by
    have hnodup := (List.nodup_append.mp h.nodup).1
    rw [hlast] at hnodup
    exact fun hmem => (List.nodup_append.mp hnodup).2.2 tail hmem tail List.mem_cons_self rfl
  have hne : n ≠ tail := fun heq => by
    rw [hlast, heq] at hn
    exact hn (List.mem_append_right _ List.mem_cons_self)
  have hsame : ∀ x, (update heap tail { heap tail with next := some n } x).data =
      (heap x).data := by
    intro x
    by_cases hx : x = tail
    · rw [hx, update_self]
    · rw [update_of_ne hx]
  refine ⟨?_, ⟨head :: rest, rfl⟩, ?_, ?_, ?_, fun _ hp => (by cases hp),
    fun _ _ hp => (by cases hp),
    fun _ => List.append_ne_nil_of_right_ne_nil _ (List.cons_ne_nil n []), fun m hm => ?_,
    fun d hd => ?_⟩
  · have hlinked := h.linked
    rw [hlast] at hlinked
    show Linked _ (head :: rest ++ [n])
    rw [hlast]
    apply hlinked.link
    · intro x hx
      show (update heap tail _ x).next = (heap x).next
      rw [update_of_ne (ne_of_mem_of_not_mem hx htail)]
    · show (update heap tail _ tail).next = some n
      rw [update_self]
    · show (update heap tail _ n).next = none
      rw [update_of_ne hne]
      exact h.ending data n rfl
  · simp only [hsame, List.map_append, List.map_cons, List.map_nil]
    rw [h.data, h.filled (n, data) List.mem_cons_self]
  · have hnodup := h.nodup
    rwa [State.spare, ← List.append_assoc] at hnodup
  · have hallocated := h.allocated
    rwa [State.spare, ← List.append_assoc] at hallocated
  · rw [List.head?_append, h.found m hm]
    rfl
  · obtain ⟨hsome, hhead⟩ := h.read d hd
    refine ⟨hsome, ?_⟩
    cases l with
    | nil =>
        rw [hhead] at hsome
        cases hsome
    | cons x l => exact hhead

theorem inv_tail (h : State.Inv ⟨heap, head, tail, cache, allocated, .tail n, consumer⟩ rest l) :
    State.Inv ⟨heap, head, n, cache, allocated, .idle, consumer⟩ rest l :=
  ⟨h.linked, h.last, h.data, h.nodup, h.allocated,
    fun _ hp => (by cases hp), fun _ _ hp => (by cases hp), h.nonempty, h.found, h.read⟩

end Producer

/-! ## The consumer -/

section Consumer

variable {heap : ℕ → Node α} {head tail n : ℕ} {producer : Producer α}

theorem inv_found (h : State.Inv ⟨heap, head, tail, cache, allocated, producer, .test⟩ rest l)
    (hnext : (heap head).next.isSome = true) :
    State.Inv ⟨heap, head, tail, cache, allocated, producer, .data⟩ rest l := by
  refine ⟨h.linked, h.last, h.data, h.nodup, h.allocated, h.filled, h.ending, fun _ hnil => ?_,
    fun _ hc => (by cases hc), fun _ hc => (by cases hc)⟩
  have hhead : (heap head).next = rest.head? := h.next_eq
  rw [hhead, hnil] at hnext
  cases hnext

theorem inv_empty (h : State.Inv ⟨heap, head, tail, cache, allocated, producer, .test⟩ rest l)
    (hnext : ¬(heap head).next.isSome = true) :
    l = [] ∧ State.Inv ⟨heap, head, tail, cache, allocated, producer, .idle⟩ rest l := by
  refine ⟨?_, h.linked, h.last, h.data, h.nodup, h.allocated, h.filled, h.ending,
    fun hc => (by cases hc), fun _ hc => (by cases hc), fun _ hc => (by cases hc)⟩
  have hhead : (heap head).next = rest.head? := h.next_eq
  rw [hhead, List.isSome_head?, Decidable.not_not] at hnext
  have hlen := h.length_eq
  rw [hnext] at hlen
  exact List.eq_nil_of_length_eq_zero hlen.symm

theorem inv_follow (h : State.Inv ⟨heap, head, tail, cache, allocated, producer, .data⟩ rest l)
    (hnext : (heap head).next = some n) :
    State.Inv ⟨heap, head, tail, cache, allocated, producer, .datum n⟩ rest l := by
  have hhead : (heap head).next = rest.head? := h.next_eq
  refine ⟨h.linked, h.last, h.data, h.nodup, h.allocated, h.filled, h.ending,
    fun hc => (by cases hc), fun m hc => ?_, fun _ hc => (by cases hc)⟩
  cases hc
  rw [← hhead, hnext]

theorem inv_read (h : State.Inv ⟨heap, head, tail, cache, allocated, producer, .datum n⟩ rest l) :
    State.Inv ⟨heap, head, tail, cache, allocated, producer, .advance (heap n).data⟩ rest l := by
  have hhead : rest.head? = some n := h.found n rfl
  refine ⟨h.linked, h.last, h.data, h.nodup, h.allocated, h.filled, h.ending,
    fun hc => (by cases hc), fun _ hc => (by cases hc), fun data hc => ?_⟩
  cases hc
  have hdata := h.data
  cases rest with
  | nil => cases hhead
  | cons m rest =>
      cases hhead
      cases l with
      | nil => cases hdata
      | cons x l =>
          have hx : (heap n).data = some x := (List.cons.inj hdata).1
          rw [hx]
          exact ⟨rfl, rfl⟩

-- The node the consumer leaves is none of those in the list.
theorem inv_advance {data : Option α}
    (h : State.Inv ⟨heap, head, tail, cache, allocated, producer, .advance data⟩ rest l)
    (hnext : (heap head).next = some n) :
    ∃ x rest' l', data = some x ∧ l = x :: l' ∧
      State.Inv ⟨heap, n, tail, cache, allocated, producer, .cache head⟩ rest' l' := by
  have hhead : (heap head).next = rest.head? := h.next_eq
  rw [hnext] at hhead
  obtain ⟨hsome, hread⟩ := h.read data rfl
  have hdata := h.data
  cases rest with
  | nil => cases hhead
  | cons m rest =>
      cases hhead
      cases l with
      | nil => cases hdata
      | cons x l =>
          have hperm : (n :: rest ++ (producer.taken ++ ([head] ++ cache))).Perm
              (head :: n :: rest ++ (producer.taken ++ ([] ++ cache))) := by
            rw [List.singleton_append, List.nil_append, ← List.append_assoc]
            exact List.perm_middle.trans (List.Perm.of_eq (by rw [List.append_assoc]; rfl))
          refine ⟨x, rest, l, hread, rfl, h.linked.2, ?_, (List.cons.inj hdata).2,
            hperm.nodup_iff.mpr h.nodup, fun y hy => h.allocated y (hperm.mem_iff.mp hy), h.filled,
            h.ending, fun hc => (by cases hc), fun _ hc => (by cases hc),
            fun _ hc => (by cases hc)⟩
          obtain ⟨front, hlast⟩ := h.last
          cases front with
          | nil => cases (List.cons.inj hlast).2
          | cons y front => exact ⟨front, (List.cons.inj hlast).2⟩

theorem inv_recycle
    (h : State.Inv ⟨heap, head, tail, cache, allocated, producer, .cache n⟩ rest l) :
    State.Inv ⟨heap, head, tail, cache ++ [n], allocated, producer, .idle⟩ rest l := by
  have hperm : (head :: rest ++ (producer.taken ++ ([] ++ (cache ++ [n])))).Perm
      (head :: rest ++ (producer.taken ++ ([n] ++ cache))) := by
    apply List.Perm.append_left
    apply List.Perm.append_left
    exact List.perm_append_singleton n cache
  exact ⟨h.linked, h.last, h.data, hperm.nodup_iff.mpr h.nodup,
    fun x hx => h.allocated x (hperm.mem_iff.mp hx), h.filled, h.ending, fun hc => (by cases hc),
    fun _ hc => (by cases hc), fun _ hc => (by cases hc)⟩

theorem inv_cacheFull
    (h : State.Inv ⟨heap, head, tail, cache, allocated, producer, .cache n⟩ rest l) :
    State.Inv ⟨heap, head, tail, cache, allocated, producer, .free n⟩ rest l :=
  ⟨h.linked, h.last, h.data, h.nodup, h.allocated, h.filled, h.ending,
    fun hc => (by cases hc), fun _ hc => (by cases hc), fun _ hc => (by cases hc)⟩

theorem inv_free (h : State.Inv ⟨heap, head, tail, cache, allocated, producer, .free n⟩ rest l) :
    State.Inv ⟨heap, head, tail, cache, allocated.erase n, producer, .idle⟩ rest l := by
  have hperm : (head :: rest ++ (producer.taken ++ ([n] ++ cache))).Perm
      (n :: (head :: rest ++ (producer.taken ++ ([] ++ cache)))) := by
    rw [List.singleton_append, List.nil_append, ← List.append_assoc, ← List.append_assoc]
    exact List.perm_middle
  obtain ⟨hnot, hnodup⟩ := List.nodup_cons.mp (hperm.nodup_iff.mp h.nodup)
  refine ⟨h.linked, h.last, h.data, hnodup, fun x hx => ?_, h.filled, h.ending,
    fun hc => (by cases hc), fun _ hc => (by cases hc), fun _ hc => (by cases hc)⟩
  apply (List.mem_erase_of_ne (ne_of_mem_of_not_mem hx hnot)).mpr
  exact h.allocated x (hperm.mem_iff.mpr (List.mem_cons_of_mem n hx))

end Consumer

/-! ## Both threads -/

/-- The list holds `l`. -/
def State.Holds (s : State α) (l : List α) : Prop := ∃ rest, s.Inv rest l

-- A queue that is never full.
def Full (_ : List α) : Prop := False

theorem produce_step {address : ℕ} (h : s.Inv rest l) (hs : s.produceStep address = some t) :
    ∃ l', t.Holds l' ∧ Fifo.Effect Full l (s.observe (.produce address)) l' := by
  obtain ⟨heap, head, tail, cache, allocated, producer, consumer⟩ := s
  cases producer with
  | idle => cases hs
  | alloc data =>
      cases cache with
      | cons n cache =>
          cases hs
          exact ⟨l, ⟨rest, inv_cached h⟩, Fifo.Effect.none _ rfl⟩
      | nil =>
          cases hs
          exact ⟨l, ⟨rest, inv_cacheEmpty h⟩, Fifo.Effect.none _ rfl⟩
  | malloc data =>
      simp only [State.produceStep] at hs
      split at hs
      · cases hs
      · rename_i hnew
        cases hs
        exact ⟨l, ⟨rest, inv_malloc h hnew⟩, Fifo.Effect.none _ rfl⟩
  | data data n =>
      cases hs
      exact ⟨l, ⟨rest, inv_data h⟩, Fifo.Effect.none _ rfl⟩
  | next data n =>
      cases hs
      exact ⟨l, ⟨rest, inv_next h⟩, Fifo.Effect.none _ rfl⟩
  | link data n =>
      cases hs
      exact ⟨l ++ [data], ⟨rest ++ [n], inv_link h⟩, Fifo.Effect.one (.push data id)⟩
  | tail n =>
      cases hs
      exact ⟨l, ⟨rest, inv_tail h⟩, Fifo.Effect.none _ rfl⟩

theorem consume_step {cachesize : ℕ} (h : s.Inv rest l) (hs : s.consumeStep cachesize = some t) :
    ∃ l', t.Holds l' ∧ Fifo.Effect Full l (s.observe .consume) l' := by
  obtain ⟨heap, head, tail, cache, allocated, producer, consumer⟩ := s
  cases consumer with
  | idle => cases hs
  | test =>
      simp only [State.consumeStep] at hs
      simp only [State.observe]
      by_cases hnext : (heap head).next.isSome = true
      · rw [if_pos hnext] at hs ⊢
        cases hs
        exact ⟨l, ⟨rest, inv_found h hnext⟩, Fifo.Effect.none _ rfl⟩
      · rw [if_neg hnext] at hs ⊢
        cases hs
        obtain ⟨rfl, hinv⟩ := inv_empty h hnext
        exact ⟨[], ⟨rest, hinv⟩, Fifo.Effect.one .empty⟩
  | data =>
      obtain ⟨n, hnext, rfl⟩ := Option.map_eq_some_iff.mp hs
      exact ⟨l, ⟨rest, inv_follow h hnext⟩, Fifo.Effect.none _ rfl⟩
  | datum n =>
      cases hs
      exact ⟨l, ⟨rest, inv_read h⟩, Fifo.Effect.none _ rfl⟩
  | advance data =>
      obtain ⟨n, hnext, rfl⟩ := Option.map_eq_some_iff.mp hs
      obtain ⟨x, rest', l', rfl, rfl, hinv⟩ := inv_advance h hnext
      exact ⟨l', ⟨rest', hinv⟩, Fifo.Effect.one (.pop x l')⟩
  | cache n =>
      simp only [State.consumeStep] at hs
      split at hs
      · cases hs
        exact ⟨l, ⟨rest, inv_recycle h⟩, Fifo.Effect.none _ rfl⟩
      · cases hs
        exact ⟨l, ⟨rest, inv_cacheFull h⟩, Fifo.Effect.none _ rfl⟩
  | free n =>
      cases hs
      exact ⟨l, ⟨rest, inv_free h⟩, Fifo.Effect.none _ rfl⟩

theorem step_effect {cachesize : ℕ} {a : Action α} (h : s.Holds l)
    (hs : (system α cachesize).step s a = some t) :
    ∃ l', t.Holds l' ∧ Fifo.Effect Full l (s.observe a) l' := by
  obtain ⟨rest, h⟩ := h
  cases a with
  | push data =>
      obtain ⟨heap, head, tail, cache, allocated, producer, consumer⟩ := s
      cases producer with
      | idle =>
          cases hs
          exact ⟨l, ⟨rest, h.linked, h.last, h.data, h.nodup, h.allocated,
            fun _ hp => (by cases hp), fun _ _ hp => (by cases hp), h.nonempty, h.found, h.read⟩,
            Fifo.Effect.none _ rfl⟩
      | _ => cases hs
  | pop =>
      obtain ⟨heap, head, tail, cache, allocated, producer, consumer⟩ := s
      cases consumer with
      | idle =>
          cases hs
          exact ⟨l, ⟨rest, h.linked, h.last, h.data, h.nodup, h.allocated, h.filled, h.ending,
            fun hc => (by cases hc), fun _ hc => (by cases hc), fun _ hc => (by cases hc)⟩,
            Fifo.Effect.none _ rfl⟩
      | _ => cases hs
  | produce address => exact produce_step h hs
  | consume => exact consume_step h hs

/-! ## Memory safety -/

namespace State.Inv

theorem writes_allocated (h : s.Inv rest l) : ∀ n ∈ s.writes, n ∈ s.allocated := by
  obtain ⟨heap, head, tail, cache, allocated, producer, consumer⟩ := s
  intro n hn
  cases producer with
  | data x m => exact h.allocated n (List.mem_append_right _ (List.mem_append_left _ hn))
  | next x m => exact h.allocated n (List.mem_append_right _ (List.mem_append_left _ hn))
  | link x m =>
      rw [List.mem_singleton.mp hn]
      exact h.allocated tail (List.mem_append_left _ h.last_mem)
  | _ => cases hn

theorem reads_mem (h : s.Inv rest l) : ∀ n ∈ s.reads, n ∈ s.head :: rest := by
  obtain ⟨heap, head, tail, cache, allocated, producer, consumer⟩ := s
  intro n hn
  cases consumer with
  | test => exact List.mem_singleton.mp hn ▸ List.mem_cons_self
  | data => exact List.mem_singleton.mp hn ▸ List.mem_cons_self
  | datum m =>
      rw [List.mem_singleton.mp hn]
      exact List.mem_cons_of_mem _ (List.mem_of_mem_head? (h.found m rfl))
  | advance data => exact List.mem_singleton.mp hn ▸ List.mem_cons_self
  | _ => cases hn

-- The threads meet at a node only when the producer links another one to it.
theorem link_of_shared (h : s.Inv rest l) {n : ℕ} (hw : n ∈ s.writes) (hr : n ∈ s.reads) :
    ∃ data m, s.producer = .link data m := by
  have hmem := h.reads_mem n hr
  cases hp : s.producer with
  | link data m => exact ⟨data, m, rfl⟩
  | data x m =>
      rw [State.writes, hp] at hw
      refine absurd hmem (h.notMem_of_spare (List.mem_append_left _ ?_))
      rw [hp]
      exact hw
  | next x m =>
      rw [State.writes, hp] at hw
      refine absurd hmem (h.notMem_of_spare (List.mem_append_left _ ?_))
      rw [hp]
      exact hw
  | _ =>
      rw [State.writes, hp] at hw
      cases hw

-- There is a next node whenever the consumer follows the pointer to it.
theorem next_isSome (h : s.Inv rest l)
    (hc : s.consumer = .data ∨ ∃ data, s.consumer = .advance data) :
    (s.heap s.head).next.isSome = true := by
  rw [h.next_eq, List.isSome_head?]
  rcases hc with hc | ⟨data, hc⟩
  · exact h.nonempty hc
  · exact h.rest_of_advance hc

end State.Inv

/-- Whatever the two threads do at the same time, the nodes behind `head` are a queue that refuses
no push.  No null pointer is followed and no freed node touched, and both threads are at the same
node only when the producer links a new one to it. -/
theorem nodes_fifo (cachesize : ℕ) (p : State α × List (Fifo.Event α))
    (hp : ((system α cachesize).record State.observe).Reachable p) :
    (∃ rest l, Linked (nextOf p.1.heap) (p.1.head :: rest) ∧
      (rest.map fun n => (p.1.heap n).data) = l.map some ∧
      Fifo.Run Full p.2 l ∧ Fifo.pushed p.2 = Fifo.popped p.2 ++ l ∧ .full ∉ p.2) ∧
      (∀ n, n ∈ p.1.writes ∨ n ∈ p.1.reads → n ∈ p.1.allocated) ∧
      (∀ n, n ∈ p.1.writes → n ∈ p.1.reads → ∃ data m, p.1.producer = .link data m) ∧
      ((p.1.consumer = .data ∨ ∃ data, p.1.consumer = .advance data) →
        (p.1.heap p.1.head).next.isSome = true) ∧
      ∀ n, p.1.consumer = .datum n → (p.1.heap p.1.head).next = some n := by
  have hinit : (system α cachesize).init.Holds [] := ⟨[], inv_init⟩
  obtain ⟨l, ⟨rest, h⟩, hrun⟩ :=
    Fifo.exists_run hinit (fun s a t l _ hl ha => step_effect hl ha) hp
  refine ⟨⟨rest, l, h.linked, h.data, hrun, hrun.pushed_eq, hrun.full_notMem fun _ => id⟩,
    fun n hn => ?_, fun n hw hr => h.link_of_shared hw hr, h.next_isSome,
    fun n hc => h.next_eq.trans (h.found n hc)⟩
  rcases hn with hn | hn
  · exact h.writes_allocated n hn
  · exact h.allocated n (List.mem_append_left _ (h.reads_mem n hn))

/-- The producer finds the cache empty; before it calls `malloc`, the consumer takes two elements,
gives the dummy node to the cache, which is full then, and frees the other one, which `malloc` gives
out again. -/
def recycledRun : List (Action ℕ) :=
  [.push 1, .produce 0, .produce 5, .produce 0, .produce 0, .produce 0, .produce 0,
    .push 2, .produce 0, .produce 7, .produce 0, .produce 0, .produce 0, .produce 0,
    .push 3, .produce 0,
    .pop, .consume, .consume, .consume, .consume, .consume,
    .pop, .consume, .consume, .consume, .consume, .consume, .consume,
    .produce 5, .produce 0, .produce 0, .produce 0]

def recycled : State ℕ × List (Fifo.Event ℕ) :=
  (((system ℕ 1).record State.observe).exec ((system ℕ 1).record State.observe).init
    recycledRun).get (by decide +kernel)

theorem nodes_fifo_recycled :
    recycled.2 = [.push 1, .push 2, .pop 1, .pop 2, .push 3] ∧ recycled.1.head = 7 ∧
      (recycled.1.heap 7).next = some 5 ∧ recycled.1.cache = [0] ∧
      ∃ rest l, Linked (nextOf recycled.1.heap) (recycled.1.head :: rest) ∧
        Fifo.pushed recycled.2 = Fifo.popped recycled.2 ++ l := by
  obtain ⟨⟨rest, l, hlinked, _, _, hpushed, _⟩, _⟩ :=
    nodes_fifo 1 recycled (System.reachable_get _)
  exact ⟨by decide +kernel, by decide +kernel, by decide +kernel, by decide +kernel, rest, l,
    hlinked, hpushed⟩

end Watermark.FastFlow.DynQueue
