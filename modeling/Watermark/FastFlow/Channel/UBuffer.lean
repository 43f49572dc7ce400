import Watermark.FastFlow.Channel.Buffer

/-!
# UBuffer — uSWSR_Ptr_Buffer

The unbounded buffer of ff/ubuffer.hpp: a chain of circular buffers.  The producer goes on in a new
one when its own is full, the consumer when its own is empty, and buffers that have been read go
back to a pool.  A step is a call on one of the parts, each of which takes effect at once: the
circular buffers, `bufcache`, which is one of them, and the queue `inuse`, a `dynqueue`; or it is a
call of `malloc`, with the construction of the new buffer, or of `free`.
-/

namespace Watermark.FastFlow.USWSRPtrBuffer

open Reasoning

variable {α : Type*}

/-- `CACHE_SIZE` -/
def cacheSize : ℕ := 32

/-- The producer, in `push`. -/
inductive Producer (α : Type*) where
  | idle
  -- `if (!available())`
  | test (data : α)
  -- `next_w`: `if (!bufcache.pop(&p.buf2))`
  | cache (data : α)
  -- `next_w`: `malloc`, `new (p.buf) INTERNAL_BUFFER_T(size)` and `p.buf->init()`
  | malloc (data : α)
  -- `inuse.push(p.buf)`
  | enqueue (data : α) (t : ℕ)
  -- `buf_w = t`
  | adopt (data : α) (t : ℕ)
  -- `buf_w->push(data)`
  | push (data : α)

/-- The consumer, in `pop`. -/
inductive Consumer where
  | idle
  -- `if (buf_r->empty())`
  | test
  -- `if (buf_r == buf_w)`
  | compare
  -- the second `if (buf_r->empty())`
  | retest
  -- `next_r`
  | next
  -- `release`: `buf->reset()`
  | release (tmp : ℕ)
  -- `release`: `if (!bufcache.push(buf))`
  | cache (tmp : ℕ)
  -- `release`: `free(buf)`
  | free (tmp : ℕ)
  -- `buf_r = tmp`
  | adopt (tmp : ℕ)
  -- `buf_r->pop(data)`
  | pop

/-- The buffers are given by their addresses in `heap`. -/
structure State (α : Type*) where
  heap : ℕ → SWSRPtrBuffer α
  buf_r : ℕ
  buf_w : ℕ
  inuse : List ℕ
  bufcache : List ℕ
  producer : Producer α
  consumer : Consumer

/-- A step; `address` is where `malloc` puts a new buffer. -/
inductive Action (α : Type*) where
  | push (data : α)
  | pop
  | produce (address : ℕ)
  | consume

/-- `uSWSR_Ptr_Buffer(n, fixedsize)` -/
structure Config where
  size : BitVec 64
  size_pos : 0 < size.toNat
  fixedsize : Bool

/-- The buffer the consumer reads from, once it has finished with its own. -/
def Consumer.reading (consumer : Consumer) (buf_r : ℕ) : ℕ :=
  match consumer with
  | .release tmp => tmp
  | .cache tmp => tmp
  | .free tmp => tmp
  | .adopt tmp => tmp
  | _ => buf_r

/-- The buffer the consumer is about to give back. -/
def Consumer.released (consumer : Consumer) (buf_r : ℕ) : List ℕ :=
  match consumer with
  | .release _ => [buf_r]
  | .cache _ => [buf_r]
  | .free _ => [buf_r]
  | _ => []

/-- The buffer the producer has taken and not yet put into the chain. -/
def Producer.taken : Producer α → List ℕ
  | .enqueue _ t => [t]
  | _ => []

namespace State

/-- The chain of buffers the consumer reads along. -/
def chain (s : State α) : List ℕ := s.consumer.reading s.buf_r :: s.inuse

/-- The buffers that have not been freed. -/
def live (s : State α) : List ℕ :=
  s.chain ++ (s.consumer.released s.buf_r ++ (s.producer.taken ++ s.bufcache))

def contents (s : State α) : List α := s.chain.flatMap fun b => (s.heap b).held

def produceStep (c : Config) (s : State α) (address : ℕ) : Option (State α) :=
  match s.producer with
  | .idle => none
  | .test data =>
    if (s.heap s.buf_w).available then some { s with producer := .push data }
    else if c.fixedsize then some { s with producer := .idle }
    else some { s with producer := .cache data }
  | .cache data =>
    match s.bufcache with
    | t :: bufcache => some { s with bufcache, producer := .enqueue data t }
    | [] => some { s with producer := .malloc data }
  | .malloc data =>
    if address ∈ s.live then none
    else some { s with
      heap := Function.update s.heap address (.reset c.size c.size_pos)
      producer := .enqueue data address }
  | .enqueue data t => some { s with inuse := s.inuse ++ [t], producer := .adopt data t }
  | .adopt data t => some { s with buf_w := t, producer := .push data }
  | .push data =>
    match (s.heap s.buf_w).push data with
    | some q => some { s with heap := Function.update s.heap s.buf_w q, producer := .idle }
    -- the answer of the inner `push` is not looked at
    | none => some { s with producer := .idle }

def consumeStep (c : Config) (s : State α) : Option (State α) :=
  match s.consumer with
  | .idle => none
  | .test => some { s with consumer := if (s.heap s.buf_r).empty then .compare else .pop }
  | .compare => some { s with consumer := if s.buf_r = s.buf_w then .idle else .retest }
  | .retest => some { s with consumer := if (s.heap s.buf_r).empty then .next else .pop }
  | .next =>
    match s.inuse with
    | tmp :: inuse => some { s with inuse, consumer := .release tmp }
    | [] => some { s with consumer := .pop }
  | .release tmp => some { s with
      heap := Function.update s.heap s.buf_r (.reset c.size c.size_pos)
      consumer := .cache tmp }
  | .cache tmp =>
    if s.bufcache.length < cacheSize then
      some { s with bufcache := s.bufcache ++ [s.buf_r], consumer := .adopt tmp }
    else some { s with consumer := .free tmp }
  -- the buffer is no longer one of `live`
  | .free tmp => some { s with consumer := .adopt tmp }
  | .adopt tmp => some { s with buf_r := tmp, consumer := .pop }
  | .pop =>
    match (s.heap s.buf_r).pop with
    | some (_, q) => some { s with heap := Function.update s.heap s.buf_r q, consumer := .idle }
    | none => some { s with consumer := .idle }

def step (c : Config) (s : State α) : Action α → Option (State α)
  | .push data => match s.producer with
    | .idle => some { s with producer := .test data }
    | _ => none
  | .pop => match s.consumer with
    | .idle => some { s with consumer := .test }
    | _ => none
  | .produce address => s.produceStep c address
  | .consume => s.consumeStep c

/-- The effects of a step, but for a pop that ends because `buf_r == buf_w`. -/
def observe (c : Config) (s : State α) : Action α → List (Fifo.Event α)
  | .produce _ => match s.producer with
    | .test _ => if (s.heap s.buf_w).available = false ∧ c.fixedsize = true then [.full] else []
    | .push data => [.push data]
    | _ => []
  | .consume => match s.consumer with
    | .pop => match (s.heap s.buf_r).pop with
      | some (data, _) => data.toList.map .pop
      | none => [.empty]
    | _ => []
  | _ => []

end State

/-- `init` -/
def system (α : Type*) (c : Config) : System (State α) (Action α) where
  init := {
    heap := fun _ => .reset c.size c.size_pos
    buf_r := 0
    buf_w := 0
    inuse := []
    bufcache := []
    producer := .idle
    consumer := .idle }
  step := State.step c

/-- The contents that leave no room: only a buffer of fixed size is ever full. -/
def Full (c : Config) (l : List α) : Prop := c.fixedsize = true ∧ l.length = c.size.toNat

end Watermark.FastFlow.USWSRPtrBuffer
