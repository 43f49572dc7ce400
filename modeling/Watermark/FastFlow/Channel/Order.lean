import Watermark.FastFlow.Channel.Chain

/-!
# Order — an unbounded buffer is a queue
-/

namespace Watermark.FastFlow.USWSRPtrBuffer

open Reasoning

variable {α : Type*} {c : Config} {s t : State α}

/-! ## What a step does -/

theorem contents_eq {heap : ℕ → SWSRPtrBuffer α} {buf_r buf_w : ℕ} {inuse bufcache : List ℕ}
    {producer : Producer α} {consumer : Consumer} :
    State.contents ⟨heap, buf_r, buf_w, inuse, bufcache, producer, consumer⟩ =
      (heap (consumer.reading buf_r)).held ++ inuse.flatMap fun b => (heap b).held :=
  List.flatMap_cons

-- A buffer of fixed size that is not available is full.
theorem State.Inv.full (h : s.Inv c) (ha : ¬(s.heap s.buf_w).available = true)
    (hfixed : c.fixedsize = true) : Full c s.contents := by
  refine ⟨hfixed, ?_⟩
  have hle := h.valid_buf_w.length_le
  have hnot : ¬(s.heap s.buf_w).held.length < c.size.toNat := fun hlt =>
    ha (h.valid_buf_w.available_iff.mpr hlt)
  rw [State.contents, (h.fixed hfixed).1, List.flatMap_singleton]
  omega

theorem State.Inv.not_full {data : α} (h : s.Inv c) (hp : s.producer = .push data) :
    ¬Full c s.contents := by
  rintro ⟨hfixed, hlen⟩
  have hroom := h.room data hp
  rw [State.contents, (h.fixed hfixed).1, List.flatMap_singleton] at hlen
  omega

-- The producer's buffer is the last one, and what is pushed goes to the end.
theorem State.Inv.contents_push {q : SWSRPtrBuffer α} {data : α} (h : s.Inv c)
    (hahead : s.producer.ahead = []) (hheld : q.held = (s.heap s.buf_w).held ++ [data]) :
    (s.chain.flatMap fun b => (Function.update s.heap s.buf_w q b).held) =
      s.contents ++ [data] := by
  obtain ⟨front, heq, _⟩ := h.chain
  rw [hahead] at heq
  have hnodup := h.nodup_chain
  rw [heq] at hnodup
  have hnot : s.buf_w ∉ front := fun hmem =>
    (List.nodup_append.mp hnodup).2.2 _ hmem _ List.mem_cons_self rfl
  rw [State.contents, heq, List.flatMap_append, List.flatMap_append, flatMap_update hnot,
    List.flatMap_singleton, List.flatMap_singleton, Function.update_self, hheld,
    List.append_assoc]

-- Nothing is left when the consumer has settled on a buffer and that is empty.
theorem State.Inv.contents_nil (h : s.Inv c) (hsettled : s.consumer.settled = true)
    (hnil : (s.heap (s.consumer.reading s.buf_r)).held = []) : s.contents = [] := by
  obtain ⟨front, heq, hfilled⟩ := h.chain
  have hunread : s.unread = s.chain := if_pos hsettled
  have hfirst : s.consumer.reading s.buf_r ∈ s.chain := List.mem_cons_self
  have hnot : s.consumer.reading s.buf_r ∉ s.filled front := fun hmem =>
    hfilled _ hmem (hunread ▸ hfirst) hnil
  have hchain : s.consumer.reading s.buf_r :: s.inuse = front ++ s.buf_w :: s.producer.ahead := heq
  cases front with
  | cons a front =>
      rw [(List.cons.inj hchain).1] at hnot
      exact absurd (List.mem_append_left _ List.mem_cons_self) hnot
  | nil =>
      obtain ⟨hhead, hrest⟩ := List.cons.inj hchain
      have hleaving : s.producer.leaving = false := by
        by_contra hl
        apply hnot
        rw [Bool.not_eq_false] at hl
        rw [State.filled, if_pos hl, hhead]
        exact List.mem_cons_self
      have hahead : s.producer.ahead = [] := by
        cases hp : s.producer with
        | adopt data t =>
            rw [hp] at hleaving
            cases hleaving
        | _ => rfl
      rw [State.contents, State.chain, hrest, hahead, List.flatMap_singleton, hnil]

theorem produce_step {address : ℕ} (h : s.Inv c) (hs : s.produceStep c address = some t) :
    t.Inv c ∧ Fifo.Effect (Full c) s.contents (s.observe c (.produce address)) t.contents := by
  obtain ⟨heap, buf_r, buf_w, inuse, bufcache, producer, consumer⟩ := s
  cases producer with
  | idle => cases hs
  | test data =>
      simp only [State.produceStep] at hs
      simp only [State.observe]
      by_cases ha : (heap buf_w).available = true
      · rw [if_pos ha] at hs
        cases hs
        rw [if_neg fun hand => by rw [ha] at hand; cases hand.1]
        exact ⟨inv_room h ha, Fifo.Effect.none _ rfl⟩
      · rw [if_neg ha] at hs
        by_cases hfixed : c.fixedsize = true
        · rw [if_pos hfixed] at hs
          cases hs
          rw [if_pos ⟨by rwa [Bool.not_eq_true] at ha, hfixed⟩]
          refine ⟨⟨h.nodup, h.valid, h.spare, h.chain, h.cached, fun _ hd => (by cases hd), h.fixed,
            h.turned, h.drained⟩, Fifo.Effect.one (.full (h.full ha hfixed))⟩
        · rw [if_neg hfixed] at hs
          cases hs
          rw [if_neg fun hand => hfixed hand.2]
          exact ⟨inv_full h ha hfixed, Fifo.Effect.none _ rfl⟩
  | cache data =>
      cases bufcache with
      | cons b bufcache =>
          cases hs
          exact ⟨inv_cached h, Fifo.Effect.none _ rfl⟩
      | nil =>
          cases hs
          exact ⟨inv_cacheEmpty h, Fifo.Effect.none _ rfl⟩
  | malloc data =>
      simp only [State.produceStep] at hs
      split at hs
      · cases hs
      · rename_i hnew
        cases hs
        refine ⟨inv_malloc h hnew, Fifo.Effect.none _ ?_⟩
        exact flatMap_update fun hmem => hnew (List.mem_append_left _ hmem)
  | enqueue data b =>
      cases hs
      refine ⟨inv_enqueue h, Fifo.Effect.none _ ?_⟩
      have hheld : (heap b).held = [] :=
        h.spare b (List.mem_append_left _ (List.mem_append_right _ List.mem_cons_self))
      rw [contents_eq, contents_eq, List.flatMap_append, List.flatMap_singleton, hheld,
        List.append_nil]
  | adopt data b =>
      cases hs
      exact ⟨inv_adopt h, Fifo.Effect.none _ rfl⟩
  | push data =>
      obtain ⟨q, hq, hvalid, hheld⟩ := h.valid_buf_w.push (h.room data rfl) data
      simp only [State.produceStep] at hs
      change (heap buf_w).push data = some q at hq
      rw [hq] at hs
      cases hs
      refine ⟨inv_push h hvalid hheld, Fifo.Effect.one ?_⟩
      have hcontents : State.contents ⟨Function.update heap buf_w q, buf_r, buf_w, inuse, bufcache,
          .idle, consumer⟩ = _ := h.contents_push rfl hheld
      rw [hcontents]
      exact .push data (h.not_full rfl)

theorem consume_step (h : s.Inv c) (hs : s.consumeStep c = some t) :
    t.Inv c ∧ Fifo.Effect (Full c) s.contents (s.observe c .consume) t.contents := by
  obtain ⟨heap, buf_r, buf_w, inuse, bufcache, producer, consumer⟩ := s
  cases consumer with
  | idle => cases hs
  | test =>
      have hvalid : (heap buf_r).Valid c.size := h.valid buf_r List.mem_cons_self
      simp only [State.consumeStep, Option.some.injEq] at hs
      subst hs
      refine ⟨?_, Fifo.Effect.none _ ?_⟩
      · split
        · exact inv_compare h
        · rename_i hne
          exact inv_nonempty (Or.inl rfl) h fun hnil => hne (hvalid.empty_iff.mpr hnil)
      · split <;> rfl
  | compare =>
      simp only [State.consumeStep, Option.some.injEq] at hs
      subst hs
      refine ⟨?_, Fifo.Effect.none _ ?_⟩
      · split
        · exact ⟨h.nodup, h.valid, h.spare, h.chain, h.cached, h.room, h.fixed,
            fun hc => (by cases hc), fun hc => (by cases hc)⟩
        · rename_i hne
          exact inv_retest h hne
      · split <;> rfl
  | retest =>
      have hvalid : (heap buf_r).Valid c.size := h.valid buf_r List.mem_cons_self
      simp only [State.consumeStep, Option.some.injEq] at hs
      subst hs
      refine ⟨?_, Fifo.Effect.none _ ?_⟩
      · split
        · rename_i he
          exact inv_next h (hvalid.empty_iff.mp he)
        · rename_i hne
          exact inv_nonempty (Or.inr rfl) h fun hnil => hne (hvalid.empty_iff.mpr hnil)
      · split <;> rfl
  | next =>
      cases inuse with
      | nil => exact (next_ne_nil h).elim
      | cons tmp inuse =>
          cases hs
          refine ⟨inv_release h, Fifo.Effect.none _ ?_⟩
          have hnil : (heap buf_r).held = [] := h.drained rfl
          rw [contents_eq, contents_eq]
          simp only [Consumer.reading, hnil, List.flatMap_cons, List.nil_append]
  | release tmp =>
      cases hs
      refine ⟨inv_reset h, Fifo.Effect.none _ ?_⟩
      exact flatMap_update fun hmem => h.notMem_spare hmem List.mem_cons_self
  | cache tmp =>
      simp only [State.consumeStep] at hs
      split at hs
      · rename_i hroom
        cases hs
        exact ⟨inv_recycle h hroom, Fifo.Effect.none _ rfl⟩
      · cases hs
        exact ⟨inv_cacheFull h, Fifo.Effect.none _ rfl⟩
  | free tmp =>
      cases hs
      exact ⟨inv_free h, Fifo.Effect.none _ rfl⟩
  | adopt tmp =>
      cases hs
      exact ⟨inv_move h, Fifo.Effect.none _ rfl⟩
  | pop =>
      have hvalid : (heap buf_r).Valid c.size := h.valid buf_r List.mem_cons_self
      cases hold : (heap buf_r).held with
      | nil =>
          have hnone := hvalid.pop_none hold
          simp only [State.consumeStep, hnone, Option.some.injEq] at hs
          simp only [State.observe, hnone]
          subst hs
          have hcontents := h.contents_nil rfl hold
          rw [hcontents]
          refine ⟨⟨h.nodup, h.valid, h.spare, ?_, h.cached, h.room, h.fixed,
            fun hc => (by cases hc), fun hc => (by cases hc)⟩,
            Fifo.Effect.one ?_⟩
          · obtain ⟨front, heq, hfilled⟩ := h.chain
            exact ⟨front, heq, fun b hb hunread => hfilled b hb (List.mem_cons_of_mem _ hunread)⟩
          · have hsame : State.contents ⟨heap, buf_r, buf_w, inuse, bufcache, producer, .idle⟩ =
                [] := hcontents
            rw [hsame]
            exact .empty
      | cons x l =>
          obtain ⟨q, hq, hq_valid, hheld⟩ := hvalid.pop hold
          simp only [State.consumeStep, hq, Option.some.injEq] at hs
          simp only [State.observe, hq]
          subst hs
          refine ⟨inv_pop h hq_valid hold hheld, Fifo.Effect.one ?_⟩
          have hnodup : (buf_r :: inuse).Nodup := h.nodup_chain
          rw [contents_eq, contents_eq, flatMap_update (List.nodup_cons.mp hnodup).1]
          simp only [Consumer.reading, hold, Function.update_self, hheld, List.cons_append]
          exact .pop x _

theorem step_effect {a : Action α} (h : s.Inv c) (hs : s.step c a = some t) :
    t.Inv c ∧ Fifo.Effect (Full c) s.contents (s.observe c a) t.contents := by
  cases a with
  | push data =>
      obtain ⟨heap, buf_r, buf_w, inuse, bufcache, producer, consumer⟩ := s
      cases producer with
      | idle =>
          cases hs
          exact ⟨⟨h.nodup, h.valid, h.spare, h.chain, h.cached, fun _ hd => (by cases hd), h.fixed,
            h.turned, h.drained⟩, Fifo.Effect.none _ rfl⟩
      | _ => cases hs
  | pop =>
      obtain ⟨heap, buf_r, buf_w, inuse, bufcache, producer, consumer⟩ := s
      cases consumer with
      | idle =>
          cases hs
          exact ⟨⟨h.nodup, h.valid, h.spare, h.chain, h.cached, h.room, h.fixed,
            fun hc => (by cases hc), fun hc => (by cases hc)⟩,
            Fifo.Effect.none _ rfl⟩
      | _ => cases hs
  | produce address => exact produce_step h hs
  | consume => exact consume_step h hs

/-! ## Every interleaving -/

theorem inv_init : ((system α c).init).Inv c where
  nodup := List.nodup_singleton 0
  valid b _ := (SWSRPtrBuffer.Valid.reset c.size_pos).1
  spare b hb := by cases hb
  chain := ⟨[], rfl, fun b hb => by cases hb⟩
  cached := Nat.zero_le _
  room _ hd := by cases hd
  fixed _ := ⟨rfl, rfl⟩
  turned hc := by cases hc
  drained hc := by cases hc

theorem inv (hs : (system α c).Reachable s) : s.Inv c :=
  hs.invariant inv_init fun _ _ _ _ ih ha => (step_effect ih ha).1

theorem contents_init : ((system α c).init).contents = [] := by
  rw [State.contents]
  show [0].flatMap _ = _
  rw [List.flatMap_singleton]
  exact (SWSRPtrBuffer.Valid.reset c.size_pos).2

theorem run {p : State α × List (Fifo.Event α)}
    (hp : ((system α c).record (State.observe c)).Reachable p) :
    Fifo.Run (Full c) p.2 p.1.contents :=
  Fifo.run_of_effects contents_init (fun _ _ _ hs ha => (step_effect (inv hs) ha).2) hp

/-- Whatever the two threads do at the same time, the chain of buffers behaves like one queue, which
refuses a push only if it is of fixed size and `size` elements are in it.  The inner `push`, whose
answer is not looked at, finds room, and a buffer is given back or freed when it is empty and
neither thread is going to come back to it. -/
theorem chain_fifo (c : Config) (p : State α × List (Fifo.Event α))
    (hp : ((system α c).record (State.observe c)).Reachable p) :
    Fifo.Run (Full c) p.2 p.1.contents ∧
      Fifo.pushed p.2 = Fifo.popped p.2 ++ p.1.contents ∧
      (c.fixedsize = false → .full ∉ p.2) ∧
      (c.fixedsize = true → p.1.contents.length ≤ c.size.toNat) ∧
      (∀ data, p.1.producer = .push data → (p.1.heap p.1.buf_w).available = true) ∧
      (∀ tmp, p.1.consumer = .release tmp ∨ p.1.consumer = .cache tmp ∨ p.1.consumer = .free tmp →
        p.1.buf_r ∉ p.1.chain ∧ p.1.buf_r ≠ p.1.buf_w ∧ (p.1.heap p.1.buf_r).held = [] ∧
        ∀ data, p.1.producer ≠ .enqueue data p.1.buf_r) ∧
      p.1.bufcache.length ≤ cacheSize := by
  have hinv := inv hp.of_record
  refine ⟨run hp, (run hp).pushed_eq, fun hfixed => ?_, fun hfixed => ?_, fun data hd => ?_,
    fun tmp hc => ?_, hinv.cached⟩
  · refine (run hp).full_notMem fun l hl => ?_
    rw [hl.1] at hfixed
    cases hfixed
  · exact (run hp).length_le fun l hl => ⟨hfixed, hl⟩
  · exact hinv.valid_buf_w.available_iff.mpr (hinv.room data hd)
  · have hreleased : p.1.buf_r ∈ p.1.consumer.released p.1.buf_r := by
      rcases hc with hc | hc | hc <;> rw [hc] <;> exact List.mem_cons_self
    have hchain : p.1.buf_r ∉ p.1.chain := fun hmem =>
      hinv.notMem_spare hmem (List.mem_append_left _ hreleased)
    refine ⟨hchain, fun heq => hchain (heq ▸ hinv.buf_w_mem), ?_, fun data hp => ?_⟩
    · exact hinv.spare _ (List.mem_append_left _ (List.mem_append_left _ hreleased))
    · have htaken : p.1.buf_r ∈ p.1.producer.taken := by
        rw [hp]
        exact List.mem_cons_self
      have hspare := (List.nodup_append.mp hinv.nodup).2.1
      exact (List.nodup_append.mp hspare).2.2 _ hreleased _ (List.mem_append_left _ htaken) rfl

/-- Buffers of one slot, and as many as are needed. -/
def oneSlot : Config := ⟨1, Nat.one_pos, false⟩

/-- The second element needs a buffer of its own; the consumer moves on to it and gives the first
one back, and the third element goes into that. -/
def oneSlotRun : List (Action ℕ) :=
  [.push 1, .produce 0, .produce 0, .push 2, .produce 0, .produce 0, .produce 7, .pop, .consume,
    .produce 0, .consume, .produce 0, .produce 0, .pop] ++ List.replicate 7 .consume ++
    [.push 3] ++ List.replicate 5 (.produce 9)

def oneSlotEnd : State ℕ × List (Fifo.Event ℕ) :=
  (((system ℕ oneSlot).record (State.observe oneSlot)).exec
    ((system ℕ oneSlot).record (State.observe oneSlot)).init oneSlotRun).get (by decide +kernel)

theorem chain_fifo_oneSlot :
    oneSlotEnd.2 = [.push 1, .pop 1, .push 2, .push 3] ∧ oneSlotEnd.1.chain = [7, 0] ∧
      Fifo.pushed oneSlotEnd.2 = Fifo.popped oneSlotEnd.2 ++ oneSlotEnd.1.contents := by
  refine ⟨by decide +kernel, by decide +kernel, ?_⟩
  exact (chain_fifo oneSlot oneSlotEnd (System.reachable_get _)).2.1

/-! ## A pop that finds nothing -/

/-- The actions of the producer. -/
def Action.ofProducer : Action α → Bool
  | .push _ => true
  | .produce _ => true
  | _ => false

-- Nothing is left in the chain when the only buffer the producer has reached is empty.
theorem State.Inv.contents_nil_of_eq (h : s.Inv c)
    (heq : s.consumer.reading s.buf_r = s.buf_w) (hnil : (s.heap s.buf_w).held = []) :
    s.contents = [] := by
  obtain ⟨front, hchain, _⟩ := h.chain
  have hnodup := h.nodup_chain
  have hcons : s.consumer.reading s.buf_r :: s.inuse = front ++ s.buf_w :: s.producer.ahead :=
    hchain
  cases front with
  | nil =>
      have hahead : (s.producer.ahead.flatMap fun b => (s.heap b).held) = [] := by
        rw [List.flatMap_eq_nil_iff]
        exact fun b hb => h.spare b (List.mem_append_right _ hb)
      rw [State.contents, hchain, List.nil_append, List.flatMap_cons, hnil, hahead]
      rfl
  | cons a front =>
      rw [hchain] at hnodup
      have hfirst := (List.cons.inj hcons).1
      rw [heq] at hfirst
      rw [← hfirst, List.cons_append, List.nodup_cons] at hnodup
      exact absurd (List.mem_append_right _ List.mem_cons_self) hnodup.1

-- The producer does not come back to the consumer's buffer.
theorem ne_of_ofProducer {a : Action α} (h : s.Inv c) (ha : a.ofProducer = true)
    (hs : s.step c a = some t) :
    t.consumer = s.consumer ∧ t.buf_r = s.buf_r ∧
      (s.consumer.reading s.buf_r = s.buf_r → s.buf_r ≠ s.buf_w → t.buf_r ≠ t.buf_w) := by
  obtain ⟨heap, buf_r, buf_w, inuse, bufcache, producer, consumer⟩ := s
  cases a with
  | pop => cases ha
  | consume => cases ha
  | push data =>
      cases producer with
      | idle =>
          cases hs
          exact ⟨rfl, rfl, fun _ hne => hne⟩
      | _ => cases hs
  | produce address =>
      change State.produceStep c _ address = some t at hs
      cases producer with
      | idle => cases hs
      | test data =>
          simp only [State.produceStep] at hs
          split at hs
          · cases hs
            exact ⟨rfl, rfl, fun _ hne => hne⟩
          · split at hs <;> cases hs <;> exact ⟨rfl, rfl, fun _ hne => hne⟩
      | cache data =>
          cases bufcache with
          | cons b bufcache =>
              cases hs
              exact ⟨rfl, rfl, fun _ hne => hne⟩
          | nil =>
              cases hs
              exact ⟨rfl, rfl, fun _ hne => hne⟩
      | malloc data =>
          simp only [State.produceStep] at hs
          split at hs <;> cases hs
          exact ⟨rfl, rfl, fun _ hne => hne⟩
      | enqueue data b =>
          cases hs
          exact ⟨rfl, rfl, fun _ hne => hne⟩
      | adopt data b =>
          cases hs
          exact ⟨rfl, rfl, fun hreading _ => adopt_ne h hreading⟩
      | push data =>
          simp only [State.produceStep] at hs
          split at hs <;> cases hs <;> exact ⟨rfl, rfl, fun _ hne => hne⟩

/-- A pop that finds its buffer empty and, whatever the producer does in between, then finds
`buf_r == buf_w` returns false rightly: there was nothing in the chain when it looked. -/
theorem contents_nil_of_compare (c : Config) (s t u : State α) (as : List (Action α))
    (hs : (system α c).Reachable s) (htest : s.consumer = .test)
    (ht : (system α c).step s .consume = some t) (has : ∀ a ∈ as, a.ofProducer = true)
    (hu : (system α c).exec t as = some u) (hcompare : u.consumer = .compare)
    (heq : u.buf_r = u.buf_w) : s.contents = [] := by
  have hkeep : ∀ {as : List (Action α)} {x : State α}, (system α c).Reachable x →
      (∀ a ∈ as, a.ofProducer = true) → (system α c).exec x as = some u →
      x.consumer = .compare ∧ x.buf_r = x.buf_w := by
    intro as
    induction as with
    | nil =>
        intro x _ _ hx
        cases hx
        exact ⟨hcompare, heq⟩
    | cons a as ih =>
        intro x hx hall hrun
        obtain ⟨y, hy, hrest⟩ := System.exec_cons hrun
        obtain ⟨hconsumer, hread, hne⟩ :=
          ne_of_ofProducer (inv hx) (hall a List.mem_cons_self) hy
        obtain ⟨hc, hsame⟩ := ih (hx.next hy)
          (fun b hb => hall b (List.mem_cons_of_mem a hb)) hrest
        rw [hconsumer] at hc
        refine ⟨hc, ?_⟩
        by_contra hdiff
        exact hne (by rw [hc]; rfl) hdiff hsame
  obtain ⟨hc, hsame⟩ := hkeep (hs.next ht) has hu
  obtain ⟨heap, buf_r, buf_w, inuse, bufcache, producer, consumer⟩ := s
  change consumer = .test at htest
  subst htest
  have hinv := inv hs
  have hvalid : (heap buf_r).Valid c.size := hinv.valid buf_r List.mem_cons_self
  simp only [system, State.step, State.consumeStep, Option.some.injEq] at ht
  subst ht
  change buf_r = buf_w at hsame
  by_cases he : (heap buf_r).empty = true
  · apply hinv.contents_nil_of_eq hsame
    rw [hsame] at he hvalid
    exact hvalid.empty_iff.mp he
  · change (if (heap buf_r).empty = true then Consumer.compare else Consumer.pop) = _ at hc
    rw [if_neg he] at hc
    cases hc

/-- The producer stores an element between the two tests of the consumer. -/
def lateRun : List (Action ℕ) := [.push 1, .produce 0, .produce 0]

def lateTest : State ℕ :=
  ((system ℕ oneSlot).exec (system ℕ oneSlot).init [.pop]).get (by decide +kernel)

def lateCompare : State ℕ :=
  ((system ℕ oneSlot).exec lateTest [.consume]).get (by decide +kernel)

def lateEnd : State ℕ := ((system ℕ oneSlot).exec lateCompare lateRun).get (by decide +kernel)

theorem contents_nil_of_compare_late : lateEnd.contents = [1] ∧ lateTest.contents = [] := by
  refine ⟨by decide +kernel, ?_⟩
  exact contents_nil_of_compare oneSlot lateTest lateCompare lateEnd lateRun
    (System.reachable_get _) rfl rfl (by decide) (Option.some_get _).symm rfl rfl

end Watermark.FastFlow.USWSRPtrBuffer
