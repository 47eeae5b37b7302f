import GfeDriver.Foundation.RingBuffer
import GfeDriver.Foundation.Runs
import GfeDriver.Graph.Edge

/-!
# Batches sent asynchronously

The producer fills the batches of a ring and publishes them; a thread passes each published batch to
the interface. They share the counter `m_send_upto` under one mutex and wait on one condition
variable. The counter is also the signal of the constructor, `1`, and of the destructor, `-1`, which
the thread answers with `-2`.

The sections under the mutex are atomic steps. A thread that waits is asleep until it is notified,
or until it wakes up for no reason, and then tests its predicate again. What the producer writes
into a batch, the call of `batch` and the increment of `m_send_index` are steps of their own.

## Main definitions

* `Memory`, `State`, `Step`: the ring and the two threads
* `Delivery Counted`: what the ring guarantees, where the counter is read in the states `Counted`
* `Stuck`: both threads are blocked

## Main results

* `reachable_inv`: the ring, the counter and the two threads in every reachable state
* `delivery_counted`: every update is delivered once and in order
* `not_stuck_iff`: the two threads do not block each other if and only if there are two batches
-/

namespace GfeDriver

namespace AsyncBatch

open Foundation

/-! ## The program -/

/-- The number of batches, and the size of each. -/
structure Config where
  batchesSz : ℕ
  batchSz : ℕ
  one_le_batchesSz : 1 ≤ batchesSz
  one_le_batchSz : 1 ≤ batchSz

/-- The checks of the constructor. -/
def Config.make (numBatches batchSz : ℤ) : Except String Config :=
  if _ : numBatches < 1 then .error "num_batches < 1"
  else if _ : batchSz < 1 then .error "batch_sz < 1"
  else .ok ⟨numBatches.toNat, batchSz.toNat, by omega, by omega⟩

/-- Every configuration is accepted. -/
theorem Config.make_self (c : Config) : Config.make c.batchesSz c.batchSz = .ok c := by
  have hn := c.one_le_batchesSz
  have hk := c.one_le_batchSz
  rw [make, dif_neg (by omega), dif_neg (by omega)]
  rfl

/-- The ring of batches, and a record of what happened to it: the updates submitted, the batches
passed to the interface, the batches published with their slots, and how many of these were
consumed. -/
structure Memory (W : Type) where
  batches : ℕ → ℕ → WeightedEdge W
  batchesNumEntries : ℕ → ℕ
  batchIndex : ℕ
  batchPos : ℕ
  sendIndex : ℕ
  submitted : List (WeightedEdge W)
  delivered : List (List (WeightedEdge W))
  published : List (ℕ × List (WeightedEdge W))
  consumed : ℕ

/-- Who calls `flush`: the user, `add_edge` or `remove_edge` before they write an update, or the
destructor. -/
inductive FlushCall (W : Type)
  | user (synchronise : Bool)
  | before (update : WeightedEdge W)
  | destructor

/-- The argument of `flush`. -/
def FlushCall.synchronise {W : Type} : FlushCall W → Bool
  | .user synchronise => synchronise
  | .before _ => false
  | .destructor => true

/-- Where the producer is: in the wait of the constructor, between two calls, about to lock in
`flush`, in its first wait, before its notification, about to lock again, in its second wait, about
to write an update, about to signal the end, before the notification of it, in `join`, or after
it. -/
inductive Producer (W : Type)
  | constructing (awake : Bool)
  | ready
  | flushing (call : FlushCall W)
  | waitingSpace (call : FlushCall W) (awake : Bool)
  | notifying (call : FlushCall W)
  | syncing (call : FlushCall W)
  | waitingAll (call : FlushCall W) (awake : Bool)
  | writing (update : WeightedEdge W)
  | terminating
  | terminateNotifying
  | joining
  | destroyed

/-- Where the producer is after `flush`. -/
def FlushCall.next {W : Type} : FlushCall W → Producer W
  | .user _ => .ready
  | .before update => .writing update
  | .destructor => .terminating

/-- Where the thread is: before it resets the counter, before the notification of it, about to lock,
in its wait, about to pass a batch, about to move to the next batch, about to acknowledge the batch,
before its last notification, or after it. -/
inductive Thread
  | starting
  | started
  | acquiring
  | waiting (awake : Bool)
  | processing
  | advancing
  | finishing
  | terminating
  | terminated

/-- The ring, the counter and the two threads. -/
structure State (W : Type) where
  memory : Memory W
  sendUpto : ℤ
  producer : Producer W
  thread : Thread

section Program

variable {W : Type}

/-- The entries of a batch. -/
def Memory.contents (m : Memory W) (i : ℕ) : List (WeightedEdge W) :=
  (List.range (m.batchesNumEntries i)).map (m.batches i)

/-- The entries written into the current batch. -/
def Memory.filling (m : Memory W) : List (WeightedEdge W) :=
  (List.range m.batchPos).map (m.batches m.batchIndex)

/-- The slots published and not consumed. -/
def Memory.unconsumedSlots (m : Memory W) : List ℕ := (m.published.drop m.consumed).map Prod.fst

/-- The last lines of `add_edge` and `remove_edge`. -/
def Memory.write (m : Memory W) (update : WeightedEdge W) : Memory W :=
  { m with
    batches := Function.update m.batches m.batchIndex
      (Function.update (m.batches m.batchIndex) m.batchPos update)
    batchPos := m.batchPos + 1 }

/-- The update of the ring when `flush` sends the current batch. -/
def Memory.publish (c : Config) (m : Memory W) : Memory W :=
  { m with
    batchesNumEntries := Function.update m.batchesNumEntries m.batchIndex m.batchPos
    batchPos := 0
    batchIndex := (m.batchIndex + 1) % c.batchesSz
    published := m.published ++ [(m.batchIndex, m.filling)] }

/-- `add_edge` or `remove_edge`, up to the call of `flush`. -/
def submit (c : Config) (s : State W) (update : WeightedEdge W) : State W :=
  { s with
    memory := { s.memory with submitted := s.memory.submitted ++ [update] }
    producer := if s.memory.batchPos = c.batchSz then .flushing (.before update)
      else .writing update }

/-- The first section of `flush`, from its wait on. -/
def send (c : Config) (s : State W) (call : FlushCall W) : State W :=
  if 0 < s.memory.batchPos then
    { s with
      memory := s.memory.publish c
      sendUpto := s.sendUpto + 1
      producer := .notifying call }
  else { s with producer := .notifying call }

/-- `m_thread_condvar.notify_all()`: the producer is woken up. -/
def notifyProducer : Producer W → Producer W
  | .constructing _ => .constructing true
  | .waitingSpace call _ => .waitingSpace call true
  | .waitingAll call _ => .waitingAll call true
  | p => p

/-- `m_thread_condvar.notify_all()`: the thread is woken up. -/
def notifyThread : Thread → Thread
  | .waiting _ => .waiting true
  | t => t

/-- The wait of the thread for a job, from the test of its predicate on. -/
def waitJob (s : State W) : State W :=
  if s.sendUpto = 0 then { s with thread := .waiting false }
  else if s.sendUpto = -1 then { s with sendUpto := -2, thread := .terminating }
  else { s with thread := .processing }

/-- What a step is: a call by the producer, its return, or a step inside. -/
inductive Action (W : Type)
  | constructorReturn
  | addEdge (edge : WeightedEdge W)
  | removeEdge (edge : Edge)
  | updateReturn
  | flush (synchronise : Bool)
  | flushReturn (synchronise : Bool)
  | destructor
  | destructorReturn
  | internal

/-- **The steps** of the two threads. -/
inductive Step [Neg W] [One W] (c : Config) : Action W → State W → State W → Prop
  /-- The wait of the constructor. -/
  | constructorReturn {s : State W} (hp : s.producer = .constructing true)
      (hupto : s.sendUpto = 0) : Step c .constructorReturn s { s with producer := .ready }
  | constructorRecheck {s : State W} (hp : s.producer = .constructing true)
      (hupto : s.sendUpto ≠ 0) : Step c .internal s { s with producer := .constructing false }
  | addEdge {s : State W} (edge : WeightedEdge W) (hp : s.producer = .ready) :
      Step c (.addEdge edge) s (submit c s edge)
  | removeEdge {s : State W} (edge : Edge) (hp : s.producer = .ready) :
      Step c (.removeEdge edge) s (submit c s ⟨edge.source, edge.destination, -1⟩)
  | write {s : State W} {update : WeightedEdge W} (hp : s.producer = .writing update) :
      Step c .updateReturn s { s with memory := s.memory.write update, producer := .ready }
  | flush {s : State W} (synchronise : Bool) (hp : s.producer = .ready) :
      Step c (.flush synchronise) s { s with producer := .flushing (.user synchronise) }
  /-- The first section of `flush`. -/
  | flushFull {s : State W} {call : FlushCall W} (hp : s.producer = .flushing call)
      (hfull : (c.batchesSz : ℤ) - 1 ≤ s.sendUpto) :
      Step c .internal s { s with producer := .waitingSpace call false }
  | flushSend {s : State W} {call : FlushCall W} (hp : s.producer = .flushing call)
      (hroom : s.sendUpto < (c.batchesSz : ℤ) - 1) : Step c .internal s (send c s call)
  | spaceRecheck {s : State W} {call : FlushCall W} (hp : s.producer = .waitingSpace call true)
      (hfull : (c.batchesSz : ℤ) - 1 ≤ s.sendUpto) :
      Step c .internal s { s with producer := .waitingSpace call false }
  | spaceSend {s : State W} {call : FlushCall W} (hp : s.producer = .waitingSpace call true)
      (hroom : s.sendUpto < (c.batchesSz : ℤ) - 1) : Step c .internal s (send c s call)
  | notifyReturn {s : State W} {call : FlushCall W} (hp : s.producer = .notifying call)
      (hsync : call.synchronise = false) :
      Step c (.flushReturn false) s
        { s with producer := call.next, thread := notifyThread s.thread }
  | notifySync {s : State W} {call : FlushCall W} (hp : s.producer = .notifying call)
      (hsync : call.synchronise = true) :
      Step c .internal s { s with producer := .syncing call, thread := notifyThread s.thread }
  /-- The second section of `flush`. -/
  | syncReturn {s : State W} {call : FlushCall W} (hp : s.producer = .syncing call)
      (hupto : s.sendUpto = 0) : Step c (.flushReturn true) s { s with producer := call.next }
  | syncWait {s : State W} {call : FlushCall W} (hp : s.producer = .syncing call)
      (hupto : s.sendUpto ≠ 0) :
      Step c .internal s { s with producer := .waitingAll call false }
  | allReturn {s : State W} {call : FlushCall W} (hp : s.producer = .waitingAll call true)
      (hupto : s.sendUpto = 0) : Step c (.flushReturn true) s { s with producer := call.next }
  | allRecheck {s : State W} {call : FlushCall W} (hp : s.producer = .waitingAll call true)
      (hupto : s.sendUpto ≠ 0) :
      Step c .internal s { s with producer := .waitingAll call false }
  /-- The destructor: `flush(true)`, then the signal, its notification and `join`. -/
  | destructor {s : State W} (hp : s.producer = .ready) :
      Step c .destructor s { s with producer := .flushing .destructor }
  | terminate {s : State W} (hp : s.producer = .terminating) :
      Step c .internal s { s with sendUpto := -1, producer := .terminateNotifying }
  | terminateNotify {s : State W} (hp : s.producer = .terminateNotifying) :
      Step c .internal s { s with producer := .joining, thread := notifyThread s.thread }
  | join {s : State W} (hp : s.producer = .joining) (ht : s.thread = .terminated) :
      Step c .destructorReturn s { s with producer := .destroyed }
  /-- The top of `main_thread`. -/
  | start {s : State W} (ht : s.thread = .starting) :
      Step c .internal s { s with sendUpto := 0, thread := .started }
  | startNotify {s : State W} (ht : s.thread = .started) :
      Step c .internal s { s with producer := notifyProducer s.producer, thread := .acquiring }
  | acquire {s : State W} (ht : s.thread = .acquiring) : Step c .internal s (waitJob s)
  | recheck {s : State W} (ht : s.thread = .waiting true) : Step c .internal s (waitJob s)
  /-- The loop of `main_thread`. -/
  | batch {s : State W} (ht : s.thread = .processing) :
      Step c .internal s
        { s with
          memory := { s.memory with
            delivered := s.memory.delivered ++ [s.memory.contents s.memory.sendIndex] }
          thread := .advancing }
  | advance {s : State W} (ht : s.thread = .advancing) :
      Step c .internal s
        { s with
          memory := { s.memory with sendIndex := (s.memory.sendIndex + 1) % c.batchesSz }
          thread := .finishing }
  | acknowledge {s : State W} (ht : s.thread = .finishing) :
      Step c .internal s
        (waitJob
          { s with
            memory := { s.memory with consumed := s.memory.consumed + 1 }
            sendUpto := s.sendUpto - 1
            producer := notifyProducer s.producer })
  /-- The end of `main_thread`. -/
  | exit {s : State W} (ht : s.thread = .terminating) :
      Step c .internal s
        { s with producer := notifyProducer s.producer, thread := .terminated }
  | spuriousProducer {s : State W} :
      Step c .internal s { s with producer := notifyProducer s.producer }
  | spuriousThread {s : State W} :
      Step c .internal s { s with thread := notifyThread s.thread }

/-- The ring as the constructor allocates it, over memory with the contents `init`. -/
def Memory.initial (init : ℕ → ℕ → WeightedEdge W) : Memory W :=
  ⟨init, fun _ => 0, 0, 0, 0, [], [], [], 0⟩

/-- The constructor in its wait, after it created the thread. -/
def initial (init : ℕ → ℕ → WeightedEdge W) : State W :=
  ⟨Memory.initial init, 1, .constructing false, .starting⟩

/-- The states of the runs. -/
def Reachable [Neg W] [One W] (c : Config) (s : State W) : Prop :=
  ∃ init, Relation.ReflTransGen (fun s s' => ∃ a, Step c a s s') (initial init) s

end Program

/-! ## The ring -/

section Ring

variable {W : Type} {c : Config} {m : Memory W} {pending : List (WeightedEdge W)} {d a : ℕ}

/-- **The ring**, with the updates `pending` submitted and not written, `d` batches delivered and
not acknowledged, and `a` of these left by the index of the thread. -/
structure Memory.Inv (c : Config) (m : Memory W) (pending : List (WeightedEdge W)) (d a : ℕ) :
    Prop where
  index : m.batchIndex = m.published.length % c.batchesSz
  slots : m.published.map Prod.fst =
    (List.range m.published.length).map (· % c.batchesSz)
  submitted : m.submitted = (m.published.map Prod.snd).flatten ++ m.filling ++ pending
  pos : m.batchPos ≤ c.batchSz
  ring : RingBuffer c.batchesSz m.contents (m.published.map Prod.snd) m.consumed
  delivered : m.delivered = (m.published.map Prod.snd).take (m.consumed + d)
  sendIndex : m.sendIndex = (m.consumed + a) % c.batchesSz

theorem Memory.inv_initial (c : Config) (init : ℕ → ℕ → WeightedEdge W) :
    (Memory.initial init).Inv c [] 0 0 where
  index := by simp [initial]
  slots := rfl
  submitted := rfl
  pos := Nat.zero_le _
  ring :=
    { le := le_rfl
      lt := by simpa [initial] using Nat.lt_of_lt_of_le Nat.zero_lt_one c.one_le_batchesSz
      stored := fun j b _ hb => by simp [initial] at hb }
  delivered := rfl
  sendIndex := by simp [initial]

theorem Memory.contents_write_of_ne (m : Memory W) (u : WeightedEdge W) {i : ℕ}
    (hi : i ≠ m.batchIndex) : (m.write u).contents i = m.contents i := by
  simp [contents, write, Function.update_of_ne hi]

theorem Memory.contents_publish_of_ne (m : Memory W) {i : ℕ} (hi : i ≠ m.batchIndex) :
    (m.publish c).contents i = m.contents i := by
  simp [contents, publish, Function.update_of_ne hi]

theorem Memory.contents_publish (m : Memory W) :
    (m.publish c).contents m.batchIndex = m.filling := by
  simp [contents, publish, filling]

theorem Memory.filling_write (m : Memory W) (u : WeightedEdge W) :
    (m.write u).filling = m.filling ++ [u] := by
  have hold : ∀ i ∈ List.range m.batchPos,
      Function.update (m.batches m.batchIndex) m.batchPos u i = m.batches m.batchIndex i := by
    intro i hi
    exact Function.update_of_ne (List.mem_range.mp hi).ne _ _
  simp only [filling, write, Function.update_self, List.range_succ, List.map_append, List.map_cons,
    List.map_nil]
  rw [List.map_congr_left hold]

theorem Memory.filling_publish (m : Memory W) : (m.publish c).filling = [] := rfl

theorem Memory.filling_of_batchPos (hpos : m.batchPos = 0) : m.filling = [] := by
  simp [filling, hpos]

/-- `add_edge` and `remove_edge` submit an update. -/
theorem Memory.Inv.submit (h : m.Inv c [] d a) (u : WeightedEdge W) :
    ({ m with submitted := m.submitted ++ [u] } : Memory W).Inv c [u] d a where
  index := h.index
  slots := h.slots
  submitted := by
    show m.submitted ++ [u] = _
    rw [h.submitted, List.append_nil]
    rfl
  pos := h.pos
  ring := h.ring
  delivered := h.delivered
  sendIndex := h.sendIndex

theorem Memory.Inv.write {u : WeightedEdge W} (h : m.Inv c [u] d a)
    (hpos : m.batchPos < c.batchSz) : (m.write u).Inv c [] d a where
  index := h.index
  slots := h.slots
  submitted := by
    rw [Memory.filling_write, List.append_nil, ← List.append_assoc]
    exact h.submitted
  pos := hpos
  ring := by
    -- only the slot of the producer is written, which is the free cell of the ring
    refine h.ring.write fun i hi => m.contents_write_of_ne u ?_
    rwa [h.index, ← List.length_map (f := Prod.snd)]
  delivered := h.delivered
  sendIndex := h.sendIndex

theorem Memory.Inv.publish (h : m.Inv c pending d a)
    (hd : m.consumed + d ≤ m.published.length)
    (hroom : m.published.length + 1 < m.consumed + c.batchesSz) :
    (m.publish c).Inv c pending d a where
  index := by
    show (m.batchIndex + 1) % c.batchesSz = _
    simp [Memory.publish, h.index]
  slots := by
    simp [Memory.publish, List.range_succ, h.slots, h.index]
  submitted := by
    rw [Memory.filling_publish]
    simp [Memory.publish, h.submitted]
  pos := Nat.zero_le _
  ring := by
    have hlen : (m.published.map Prod.snd).length % c.batchesSz = m.batchIndex := by
      rw [List.length_map, h.index]
    -- first the size of the batch is written, in the free cell; then the cell is published
    have hwrite : RingBuffer c.batchesSz (m.publish c).contents (m.published.map Prod.snd)
        m.consumed := by
      refine h.ring.write fun i hi => m.contents_publish_of_ne ?_
      rwa [← hlen]
    have hpublish := hwrite.publish (by rwa [List.length_map])
    rw [hlen, m.contents_publish] at hpublish
    simpa [Memory.publish] using hpublish
  delivered := by
    have hle : m.consumed + d ≤ (m.published.map Prod.snd).length := by rwa [List.length_map]
    show m.delivered = ((m.published ++ [_]).map Prod.snd).take (m.consumed + d)
    rw [List.map_append, List.take_append_of_le_length hle]
    exact h.delivered
  sendIndex := h.sendIndex

/-- The thread passes the oldest unconsumed batch to the interface. -/
theorem Memory.Inv.batch (h : m.Inv c pending 0 0) (hlt : m.consumed < m.published.length) :
    ({ m with delivered := m.delivered ++ [m.contents m.sendIndex] } : Memory W).Inv c pending
      1 0 where
  index := h.index
  slots := h.slots
  submitted := h.submitted
  pos := h.pos
  ring := h.ring
  delivered := by
    show m.delivered ++ [m.contents m.sendIndex] = _
    -- the cell at the index of the thread holds the oldest unconsumed batch
    rw [h.ring.take_succ (by rwa [List.length_map]), h.delivered, h.sendIndex, Nat.add_zero]
  sendIndex := h.sendIndex

theorem Memory.Inv.advance (h : m.Inv c pending 1 0) :
    ({ m with sendIndex := (m.sendIndex + 1) % c.batchesSz } : Memory W).Inv c pending 1 1 where
  index := h.index
  slots := h.slots
  submitted := h.submitted
  pos := h.pos
  ring := h.ring
  delivered := h.delivered
  sendIndex := by
    show (m.sendIndex + 1) % c.batchesSz = (m.consumed + 1) % c.batchesSz
    rw [h.sendIndex, Nat.add_zero, Nat.mod_add_mod]

theorem Memory.Inv.acknowledge (h : m.Inv c pending 1 1) (hlt : m.consumed < m.published.length) :
    ({ m with consumed := m.consumed + 1 } : Memory W).Inv c pending 0 0 where
  index := h.index
  slots := h.slots
  submitted := h.submitted
  pos := h.pos
  ring := h.ring.consume (by rwa [List.length_map])
  delivered := h.delivered
  sendIndex := h.sendIndex

/-- A published slot that is not consumed is not the slot of the producer. -/
theorem Memory.Inv.unconsumed_ne (h : m.Inv c pending d a) {i : ℕ} (hi : i ∈ m.unconsumedSlots) :
    i ≠ m.batchIndex := by
  rw [Memory.unconsumedSlots, List.map_drop, h.slots] at hi
  obtain ⟨k, hk⟩ := List.mem_iff_getElem?.mp hi
  rw [List.getElem?_drop, List.getElem?_map, Option.map_eq_some_iff] at hk
  obtain ⟨j, hj, rfl⟩ := hk
  obtain ⟨hlt, heq⟩ := List.getElem?_eq_some_iff.mp hj
  rw [List.length_range] at hlt
  rw [List.getElem_range] at heq
  subst heq
  have hne := h.ring.slot_ne (Nat.le_add_right m.consumed k) (by rwa [List.length_map])
  rwa [List.length_map, ← h.index] at hne

/-- The interface received a prefix of what was submitted. -/
theorem Memory.Inv.flatten_delivered (h : m.Inv c pending d a) :
    m.delivered.flatten <+: m.submitted := by
  rw [h.delivered, h.submitted, List.append_assoc]
  refine List.IsPrefix.trans ?_ (List.prefix_append _ _)
  apply List.IsPrefix.flatten
  exact List.take_prefix _ _

/-- With every batch consumed and nothing left to publish, everything was received. -/
theorem Memory.Inv.flatten_delivered_eq (h : m.Inv c [] d a)
    (hconsumed : m.consumed = m.published.length) (hpos : m.batchPos = 0) :
    m.delivered.flatten = m.submitted := by
  have htake : (m.published.map Prod.snd).take (m.consumed + d) = m.published.map Prod.snd := by
    apply List.take_of_length_le
    rw [List.length_map, hconsumed]
    exact Nat.le_add_right _ _
  rw [h.delivered, h.submitted, htake, Memory.filling_of_batchPos hpos, List.append_nil,
    List.append_nil]

end Ring

/-! ## The two threads -/

section Control

variable {W : Type}

/-- The update submitted and not written, during `flush`. -/
def FlushCall.pending : FlushCall W → List (WeightedEdge W)
  | .before update => [update]
  | _ => []

/-- The update submitted and not written. -/
@[simp] def Producer.pending : Producer W → List (WeightedEdge W)
  | .flushing call | .waitingSpace call _ | .notifying call | .syncing call | .waitingAll call _ =>
    call.pending
  | .writing update => [update]
  | _ => []

/-- The producer is in the constructor. -/
@[simp] def Producer.Constructing : Producer W → Prop
  | .constructing _ => True
  | _ => False

/-- The producer is in `flush`, after it sent the current batch, or in what follows of the
destructor. -/
@[simp] def Producer.Flushed : Producer W → Prop
  | .notifying _ | .syncing _ | .waitingAll _ _ | .terminating | .terminateNotifying | .joining
  | .destroyed => True
  | _ => False

/-- The producer is in the destructor, after `flush`. -/
@[simp] def Producer.Synced : Producer W → Prop
  | .terminating | .terminateNotifying | .joining | .destroyed => True
  | _ => False

/-- The producer has signalled the end. -/
@[simp] def Producer.Signalled : Producer W → Prop
  | .terminateNotifying | .joining | .destroyed => True
  | _ => False

/-- The producer is about to notify. -/
@[simp] def Producer.Notifying : Producer W → Prop
  | .notifying _ | .terminateNotifying => True
  | _ => False

/-- The thread has a job. -/
@[simp] def Thread.Busy : Thread → Prop
  | .processing | .advancing | .finishing => True
  | _ => False

/-- The thread answered the signal of the end. -/
@[simp] def Thread.Ended : Thread → Prop
  | .terminating | .terminated => True
  | _ => False

/-- The batches delivered and not acknowledged. -/
@[simp] def Thread.delivered : Thread → ℕ
  | .advancing | .finishing => 1
  | _ => 0

/-- Those left by the index. -/
@[simp] def Thread.advanced : Thread → ℕ
  | .finishing => 1
  | _ => 0

/-- The counter is neither the signal of the constructor nor the signal of the destructor. -/
def Counted (s : State W) : Prop := s.thread ≠ .starting ∧ ¬s.producer.Signalled

/-- **The invariant.** -/
structure Inv (c : Config) (s : State W) : Prop where
  memory : s.memory.Inv c s.producer.pending s.thread.delivered s.thread.advanced
  /-- The counter as the signal of the constructor. -/
  starting : s.thread = .starting →
    s.sendUpto = 1 ∧ s.memory.published = [] ∧ s.producer.Constructing
  counted : Counted s → s.sendUpto = s.memory.published.length - s.memory.consumed
  /-- The counter as the signal of the destructor. -/
  signalled : s.producer.Signalled →
    s.sendUpto = -1 ∧ ¬s.thread.Ended ∨ s.sendUpto = -2 ∧ s.thread.Ended
  ended : s.thread.Ended → s.producer.Signalled
  busy : s.thread.Busy → s.memory.consumed < s.memory.published.length
  flushed : s.producer.Flushed → s.memory.batchPos = 0
  writing : ∀ u, s.producer = .writing u → s.memory.batchPos < c.batchSz
  synced : s.producer.Synced → s.memory.consumed = s.memory.published.length
  /-- A thread that sleeps has nothing to do, or is about to be notified. -/
  threadAsleep : s.thread = .waiting false → s.sendUpto = 0 ∨ s.producer.Notifying
  spaceAsleep : ∀ call, s.producer = .waitingSpace call false →
    (c.batchesSz : ℤ) - 1 ≤ s.sendUpto
  allAsleep : ∀ call, s.producer = .waitingAll call false → s.sendUpto ≠ 0

variable {c : Config} {s : State W}

theorem inv_initial (c : Config) (init : ℕ → ℕ → WeightedEdge W) : Inv c (initial init) where
  memory := Memory.inv_initial c init
  starting _ := ⟨rfl, rfl, trivial⟩
  counted h := absurd rfl h.1
  signalled h := absurd h id
  ended h := absurd h id
  busy h := absurd h id
  flushed h := absurd h id
  writing u hp := by simp [initial] at hp
  synced h := absurd h id
  threadAsleep ht := by simp [initial] at ht
  spaceAsleep call hp := by simp [initial] at hp
  allAsleep call hp := by simp [initial] at hp

/-- A step of the producer that writes neither the ring nor the counter. -/
theorem Inv.move (h : Inv c s) {p : Producer W} (hpending : p.pending = s.producer.pending)
    (hconstructing : s.producer.Constructing → s.thread = .starting → p.Constructing)
    (hsignalled : p.Signalled ↔ s.producer.Signalled)
    (hflushed : p.Flushed → s.memory.batchPos = 0)
    (hwriting : ∀ u, p = .writing u → s.memory.batchPos < c.batchSz)
    (hsynced : p.Synced → s.memory.consumed = s.memory.published.length)
    (hnotifying : s.thread = .waiting false → s.producer.Notifying → p.Notifying)
    (hspace : ∀ call, p = .waitingSpace call false → (c.batchesSz : ℤ) - 1 ≤ s.sendUpto)
    (hall : ∀ call, p = .waitingAll call false → s.sendUpto ≠ 0) :
    Inv c { s with producer := p } where
  memory := by
    show s.memory.Inv c p.pending s.thread.delivered s.thread.advanced
    rw [hpending]
    exact h.memory
  starting ht := by
    obtain ⟨hupto, hpub, hcon⟩ := h.starting ht
    exact ⟨hupto, hpub, hconstructing hcon ht⟩
  counted hc := h.counted ⟨hc.1, fun hs => hc.2 (hsignalled.mpr hs)⟩
  signalled hs := h.signalled (hsignalled.mp hs)
  ended he := hsignalled.mpr (h.ended he)
  busy := h.busy
  flushed := hflushed
  writing := hwriting
  synced := hsynced
  threadAsleep ht := (h.threadAsleep ht).imp_right (hnotifying ht)
  spaceAsleep := hspace
  allAsleep := hall

/-- The producer is woken up. -/
theorem Inv.notifyProducer (h : Inv c s) :
    Inv c { s with producer := notifyProducer s.producer } := by
  cases hp : s.producer with
  | constructing awake => apply h.move <;> simp [hp, AsyncBatch.notifyProducer]
  | waitingSpace call awake => apply h.move <;> simp [hp, AsyncBatch.notifyProducer]
  | waitingAll call awake =>
    have hpos := h.flushed (hp ▸ trivial)
    apply h.move <;> simp [hp, hpos, AsyncBatch.notifyProducer]
  | _ => simpa [AsyncBatch.notifyProducer, hp] using hp ▸ h

/-- A step of the thread that writes neither the ring nor the counter. -/
theorem Inv.moveThread (h : Inv c s) {t : Thread} (hdelivered : t.delivered = s.thread.delivered)
    (hadvanced : t.advanced = s.thread.advanced) (hstart : s.thread ≠ .starting)
    (ht : t ≠ .starting) (hended : t.Ended ↔ s.thread.Ended)
    (hbusy : t.Busy → s.memory.consumed < s.memory.published.length)
    (hasleep : t = .waiting false → s.sendUpto = 0 ∨ s.producer.Notifying) :
    Inv c { s with thread := t } where
  memory := by
    show s.memory.Inv c s.producer.pending t.delivered t.advanced
    rw [hdelivered, hadvanced]
    exact h.memory
  starting hc := absurd hc ht
  counted hc := h.counted ⟨hstart, hc.2⟩
  signalled hs := by
    rw [hended]
    exact h.signalled hs
  ended he := h.ended (hended.mp he)
  busy := hbusy
  flushed := h.flushed
  writing := h.writing
  synced := h.synced
  threadAsleep := hasleep
  spaceAsleep := h.spaceAsleep
  allAsleep := h.allAsleep

/-- The thread is woken up. -/
theorem Inv.notifyThread (h : Inv c s) : Inv c { s with thread := notifyThread s.thread } := by
  cases ht : s.thread with
  | waiting awake =>
    apply h.moveThread <;> simp [ht, AsyncBatch.notifyThread]
  | _ => simpa [AsyncBatch.notifyThread, ht] using ht ▸ h

theorem notifyProducer_ne_waitingSpace (p : Producer W) (call : FlushCall W) :
    notifyProducer p ≠ .waitingSpace call false := by
  cases p <;> simp [notifyProducer]

theorem notifyProducer_ne_waitingAll (p : Producer W) (call : FlushCall W) :
    notifyProducer p ≠ .waitingAll call false := by
  cases p <;> simp [notifyProducer]

theorem Producer.Signalled.synced {p : Producer W} (h : p.Signalled) : p.Synced := by
  cases p <;> simp_all [Signalled, Synced]

/-- The thread runs once the producer has left the constructor. -/
theorem Inv.thread_ne_starting (h : Inv c s) (hp : ¬s.producer.Constructing) :
    s.thread ≠ .starting := fun ht => hp (h.starting ht).2.2

theorem Inv.consumed_le (h : Inv c s) : s.memory.consumed ≤ s.memory.published.length := by
  simpa using h.memory.ring.le

/-- The delivered batches were published. -/
theorem Inv.delivered_le (h : Inv c s) :
    s.memory.consumed + s.thread.delivered ≤ s.memory.published.length := by
  have hle := h.consumed_le
  have hbusy := h.busy
  cases ht : s.thread <;> simp_all [Thread.delivered, Thread.Busy]

/-- An empty counter, when it counts: every batch was consumed. -/
theorem Inv.consumed_of_sendUpto (h : Inv c s) (hc : Counted s) (hupto : s.sendUpto = 0) :
    s.memory.consumed = s.memory.published.length := by
  have hcount := h.counted hc
  omega

/-- A step of the producer that writes the ring, between the constructor and the end of the
destructor. -/
theorem Inv.produce (h : Inv c s) {m : Memory W} {upto : ℤ} {p : Producer W}
    (hconstructing : ¬s.producer.Constructing) (hsignalled : ¬s.producer.Signalled)
    (hsynced : ¬p.Synced) (hmem : m.Inv c p.pending s.thread.delivered s.thread.advanced)
    (hconsumed : m.consumed = s.memory.consumed)
    (hpublished : s.memory.published.length ≤ m.published.length)
    (hupto : upto = m.published.length - m.consumed)
    (hflushed : p.Flushed → m.batchPos = 0)
    (hwriting : ∀ u, p = .writing u → m.batchPos < c.batchSz)
    (hasleep : s.thread = .waiting false → upto = 0 ∨ p.Notifying)
    (hspace : ∀ call, p ≠ .waitingSpace call false)
    (hall : ∀ call, p ≠ .waitingAll call false) :
    Inv c { s with memory := m, sendUpto := upto, producer := p } where
  memory := hmem
  starting ht := absurd ht (h.thread_ne_starting hconstructing)
  counted _ := hupto
  signalled hs := absurd (Producer.Signalled.synced hs) hsynced
  ended he := absurd (h.ended he) hsignalled
  busy hb := by
    show m.consumed < m.published.length
    rw [hconsumed]
    exact (h.busy hb).trans_le hpublished
  flushed := hflushed
  writing := hwriting
  synced hs := absurd hs hsynced
  threadAsleep := hasleep
  spaceAsleep call hc := absurd hc (hspace call)
  allAsleep call hc := absurd hc (hall call)

/-- The calls of `add_edge` and `remove_edge`. -/
theorem Inv.submit (h : Inv c s) (hp : s.producer = .ready) (u : WeightedEdge W) :
    Inv c (submit c s u) := by
  have hmem := h.memory
  have hasleep := h.threadAsleep
  rw [hp] at hmem hasleep
  have hcount := h.counted ⟨h.thread_ne_starting (hp ▸ id), hp ▸ id⟩
  unfold AsyncBatch.submit
  split_ifs with hfull
  · -- the batch is full, and `flush` is called before the update is written
    refine h.produce (hp ▸ id) (hp ▸ id) id (hmem.submit u) rfl le_rfl hcount ?_ ?_ ?_ ?_ ?_
    · exact fun hc => absurd hc id
    · simp
    · exact hasleep
    · simp
    · simp
  · refine h.produce (hp ▸ id) (hp ▸ id) id (hmem.submit u) rfl le_rfl hcount ?_ ?_ ?_ ?_ ?_
    · exact fun hc => absurd hc id
    · exact fun _ _ => lt_of_le_of_ne hmem.pos hfull
    · exact hasleep
    · simp
    · simp

theorem Inv.write (h : Inv c s) {u : WeightedEdge W} (hp : s.producer = .writing u) :
    Inv c { s with memory := s.memory.write u, producer := .ready } := by
  have hpos := h.writing u hp
  have hmem := h.memory
  have hasleep := h.threadAsleep
  rw [hp] at hmem hasleep
  have hcount := h.counted ⟨h.thread_ne_starting (hp ▸ id), hp ▸ id⟩
  refine h.produce (hp ▸ id) (hp ▸ id) id (hmem.write hpos) rfl le_rfl hcount ?_ ?_ ?_ ?_ ?_
  · exact fun hc => absurd hc id
  · simp
  · exact hasleep
  · simp
  · simp

/-- The first section of `flush`, once there is room. -/
theorem Inv.send (h : Inv c s) {call : FlushCall W}
    (hp : s.producer = .flushing call ∨ s.producer = .waitingSpace call true)
    (hroom : s.sendUpto < (c.batchesSz : ℤ) - 1) : Inv c (send c s call) := by
  have hmem : s.memory.Inv c call.pending s.thread.delivered s.thread.advanced := by
    have hmem := h.memory
    rcases hp with hp | hp <;> rwa [hp] at hmem
  have hconstructing : ¬s.producer.Constructing := by
    rcases hp with hp | hp <;> exact hp ▸ id
  have hsignalled : ¬s.producer.Signalled := by
    rcases hp with hp | hp <;> exact hp ▸ id
  have hcount := h.counted ⟨h.thread_ne_starting hconstructing, hsignalled⟩
  unfold AsyncBatch.send
  split_ifs with hpos
  · -- the counter grows with the number of published batches
    refine h.produce hconstructing hsignalled id (hmem.publish h.delivered_le (by omega)) rfl
      ?_ ?_ ?_ ?_ ?_ ?_ ?_
    · simp [Memory.publish]
    · simp only [Memory.publish, List.length_append, List.length_singleton]
      push_cast
      omega
    · exact fun _ => rfl
    · simp
    · exact fun _ => Or.inr trivial
    · simp
    · simp
  · refine h.produce hconstructing hsignalled id hmem rfl le_rfl hcount ?_ ?_ ?_ ?_ ?_
    · exact fun _ => Nat.eq_zero_of_not_pos hpos
    · simp
    · exact fun _ => Or.inr trivial
    · simp
    · simp

/-- The signal of the destructor. -/
theorem Inv.terminate (h : Inv c s) (hp : s.producer = .terminating) :
    Inv c { s with sendUpto := -1, producer := .terminateNotifying } := by
  have hmem := h.memory
  have hended := h.ended
  rw [hp] at hmem hended
  exact
    { memory := hmem
      starting := fun hc => absurd hc (h.thread_ne_starting (hp ▸ id))
      -- from here on the counter is no count
      counted := fun hc => absurd trivial hc.2
      signalled := fun _ => Or.inl ⟨rfl, hended⟩
      ended := fun _ => trivial
      busy := h.busy
      flushed := fun _ => h.flushed (hp ▸ trivial)
      writing := fun _ hc => by cases hc
      synced := fun _ => h.synced (hp ▸ trivial)
      threadAsleep := fun _ => Or.inr trivial
      spaceAsleep := fun _ hc => by cases hc
      allAsleep := fun _ hc => by cases hc }

/-- The handshake with the constructor. -/
theorem Inv.start (h : Inv c s) (ht : s.thread = .starting) :
    Inv c { s with sendUpto := 0, thread := .started } := by
  obtain ⟨-, hpub, hcon⟩ := h.starting ht
  have hmem := h.memory
  rw [ht] at hmem
  have hle := h.consumed_le
  rw [hpub] at hle
  -- the constructor still waits, and nothing was published
  have hp : ∃ awake, s.producer = .constructing awake := by
    cases hp : s.producer with
    | constructing awake => exact ⟨awake, rfl⟩
    | _ => simp [hp, Producer.Constructing] at hcon
  obtain ⟨awake, hp⟩ := hp
  exact
    { memory := hmem
      starting := fun hc => by cases hc
      counted := fun _ => by
        show (0 : ℤ) = (s.memory.published.length : ℤ) - s.memory.consumed
        rw [hpub, Nat.le_zero.mp hle]
        rfl
      signalled := fun hc => absurd hc (hp ▸ id)
      ended := fun hc => absurd hc id
      busy := fun hc => absurd hc id
      flushed := h.flushed
      writing := h.writing
      synced := h.synced
      threadAsleep := fun hc => by cases hc
      spaceAsleep := fun call hc => by simp [hp] at hc
      allAsleep := fun call hc => by simp [hp] at hc }

/-- The thread is about to wait for its first job. -/
theorem Inv.startNotify (h : Inv c s) (ht : s.thread = .started) :
    Inv c { s with thread := .acquiring } := by
  apply h.moveThread <;> simp [ht]

/-- A thread without a job waits for one, takes one, or terminates. -/
theorem Inv.waitJob (h : Inv c s) (ht : s.thread = .acquiring ∨ s.thread = .waiting true) :
    Inv c (waitJob s) := by
  have hdelivered : s.thread.delivered = 0 := by rcases ht with ht | ht <;> rw [ht] <;> rfl
  have hadvanced : s.thread.advanced = 0 := by rcases ht with ht | ht <;> rw [ht] <;> rfl
  have hstart : s.thread ≠ .starting := by rcases ht with ht | ht <;> simp [ht]
  have hended : ¬s.thread.Ended := by rcases ht with ht | ht <;> exact ht ▸ id
  have hle := h.consumed_le
  unfold AsyncBatch.waitJob
  split_ifs with hzero hminus
  · exact h.moveThread hdelivered.symm hadvanced.symm hstart (by simp)
      ⟨fun hc => absurd hc id, fun hc => absurd hc hended⟩ (fun hc => absurd hc id)
      fun _ => Or.inl hzero
  · -- a count is not negative, so this is the signal of the destructor
    have hs : s.producer.Signalled := by
      by_contra hs
      have hcount := h.counted ⟨hstart, hs⟩
      omega
    have hmem := h.memory
    rw [hdelivered, hadvanced] at hmem
    exact
      { memory := hmem
        starting := fun hc => by cases hc
        counted := fun hc => absurd hs hc.2
        signalled := fun _ => Or.inr ⟨rfl, trivial⟩
        ended := fun _ => hs
        busy := fun hc => absurd hc id
        flushed := h.flushed
        writing := h.writing
        synced := h.synced
        threadAsleep := fun hc => by cases hc
        spaceAsleep := fun call hc => by simp [show s.producer = _ from hc] at hs
        allAsleep := fun call hc => by simp [show s.producer = _ from hc] at hs }
  · have hs : ¬s.producer.Signalled := by
      intro hs
      rcases h.signalled hs with ⟨hupto, -⟩ | ⟨-, hc⟩
      · exact hminus hupto
      · exact hended hc
    have hcount := h.counted ⟨hstart, hs⟩
    exact h.moveThread hdelivered.symm hadvanced.symm hstart (by simp)
      ⟨fun hc => absurd hc id, fun hc => absurd hc hended⟩ (fun _ => by omega)
      fun hc => by cases hc

/-- The producer is not in the end of the destructor while the thread has a job. -/
theorem Inv.not_synced (h : Inv c s) (hb : s.thread.Busy) : ¬s.producer.Synced := by
  intro hs
  have hlt := h.busy hb
  rw [h.synced hs] at hlt
  exact lt_irrefl _ hlt

/-- A step of the thread from a job to the same job. -/
theorem Inv.work (h : Inv c s) {m : Memory W} {t : Thread} (hb : s.thread.Busy) (ht : t.Busy)
    (hmem : m.Inv c s.producer.pending t.delivered t.advanced)
    (hpublished : m.published = s.memory.published) (hconsumed : m.consumed = s.memory.consumed)
    (hpos : m.batchPos = s.memory.batchPos) : Inv c { s with memory := m, thread := t } := by
  have hstart : s.thread ≠ .starting := fun hc => by rw [hc] at hb; exact hb
  -- a published batch is unconsumed, so the destructor is not past its `flush`
  have hsignalled : ¬s.producer.Signalled := fun hc => h.not_synced hb hc.synced
  have hcount := h.counted ⟨hstart, hsignalled⟩
  exact
    { memory := hmem
      starting := fun hc => by
        rw [show t = .starting from hc] at ht
        exact absurd ht id
      counted := fun _ => by
        show s.sendUpto = m.published.length - m.consumed
        rw [hpublished, hconsumed]
        exact hcount
      signalled := fun hc => absurd hc hsignalled
      ended := fun hc => by
        cases t <;> simp_all [Thread.Busy, Thread.Ended]
      busy := fun _ => by
        show m.consumed < m.published.length
        rw [hpublished, hconsumed]
        exact h.busy hb
      flushed := fun hc => hpos.trans (h.flushed hc)
      writing := fun u hc => by
        show m.batchPos < c.batchSz
        rw [hpos]
        exact h.writing u hc
      synced := fun hc => absurd hc (h.not_synced hb)
      threadAsleep := fun hc => by
        rw [show t = .waiting false from hc] at ht
        exact absurd ht id
      spaceAsleep := h.spaceAsleep
      allAsleep := h.allAsleep }

/-- The thread acknowledges a batch and wakes up the producer. -/
theorem Inv.acknowledge (h : Inv c s) (ht : s.thread = .finishing) :
    Inv c
      { memory := { s.memory with consumed := s.memory.consumed + 1 }
        sendUpto := s.sendUpto - 1
        producer := AsyncBatch.notifyProducer s.producer
        thread := .acquiring } := by
  have hb : s.thread.Busy := ht ▸ trivial
  have hnotify := h.notifyProducer
  have hsynced := hnotify.not_synced hb
  have hsignalled : ¬(AsyncBatch.notifyProducer s.producer).Signalled :=
    fun hc => hsynced hc.synced
  have hcount := hnotify.counted ⟨by simp [ht], hsignalled⟩
  have hmem := hnotify.memory
  simp only [ht] at hmem
  exact
    { memory := hmem.acknowledge (h.busy hb)
      starting := fun hc => by cases hc
      -- the counter and the number of unconsumed batches decrease together
      counted := fun _ => by
        show s.sendUpto - 1 = s.memory.published.length - ((s.memory.consumed + 1 : ℕ) : ℤ)
        rw [show s.sendUpto = _ from hcount]
        push_cast
        ring
      signalled := fun hc => absurd hc hsignalled
      ended := fun hc => absurd hc id
      busy := fun hc => absurd hc id
      flushed := hnotify.flushed
      writing := hnotify.writing
      synced := fun hc => absurd hc hsynced
      threadAsleep := fun hc => by cases hc
      -- a producer that was woken up is not asleep, whatever the counter is now
      spaceAsleep := fun call hc => absurd hc (notifyProducer_ne_waitingSpace _ call)
      allAsleep := fun call hc => absurd hc (notifyProducer_ne_waitingAll _ call) }

/-- The end of the thread. -/
theorem Inv.exit (h : Inv c s) (ht : s.thread = .terminating) :
    Inv c { s with thread := .terminated } := by
  apply h.moveThread <;> simp [ht]

/-- `flush` returns from its notification. -/
theorem Inv.returns (h : Inv c s) {call : FlushCall W}
    (hp : s.producer = .notifying call ∨ s.producer = .syncing call ∨
      ∃ awake, s.producer = .waitingAll call awake)
    (hawake : s.thread ≠ .waiting false ∨ ¬s.producer.Notifying)
    (hsynced : call = .destructor → s.memory.consumed = s.memory.published.length) :
    Inv c { s with producer := call.next } := by
  have hpos : s.memory.batchPos = 0 := by
    apply h.flushed
    rcases hp with hp | hp | ⟨awake, hp⟩ <;> exact hp ▸ trivial
  have hpending : s.producer.pending = call.pending := by
    rcases hp with hp | hp | ⟨awake, hp⟩ <;> rw [hp] <;> rfl
  have hconstructing : ¬s.producer.Constructing := by
    rcases hp with hp | hp | ⟨awake, hp⟩ <;> exact hp ▸ id
  have hsignalled : ¬s.producer.Signalled := by
    rcases hp with hp | hp | ⟨awake, hp⟩ <;> exact hp ▸ id
  apply h.move
  case hpending =>
    rw [hpending]
    cases call <;> rfl
  case hconstructing => exact fun hc => absurd hc hconstructing
  case hsignalled =>
    refine ⟨fun hc => ?_, fun hc => absurd hc hsignalled⟩
    cases call <;> exact absurd hc id
  case hflushed => exact fun _ => hpos
  case hwriting =>
    intro u _
    rw [hpos]
    exact c.one_le_batchSz
  -- only the destructor goes on after the synchronisation
  case hsynced =>
    intro hc
    cases call with
    | destructor => exact hsynced rfl
    | user synchronise => exact absurd hc id
    | before u => exact absurd hc id
  -- a sleeping thread has been notified, or there was no notification to make
  case hnotifying =>
    intro ht hn
    rcases hawake with hawake | hawake
    · exact absurd ht hawake
    · exact absurd hn hawake
  case hspace => cases call <;> simp [FlushCall.next]
  case hall => cases call <;> simp [FlushCall.next]

theorem notifyThread_ne (t : Thread) : notifyThread t ≠ .waiting false := by
  cases t <;> simp [notifyThread]

/-- **The step lemma**: each step keeps the invariant. -/
theorem Inv.step [Neg W] [One W] {a : Action W} {s' : State W} (h : Inv c s)
    (hstep : Step c a s s') : Inv c s' := by
  cases hstep with
  | constructorReturn hp hupto =>
    -- the signal of the constructor is 1 until the thread starts
    have hstart : s.thread ≠ .starting := by
      intro ht
      rw [(h.starting ht).1] at hupto
      exact absurd hupto one_ne_zero
    apply h.move <;> simp [hp, hstart]
  | constructorRecheck hp hupto => apply h.move <;> simp [hp]
  | addEdge edge hp => exact h.submit hp _
  | removeEdge edge hp => exact h.submit hp _
  | write hp => exact h.write hp
  | flush synchronise hp => apply h.move <;> simp [hp, FlushCall.pending]
  | flushFull hp hfull => apply h.move <;> simp [hp, hfull]
  | flushSend hp hroom => exact h.send (Or.inl hp) hroom
  | spaceRecheck hp hfull => apply h.move <;> simp [hp, hfull]
  | spaceSend hp hroom => exact h.send (Or.inr hp) hroom
  | notifyReturn hp hsync =>
    -- the notification comes before the return, so the thread is not asleep
    apply h.notifyThread.returns (Or.inl hp) (Or.inl (notifyThread_ne _))
    rintro rfl
    cases hsync
  | notifySync hp hsync =>
    have hpos := h.flushed (hp ▸ trivial)
    apply h.notifyThread.move <;> simp [hp, hpos, notifyThread_ne]
  | syncReturn hp hupto =>
    refine h.returns (Or.inr (Or.inl hp)) (Or.inr (hp ▸ id)) fun _ => ?_
    exact h.consumed_of_sendUpto ⟨h.thread_ne_starting (hp ▸ id), hp ▸ id⟩ hupto
  | syncWait hp hupto =>
    have hpos := h.flushed (hp ▸ trivial)
    apply h.move <;> simp [hp, hpos, hupto]
  | allReturn hp hupto =>
    refine h.returns (Or.inr (Or.inr ⟨_, hp⟩)) (Or.inr (hp ▸ id)) fun _ => ?_
    exact h.consumed_of_sendUpto ⟨h.thread_ne_starting (hp ▸ id), hp ▸ id⟩ hupto
  | allRecheck hp hupto =>
    have hpos := h.flushed (hp ▸ trivial)
    apply h.move <;> simp [hp, hpos, hupto]
  | destructor hp => apply h.move <;> simp [hp, FlushCall.pending]
  | terminate hp => exact h.terminate hp
  | terminateNotify hp =>
    have hpos := h.flushed (hp ▸ trivial)
    have hsynced := h.synced (hp ▸ trivial)
    apply h.notifyThread.move <;> simp [hp, hpos, hsynced, notifyThread_ne]
  | join hp ht =>
    have hpos := h.flushed (hp ▸ trivial)
    have hsynced := h.synced (hp ▸ trivial)
    apply h.move <;> simp [hp, hpos, hsynced]
  | start ht => exact h.start ht
  | startNotify ht => exact h.notifyProducer.startNotify ht
  | acquire ht => exact h.waitJob (Or.inl ht)
  | recheck ht => exact h.waitJob (Or.inr ht)
  | batch ht =>
    have hb : s.thread.Busy := ht ▸ trivial
    have hmem := h.memory
    rw [ht] at hmem
    exact h.work hb trivial (hmem.batch (h.busy hb)) rfl rfl rfl
  | advance ht =>
    have hmem := h.memory
    rw [ht] at hmem
    exact h.work (ht ▸ trivial) trivial hmem.advance rfl rfl rfl
  -- the section of the thread goes on into its next wait
  | acknowledge ht => exact (h.acknowledge ht).waitJob (Or.inl rfl)
  | exit ht => exact h.notifyProducer.exit ht
  | spuriousProducer => exact h.notifyProducer
  | spuriousThread => exact h.notifyThread

/-- **The invariant** holds in every reachable state. -/
theorem reachable_inv [Neg W] [One W] (h : Reachable c s) : Inv c s := by
  obtain ⟨init, hreach⟩ := h
  refine reachable_invariant (inv_initial c init) ?_ hreach
  rintro s s' hs ⟨a, hstep⟩
  exact hs.step hstep

end Control

/-! ## Delivery -/

section Delivery

variable {W : Type} [Neg W] [One W] {c : Config}

/-- **What the ring guarantees**, where the counter is read in the states that satisfy `Reads`. -/
structure Delivery (c : Config) (Reads : State W → Prop) : Prop where
  /-- The batches passed to the interface, one after the other, are a prefix of what was
  submitted. -/
  inOrder : ∀ s, Reachable c s → s.memory.delivered.flatten <+: s.memory.submitted
  /-- No step writes into a slot that is published and not consumed, and the producer is not
  there. -/
  keeps : ∀ a s s', Reachable c s → Step c a s s' → ∀ i ∈ s.memory.unconsumedSlots,
    i ≠ s.memory.batchIndex ∧ s'.memory.batches i = s.memory.batches i ∧
      s'.memory.batchesNumEntries i = s.memory.batchesNumEntries i
  counts : ∀ s, Reachable c s → Reads s → s.sendUpto = s.memory.unconsumedSlots.length
  /-- Everything was delivered when `flush(true)` or the destructor returns. -/
  completes : ∀ a s s', Reachable c s → Step c a s s' →
    a = .flushReturn true ∨ a = .destructorReturn →
    s'.memory.delivered.flatten = s'.memory.submitted

omit [Neg W] [One W] in
theorem memory_waitJob (s : State W) : (waitJob s).memory = s.memory := by
  unfold waitJob
  split_ifs <;> rfl

/-- A step writes into the slot of the producer only. -/
theorem Step.batches_of_ne {a : Action W} {s s' : State W} (h : Step c a s s') {i : ℕ}
    (hi : i ≠ s.memory.batchIndex) :
    s'.memory.batches i = s.memory.batches i ∧
      s'.memory.batchesNumEntries i = s.memory.batchesNumEntries i := by
  -- the producer writes the size of the current batch
  have hsend : ∀ call, (send c s call).memory.batches i = s.memory.batches i ∧
      (send c s call).memory.batchesNumEntries i = s.memory.batchesNumEntries i := by
    intro call
    unfold send
    split_ifs
    · exact ⟨rfl, Function.update_of_ne hi _ _⟩
    · exact ⟨rfl, rfl⟩
  cases h with
  | write hp => exact ⟨Function.update_of_ne hi _ _, rfl⟩
  | flushSend hp hroom => exact hsend _
  | spaceSend hp hroom => exact hsend _
  | acquire ht =>
    rw [memory_waitJob]
    exact ⟨rfl, rfl⟩
  | recheck ht =>
    rw [memory_waitJob]
    exact ⟨rfl, rfl⟩
  | acknowledge ht =>
    rw [memory_waitJob]
    exact ⟨rfl, rfl⟩
  | _ => exact ⟨rfl, rfl⟩

/-- The producer is in the second section of `flush` for a call that synchronises. -/
@[simp] def Producer.Syncs : Producer W → Prop
  | .syncing call | .waitingAll call _ => call.synchronise = true
  | _ => True

theorem Step.syncs {a : Action W} {s s' : State W} (h : Step c a s s') (hs : s.producer.Syncs) :
    s'.producer.Syncs := by
  have hnotify : (notifyProducer s.producer).Syncs := by
    cases hp : s.producer <;> simp_all [notifyProducer]
  -- `flush` returns to a place that is in no synchronisation
  have hnext : ∀ call : FlushCall W, call.next.Syncs := by
    intro call
    cases call <;> trivial
  cases h with
  | addEdge edge hp =>
    unfold submit
    split_ifs <;> trivial
  | removeEdge edge hp =>
    unfold submit
    split_ifs <;> trivial
  | flushSend hp hroom =>
    unfold send
    split_ifs <;> trivial
  | spaceSend hp hroom =>
    unfold send
    split_ifs <;> trivial
  | notifyReturn hp hsync => exact hnext _
  | notifySync hp hsync => exact hsync
  | syncReturn hp hupto => exact hnext _
  | syncWait hp hupto => rwa [hp] at hs
  | allReturn hp hupto => exact hnext _
  | allRecheck hp hupto => rwa [hp] at hs
  | start ht => exact hs
  | startNotify ht => exact hnotify
  | acquire ht =>
    unfold waitJob
    split_ifs <;> exact hs
  | recheck ht =>
    unfold waitJob
    split_ifs <;> exact hs
  | batch ht => exact hs
  | advance ht => exact hs
  | acknowledge ht =>
    unfold waitJob
    split_ifs <;> exact hnotify
  | exit ht => exact hnotify
  | spuriousProducer => exact hnotify
  | spuriousThread => exact hs
  | _ => trivial

theorem reachable_syncs {s : State W} (h : Reachable c s) : s.producer.Syncs := by
  obtain ⟨init, hreach⟩ := h
  refine reachable_invariant (I := fun s => s.producer.Syncs) trivial ?_ hreach
  rintro s s' hs ⟨a, hstep⟩
  exact hstep.syncs hs

omit [Neg W] [One W] in
/-- A call that synchronises has no update to write. -/
theorem FlushCall.pending_of_synchronise {call : FlushCall W} (h : call.synchronise = true) :
    call.pending = [] := by
  cases call with
  | before u => cases h
  | user synchronise => rfl
  | destructor => rfl

/-- Everything was delivered when the second wait of `flush` is over. -/
theorem delivered_of_flush {s : State W} (h : Reachable c s) {call : FlushCall W}
    (hp : s.producer = .syncing call ∨ s.producer = .waitingAll call true)
    (hupto : s.sendUpto = 0) : s.memory.delivered.flatten = s.memory.submitted := by
  have hinv := reachable_inv h
  have hsyncs := reachable_syncs h
  -- no update is pending: `add_edge` does not synchronise
  have hpending : s.producer.pending = [] := by
    rcases hp with hp | hp <;> rw [hp] at hsyncs ⊢ <;> exact FlushCall.pending_of_synchronise hsyncs
  have hconstructing : ¬s.producer.Constructing := by rcases hp with hp | hp <;> exact hp ▸ id
  have hsignalled : ¬s.producer.Signalled := by rcases hp with hp | hp <;> exact hp ▸ id
  have hflushed : s.producer.Flushed := by rcases hp with hp | hp <;> exact hp ▸ trivial
  have hmem := hinv.memory
  rw [hpending] at hmem
  apply hmem.flatten_delivered_eq
  · exact hinv.consumed_of_sendUpto ⟨hinv.thread_ne_starting hconstructing, hsignalled⟩ hupto
  · exact hinv.flushed hflushed

/-- Everything was delivered when the thread of a destroyed ring is joined. -/
theorem delivered_of_join {s : State W} (h : Reachable c s) (hp : s.producer = .joining) :
    s.memory.delivered.flatten = s.memory.submitted := by
  have hinv := reachable_inv h
  have hmem := hinv.memory
  rw [hp] at hmem
  exact hmem.flatten_delivered_eq (hinv.synced (hp ▸ trivial)) (hinv.flushed (hp ▸ trivial))

/-- **Every update is delivered once and in order**, and the counter is the number of published
batches that are not consumed, apart from the signals of the constructor and of the destructor. -/
theorem delivery_counted (c : Config) : Delivery (W := W) c Counted where
  inOrder s hs := (reachable_inv hs).memory.flatten_delivered
  keeps a s s' hs hstep i hi := by
    have hne := (reachable_inv hs).memory.unconsumed_ne hi
    exact ⟨hne, hstep.batches_of_ne hne⟩
  counts s hs hcounted := by
    have hinv := reachable_inv hs
    have hle := hinv.consumed_le
    rw [hinv.counted hcounted, Memory.unconsumedSlots, List.length_map, List.length_drop]
    omega
  completes a s s' hs hstep ha := by
    rcases ha with rfl | rfl
    · cases hstep with
      | syncReturn hp hupto =>
        have hall := delivered_of_flush hs (Or.inl hp) hupto
        exact hall
      | allReturn hp hupto =>
        have hall := delivered_of_flush hs (Or.inr hp) hupto
        exact hall
    · cases hstep with
      | join hp ht =>
        have hall := delivered_of_join hs hp
        exact hall

/-- The ring of the test: three batches of four updates. -/
def sampleConfig : Config := ⟨3, 4, by decide, by decide⟩

/-- In the constructor the counter is one, and nothing is published. -/
theorem not_delivery : ¬Delivery (W := ℚ) sampleConfig fun _ => True := by
  intro h
  have hcount := h.counts (initial fun _ _ => ⟨0, 0, 0⟩) ⟨_, Relation.ReflTransGen.refl⟩ trivial
  exact absurd hcount (by decide)

end Delivery

/-! ## Progress -/

section Progress

variable {W : Type} [Neg W] [One W] {c : Config}

/-- The producer is blocked in one of the waits of `flush`: it is asleep, or the test that it is
about to make fails. -/
def ProducerBlocked (c : Config) (s : State W) : Prop :=
  (∃ call awake, s.producer = .waitingSpace call awake ∧
    (awake = false ∨ (c.batchesSz : ℤ) - 1 ≤ s.sendUpto)) ∨
  ∃ call awake, s.producer = .waitingAll call awake ∧ (awake = false ∨ s.sendUpto ≠ 0)

/-- The thread is blocked in its wait for a job. -/
def ThreadBlocked (s : State W) : Prop :=
  ∃ awake, s.thread = .waiting awake ∧ (awake = false ∨ s.sendUpto = 0)

/-- The two threads wait for each other. -/
def Stuck (c : Config) (s : State W) : Prop := ProducerBlocked c s ∧ ThreadBlocked s

omit [Neg W] [One W] in
/-- A thread that is blocked has nothing to do, while the producer waits in `flush`. -/
theorem Inv.sendUpto_of_blocked {s : State W} (h : Inv c s) (hp : ProducerBlocked c s)
    (ht : ThreadBlocked s) : s.sendUpto = 0 := by
  obtain ⟨awake, ht, rfl | hzero⟩ := ht
  · rcases h.threadAsleep ht with hzero | hnotifying
    · exact hzero
    · obtain ⟨call, awake, hp, -⟩ | ⟨call, awake, hp, -⟩ := hp
      · simp [hp] at hnotifying
      · simp [hp] at hnotifying
  · exact hzero

omit [Neg W] [One W] in
/-- A producer that is blocked has something to wait for. -/
theorem Inv.of_producerBlocked {s : State W} (h : Inv c s) (hp : ProducerBlocked c s) :
    (c.batchesSz : ℤ) - 1 ≤ s.sendUpto ∨ s.sendUpto ≠ 0 := by
  obtain ⟨call, awake, hp, rfl | hfull⟩ | ⟨call, awake, hp, rfl | hbusy⟩ := hp
  · exact Or.inl (h.spaceAsleep call hp)
  · exact Or.inl hfull
  · exact Or.inr (h.allAsleep call hp)
  · exact Or.inr hbusy

/-- A ring of one batch is full when it is empty: the destructor blocks in `flush`. -/
theorem exists_stuck (hn : c.batchesSz = 1) : ∃ s : State W, Reachable c s ∧ Stuck c s := by
  have hstart : Relation.ReflTransGen (fun s s' : State W => ∃ a, Step c a s s')
      (initial fun _ _ => ⟨0, 0, 1⟩) _ := Relation.ReflTransGen.single ⟨_, Step.start rfl⟩
  have hnotified := hstart.tail ⟨_, Step.startNotify rfl⟩
  have hready := hnotified.tail ⟨_, Step.constructorReturn rfl rfl⟩
  have hwaiting := hready.tail ⟨_, Step.acquire rfl⟩
  have hdestructor := hwaiting.tail ⟨_, Step.destructor rfl⟩
  have hfull := hdestructor.tail ⟨_, Step.flushFull rfl (by
    rw [hn]
    exact le_rfl)⟩
  exact ⟨_, ⟨_, hfull⟩, Or.inl ⟨_, _, rfl, Or.inl rfl⟩, _, rfl, Or.inl rfl⟩

/-- **The two threads do not wait for each other** if and only if there are at least two batches. -/
theorem not_stuck_iff (c : Config) :
    (∀ s : State W, Reachable c s → ¬Stuck c s) ↔ 2 ≤ c.batchesSz := by
  constructor
  · intro h
    by_contra hlt
    have hpos := c.one_le_batchesSz
    -- a ring of one batch has no room from the start
    obtain ⟨s, hs, hstuck⟩ := exists_stuck (W := W) (c := c) (by omega)
    exact h s hs hstuck
  · rintro hn s hs ⟨hp, ht⟩
    have hinv := reachable_inv hs
    -- both asleep: the thread waits for a job, so the counter is zero, and the producer for room
    have hzero := hinv.sendUpto_of_blocked hp ht
    rcases hinv.of_producerBlocked hp with hfull | hbusy
    · omega
    · exact hbusy hzero

/-- One batch of one update. -/
def oneBatch : Config := ⟨1, 1, by decide, by decide⟩

/-- With one batch, the destructor of a ring that was never used blocks for ever. -/
theorem stuck_oneBatch : ¬∀ (c : Config) (s : State ℚ), Reachable c s → ¬Stuck c s := by
  intro h
  obtain ⟨s, hs, hstuck⟩ := exists_stuck (W := ℚ) (c := oneBatch) rfl
  exact h oneBatch s hs hstuck

end Progress

end AsyncBatch

end GfeDriver
