import GfeDriver.Foundation.Runs
import Mathlib.Data.Multiset.AddSub
import Mathlib.Tactic

/-!
# The fair read/write lock

`FairSharedMutex` keeps a counter, `m_state`, and a queue of waiting threads, both under a spin
lock. A thread that cannot acquire the mutex appends an item with a fresh promise to the queue,
releases the spin lock and waits for the promise. A thread that frees the mutex pops the first
writer of the queue, or the readers in front of it, and sets their promises. A thread woken up is
not given the mutex: it takes the spin lock again, tests the counter, and may go back to the end of
the queue.

The sections under the spin lock are atomic steps, and the threads are any type. A thread that does
not wait may call any operation, but only a holder releases the mutex. The holders are two
multisets: a thread is in `shared` once for each time it acquired the mutex as a reader and did not
release it. The counter does not overflow with fewer than `2 ^ 31` readers, and is an integer here.
The queue is a list, as a circular array behaves.

## Main definitions

* `Item`, `State`, `Step`: the mutex and its threads
* `Safe T`: exclusion, the meaning of the counter, one signal for each wait and no lost wake-up

## Main results

* `wakeNext_spec`: what `wake_next` pops and signals
* `reachable_inv`: the queue, the counter and the places of the threads in every reachable state
* `safe`: the mutex is safe, for every number of threads and every interleaving
-/

namespace GfeDriver

namespace FairSharedMutex

open Foundation

/-! ## The program -/

/-- The type of an item: `-1` for a writer, `+1` for a reader. -/
inductive Role
  | writer
  | reader
  deriving DecidableEq

/-- `Item`: the type of a waiting thread and its promise. -/
structure Item where
  type : Role
  producer : ℕ
  deriving DecidableEq

/-- Where a thread is: outside of `wait`, or in `wait` with its promise. -/
inductive Place
  | running
  | waiting (role : Role) (promise : ℕ)
  deriving DecidableEq

/-- The mutex and its threads, with the holders of the mutex, the number of times each promise was
set, and the next promise. -/
structure State (T : Type) where
  state : ℤ
  waitlist : List Item
  place : T → Place
  exclusive : Multiset T
  shared : Multiset T
  signals : ℕ → ℕ
  fresh : ℕ

/-- `promise::set_value`. -/
def setValue (signals : ℕ → ℕ) (promise : ℕ) : ℕ → ℕ :=
  Function.update signals promise (signals promise + 1)

/-- The loop of `wake_next`: the readers in front of the queue. -/
def wakeReaders : List Item → (ℕ → ℕ) → List Item × (ℕ → ℕ)
  | ⟨.reader, promise⟩ :: rest, signals => wakeReaders rest (setValue signals promise)
  | waitlist, signals => (waitlist, signals)

/-- `wake_next`. -/
def wakeNext : List Item → (ℕ → ℕ) → List Item × (ℕ → ℕ)
  | [], signals => ([], signals)
  | ⟨.writer, promise⟩ :: rest, signals => (rest, setValue signals promise)
  | ⟨.reader, promise⟩ :: rest, signals => wakeReaders rest (setValue signals promise)

section Program

variable {T : Type} [DecidableEq T]

/-- `wait`, up to the wait for the promise. -/
def wait (s : State T) (t : T) (role : Role) : State T :=
  { s with
    waitlist := s.waitlist ++ [⟨role, s.fresh⟩]
    place := Function.update s.place t (.waiting role s.fresh)
    fresh := s.fresh + 1 }

/-- `wake_next`, on the state. -/
def wake (s : State T) : State T :=
  { s with
    waitlist := (wakeNext s.waitlist s.signals).1
    signals := (wakeNext s.waitlist s.signals).2 }

/-- The mutex is acquired exclusively. -/
def acquire (s : State T) (t : T) : State T :=
  { s with
    state := -1
    place := Function.update s.place t .running
    exclusive := t ::ₘ s.exclusive }

/-- The mutex is acquired as a reader. -/
def acquireShared (s : State T) (t : T) : State T :=
  { s with
    state := s.state + 1
    place := Function.update s.place t .running
    shared := t ::ₘ s.shared }

/-- The loop of `lock`, from the test of the counter to the next wait. -/
def lockLoop (s : State T) (t : T) : State T :=
  if s.state ≠ 0 then wait s t .writer else acquire s t

/-- The test of `lock_shared` and `try_lock_shared`. -/
def admitsReader (s : State T) : Bool := s.state = 0 || (0 < s.state && s.waitlist.isEmpty)

/-- `lock_shared`, up to its first wait. -/
def lockShared (s : State T) (t : T) : State T :=
  if admitsReader s then acquireShared s t else wait s t .reader

/-- The loop of `lock_shared`, from the end of a wait on. -/
def lockSharedLoop (s : State T) (t : T) : State T :=
  if s.state < 0 then wait s t .reader else acquireShared s t

def tryLock (s : State T) (t : T) : State T × Bool :=
  if s.state = 0 then (acquire s t, true) else (s, false)

def tryLockShared (s : State T) (t : T) : State T × Bool :=
  if admitsReader s then (acquireShared s t, true) else (s, false)

def unlock (s : State T) (t : T) : State T :=
  wake { s with state := 0, exclusive := s.exclusive.erase t }

def unlockShared (s : State T) (t : T) : State T :=
  let released := { s with state := s.state - 1, shared := s.shared.erase t }
  if released.state = 0 then wake released else released

/-- **The steps** of the threads. -/
inductive Step : State T → State T → Prop
  | lock {s : State T} {t : T} (ht : s.place t = .running) : Step s (lockLoop s t)
  /-- A writer is back from `wait`: its promise is set. -/
  | lockResume {s : State T} {t : T} {promise : ℕ} (ht : s.place t = .waiting .writer promise)
      (hset : s.signals promise ≠ 0) : Step s (lockLoop s t)
  | lockShared {s : State T} {t : T} (ht : s.place t = .running) : Step s (lockShared s t)
  /-- A reader is back from `wait`. -/
  | lockSharedResume {s : State T} {t : T} {promise : ℕ}
      (ht : s.place t = .waiting .reader promise) (hset : s.signals promise ≠ 0) :
      Step s (lockSharedLoop s t)
  | tryLock {s : State T} {t : T} (ht : s.place t = .running) : Step s (tryLock s t).1
  | tryLockShared {s : State T} {t : T} (ht : s.place t = .running) : Step s (tryLockShared s t).1
  | unlock {s : State T} {t : T} (ht : s.place t = .running) (hholds : t ∈ s.exclusive) :
      Step s (unlock s t)
  | unlockShared {s : State T} {t : T} (ht : s.place t = .running) (hholds : t ∈ s.shared) :
      Step s (unlockShared s t)

/-- A mutex after its constructor. -/
def initial : State T := ⟨0, [], fun _ => .running, 0, 0, fun _ => 0, 0⟩

/-- The states of the runs. -/
def Reachable (s : State T) : Prop := Relation.ReflTransGen Step initial s

/-- The promise of the thread is not set. -/
def Waits (s : State T) (t : T) (promise : ℕ) : Prop :=
  (∃ role, s.place t = .waiting role promise) ∧ s.signals promise = 0

/-- The promise of the thread is set, and the thread has not yet retaken the spin lock. -/
def InFlight (s : State T) (t : T) : Prop :=
  ∃ role promise, s.place t = .waiting role promise ∧ s.signals promise ≠ 0

end Program

/-- **The safety of the mutex**, in every reachable state. -/
structure Safe (T : Type) [DecidableEq T] : Prop where
  /-- A thread that holds the mutex exclusively is the only one that holds it. -/
  exclusion : ∀ s : State T, Reachable s → ∀ t ∈ s.exclusive, s.exclusive = {t} ∧ s.shared = 0
  held : ∀ s : State T, Reachable s → s.exclusive ≠ 0 → s.state = -1
  counted : ∀ s : State T, Reachable s → s.exclusive = 0 → s.state = s.shared.card
  /-- A thread that waits has one item in the queue. -/
  queued : ∀ s : State T, Reachable s → ∀ t promise, Waits s t promise →
    (s.waitlist.filter fun item => item.producer = promise).length = 1
  /-- A promise is set once at most, and each wait has its own promise. -/
  signalled : ∀ s : State T, Reachable s → ∀ promise, s.signals promise ≤ 1
  ownPromise : ∀ s : State T, Reachable s → ∀ t u role role' promise,
    s.place t = .waiting role promise → s.place u = .waiting role' promise → t = u
  /-- Somebody is responsible for a queue that is not empty. -/
  responsible : ∀ s : State T, Reachable s → s.waitlist ≠ [] →
    s.state ≠ 0 ∨ ∃ t, InFlight s t

/-! ## The queue -/

section Queue

variable {T : Type} [DecidableEq T]

/-- How often a promise is among the items. -/
def promises (items : List Item) (promise : ℕ) : ℕ := (items.map Item.producer).count promise

/-- One more promise is set. -/
theorem setValue_add (signals : ℕ → ℕ) (role : Role) (promise : ℕ) (woken : List Item) :
    (fun q => setValue signals promise q + promises woken q) =
      fun q => signals q + promises (⟨role, promise⟩ :: woken) q := by
  funext q
  by_cases hq : q = promise
  · subst hq
    simp only [setValue, promises, Function.update_self, List.map_cons, List.count_cons_self]
    omega
  · simp [setValue, promises, Function.update_of_ne hq, Ne.symm hq]

theorem wakeReaders_spec (waitlist : List Item) (signals : ℕ → ℕ) :
    ∃ woken, waitlist = woken ++ (wakeReaders waitlist signals).1 ∧
      (wakeReaders waitlist signals).2 = fun q => signals q + promises woken q := by
  induction waitlist generalizing signals with
  | nil => exact ⟨[], rfl, rfl⟩
  | cons item rest ih =>
    obtain ⟨role, promise⟩ := item
    cases role with
    -- the readers in front of the first writer are woken up, and it is left in the queue
    | writer => exact ⟨[], rfl, rfl⟩
    | reader =>
      obtain ⟨woken, hsplit, hsignals⟩ := ih (setValue signals promise)
      refine ⟨⟨.reader, promise⟩ :: woken, congrArg _ hsplit, ?_⟩
      show (wakeReaders rest (setValue signals promise)).2 = _
      rw [hsignals]
      exact setValue_add signals .reader promise woken

/-- **`wake_next`** pops a part of the queue, not empty unless the queue is, and sets the promises
in it. -/
theorem wakeNext_spec (waitlist : List Item) (signals : ℕ → ℕ) :
    ∃ woken, waitlist = woken ++ (wakeNext waitlist signals).1 ∧
      (waitlist ≠ [] → woken ≠ []) ∧
      (wakeNext waitlist signals).2 = fun q => signals q + promises woken q := by
  cases waitlist with
  | nil => exact ⟨[], rfl, fun h => absurd rfl h, rfl⟩
  | cons item rest =>
    obtain ⟨role, promise⟩ := item
    cases role with
    | writer =>
      refine ⟨[⟨.writer, promise⟩], rfl, fun _ => List.cons_ne_nil _ _, ?_⟩
      exact setValue_add signals .writer promise []
    | reader =>
      obtain ⟨woken, hsplit, hsignals⟩ := wakeReaders_spec rest (setValue signals promise)
      refine ⟨⟨.reader, promise⟩ :: woken, congrArg _ hsplit, fun _ => List.cons_ne_nil _ _, ?_⟩
      show (wakeReaders rest (setValue signals promise)).2 = _
      rw [hsignals]
      exact setValue_add signals .reader promise woken

theorem promises_eq_zero {items : List Item} {promise : ℕ}
    (h : promise ∉ items.map Item.producer) : promises items promise = 0 :=
  List.count_eq_zero_of_not_mem h

theorem promises_pos {items : List Item} {item : Item} (h : item ∈ items) :
    0 < promises items item.producer :=
  List.count_pos_iff.mpr (List.mem_map_of_mem h)

/-- **The queue**: its items are those of the threads that wait for a promise which is not set. -/
structure Queue (waitlist : List Item) (place : T → Place) (signals : ℕ → ℕ) (fresh : ℕ) :
    Prop where
  nodup : (waitlist.map Item.producer).Nodup
  owner : ∀ item ∈ waitlist, ∃ t, place t = .waiting item.type item.producer
  unset : ∀ item ∈ waitlist, signals item.producer = 0
  queued : ∀ t role promise, place t = .waiting role promise → signals promise = 0 →
    ⟨role, promise⟩ ∈ waitlist
  own : ∀ t u role role' promise, place t = .waiting role promise →
    place u = .waiting role' promise → t = u
  once : ∀ promise, signals promise ≤ 1
  unused : ∀ promise, fresh ≤ promise → signals promise = 0
  used : ∀ t role promise, place t = .waiting role promise → promise < fresh

namespace Queue

variable {waitlist : List Item} {place : T → Place} {signals : ℕ → ℕ} {fresh : ℕ}

omit [DecidableEq T] in
theorem producer_lt (h : Queue waitlist place signals fresh) {item : Item}
    (hitem : item ∈ waitlist) : item.producer < fresh := by
  obtain ⟨t, ht⟩ := h.owner item hitem
  exact h.used t _ _ ht

/-- A thread whose promise is set, or that does not wait, leaves `wait`. -/
theorem leave (h : Queue waitlist place signals fresh) {t : T}
    (ht : ∀ role promise, place t = .waiting role promise → signals promise ≠ 0) :
    Queue waitlist (Function.update place t .running) signals fresh := by
  -- the other threads wait as before
  have hne : ∀ u role promise, Function.update place t .running u = .waiting role promise →
      place u = .waiting role promise := by
    intro u role promise hu
    by_cases hut : u = t
    · subst hut
      simp at hu
    · rwa [Function.update_of_ne hut] at hu
  refine
    { nodup := h.nodup
      owner := fun item hitem => ?_
      unset := h.unset
      queued := fun u role promise hu => h.queued u role promise (hne u role promise hu)
      own := fun u v role role' promise hu hv =>
        h.own u v role role' promise (hne u role promise hu) (hne v role' promise hv)
      once := h.once
      unused := h.unused
      used := fun u role promise hu => h.used u role promise (hne u role promise hu) }
  obtain ⟨u, hu⟩ := h.owner item hitem
  refine ⟨u, ?_⟩
  -- an item of the queue is not set, so its owner is not the thread that leaves
  have hut : u ≠ t := by
    rintro rfl
    exact ht _ _ hu (h.unset item hitem)
  rwa [Function.update_of_ne hut]

/-- A thread whose promise is set, or that does not wait, goes to the end of the queue. -/
theorem wait (h : Queue waitlist place signals fresh) {t : T} (role : Role)
    (ht : ∀ role promise, place t = .waiting role promise → signals promise ≠ 0) :
    Queue (waitlist ++ [⟨role, fresh⟩]) (Function.update place t (.waiting role fresh)) signals
      (fresh + 1) := by
  have hfresh : signals fresh = 0 := h.unused fresh le_rfl
  -- a thread waits for the new promise, or as before
  have hcases : ∀ u role' promise,
      Function.update place t (.waiting role fresh) u = .waiting role' promise →
      u = t ∧ role' = role ∧ promise = fresh ∨ u ≠ t ∧ place u = .waiting role' promise := by
    intro u role' promise hu
    by_cases hut : u = t
    · subst hut
      rw [Function.update_self, Place.waiting.injEq] at hu
      exact Or.inl ⟨rfl, hu.1.symm, hu.2.symm⟩
    · rw [Function.update_of_ne hut] at hu
      exact Or.inr ⟨hut, hu⟩
  constructor
  case nodup =>
    rw [List.map_append, List.map_singleton]
    refine List.Nodup.append h.nodup (List.nodup_singleton _) ?_
    rw [List.disjoint_singleton]
    intro hmem
    obtain ⟨item, hitem, heq⟩ := List.mem_map.mp hmem
    exact absurd heq (h.producer_lt hitem).ne
  case owner =>
    intro item hitem
    rcases List.mem_append.mp hitem with hold | hnew
    · obtain ⟨u, hu⟩ := h.owner item hold
      have hut : u ≠ t := by
        rintro rfl
        exact ht _ _ hu (h.unset item hold)
      exact ⟨u, by rwa [Function.update_of_ne hut]⟩
    · obtain rfl := List.mem_singleton.mp hnew
      exact ⟨t, Function.update_self _ _ _⟩
  case unset =>
    intro item hitem
    rcases List.mem_append.mp hitem with hold | hnew
    · exact h.unset item hold
    · obtain rfl := List.mem_singleton.mp hnew
      exact hfresh
  case queued =>
    intro u role' promise hu hunset
    rcases hcases u role' promise hu with ⟨-, rfl, rfl⟩ | ⟨-, hu⟩
    · exact List.mem_append_right _ (List.mem_singleton_self _)
    · exact List.mem_append_left _ (h.queued u role' promise hu hunset)
  case own =>
    intro u v role₁ role₂ promise hu hv
    rcases hcases u role₁ promise hu with ⟨hut, -, hp⟩ | ⟨-, hu'⟩
    · rcases hcases v role₂ promise hv with ⟨hvt, -, -⟩ | ⟨-, hv'⟩
      · exact hut.trans hvt.symm
      · exact absurd hp (h.used v role₂ promise hv').ne
    · rcases hcases v role₂ promise hv with ⟨-, -, hp⟩ | ⟨-, hv'⟩
      · exact absurd hp (h.used u role₁ promise hu').ne
      · exact h.own u v role₁ role₂ promise hu' hv'
  case once => exact h.once
  case unused => exact fun promise hle => h.unused promise ((Nat.le_succ fresh).trans hle)
  case used =>
    intro u role' promise hu
    rcases hcases u role' promise hu with ⟨-, -, rfl⟩ | ⟨-, hu⟩
    · exact Nat.lt_succ_self _
    · exact (h.used u role' promise hu).trans (Nat.lt_succ_self _)

omit [DecidableEq T] in
/-- The items popped from a queue get their first signal. -/
theorem pop {woken rest : List Item} (h : Queue (woken ++ rest) place signals fresh) :
    Queue rest place (fun promise => signals promise + promises woken promise) fresh := by
  have hnodup := h.nodup
  rw [List.map_append, List.nodup_append'] at hnodup
  obtain ⟨hwoken, hrest, hdisjoint⟩ := hnodup
  constructor
  case nodup => exact hrest
  case owner => exact fun item hitem => h.owner item (List.mem_append_right _ hitem)
  -- promises in the queue differ, so those that remain are not among the ones that are set
  case unset =>
    intro item hitem
    have hnot : item.producer ∉ woken.map Item.producer :=
      fun hmem => hdisjoint hmem (List.mem_map_of_mem hitem)
    rw [h.unset item (List.mem_append_right _ hitem), promises_eq_zero hnot]
  -- a promise that is still not set was not popped
  case queued =>
    intro t role promise ht hunset
    obtain ⟨hsignals, hpromises⟩ := Nat.add_eq_zero_iff.mp hunset
    rcases List.mem_append.mp (h.queued t role promise ht hsignals) with hmem | hmem
    · exact absurd hpromises (promises_pos hmem).ne'
    · exact hmem
  case own => exact h.own
  -- a promise that is set now was in the queue, and so it was not set before
  case once =>
    intro promise
    by_cases hmem : promise ∈ woken.map Item.producer
    · obtain ⟨item, hitem, rfl⟩ := List.mem_map.mp hmem
      show signals item.producer + promises woken item.producer ≤ 1
      rw [h.unset item (List.mem_append_left _ hitem), Nat.zero_add]
      exact List.nodup_iff_count_le_one.mp hwoken _
    · show signals promise + promises woken promise ≤ 1
      rw [promises_eq_zero hmem]
      exact h.once promise
  -- only promises in use are in the queue
  case unused =>
    intro promise hle
    have hnot : promise ∉ woken.map Item.producer := by
      intro hmem
      obtain ⟨item, hitem, rfl⟩ := List.mem_map.mp hmem
      exact absurd (h.producer_lt (List.mem_append_left _ hitem)) (Nat.not_lt.mpr hle)
    show signals promise + promises woken promise = 0
    rw [h.unused promise hle, promises_eq_zero hnot]
  case used => exact h.used

end Queue

end Queue

/-! ## The counter -/

section Counter

variable {T : Type} [DecidableEq T]

/-- **The counter** and the holders: one writer, or some readers. -/
def Holds (state : ℤ) (exclusive shared : Multiset T) : Prop :=
  (exclusive = 0 ∧ state = shared.card) ∨ ((∃ t, exclusive = {t}) ∧ shared = 0 ∧ state = -1)

variable {state : ℤ} {exclusive shared : Multiset T}

omit [DecidableEq T] in
theorem Holds.acquire (h : Holds state exclusive shared) (hfree : state = 0) (t : T) :
    Holds (-1) (t ::ₘ exclusive) shared := by
  rcases h with ⟨rfl, hcard⟩ | ⟨-, -, hheld⟩
  · have hshared : shared.card = 0 := by omega
    exact Or.inr ⟨⟨t, rfl⟩, Multiset.card_eq_zero.mp hshared, rfl⟩
  · omega

omit [DecidableEq T] in
theorem Holds.acquireShared (h : Holds state exclusive shared) (hfree : 0 ≤ state) (t : T) :
    Holds (state + 1) exclusive (t ::ₘ shared) := by
  rcases h with ⟨hexclusive, hcard⟩ | ⟨-, -, hheld⟩
  · refine Or.inl ⟨hexclusive, ?_⟩
    rw [Multiset.card_cons, hcard]
    push_cast
    rfl
  · omega

theorem Holds.unlock (h : Holds state exclusive shared) {t : T} (ht : t ∈ exclusive) :
    Holds 0 (exclusive.erase t) shared := by
  rcases h with ⟨rfl, -⟩ | ⟨⟨u, rfl⟩, rfl, -⟩
  · exact absurd ht (Multiset.notMem_zero t)
  · obtain rfl := Multiset.mem_singleton.mp ht
    exact Or.inl ⟨by simp, rfl⟩

theorem Holds.unlockShared (h : Holds state exclusive shared) {t : T} (ht : t ∈ shared) :
    Holds (state - 1) exclusive (shared.erase t) := by
  rcases h with ⟨hexclusive, hcard⟩ | ⟨-, rfl, -⟩
  · refine Or.inl ⟨hexclusive, ?_⟩
    have hpos : 0 < shared.card := Multiset.card_pos_iff_exists_mem.mpr ⟨t, ht⟩
    rw [Multiset.card_erase_of_mem ht, hcard, Nat.pred_eq_sub_one]
    omega
  · exact absurd ht (Multiset.notMem_zero t)

end Counter

/-! ## The mutex -/

section Mutex

variable {T : Type} [DecidableEq T] {s : State T} {t : T}

/-- **The invariant.** -/
structure Inv (s : State T) : Prop where
  queue : Queue s.waitlist s.place s.signals s.fresh
  holds : Holds s.state s.exclusive s.shared
  responsible : s.waitlist ≠ [] → s.state ≠ 0 ∨ ∃ t, InFlight s t

/-- The thread is not waiting for a promise that is not set. -/
def Free (s : State T) (t : T) : Prop :=
  ∀ role promise, s.place t = .waiting role promise → s.signals promise ≠ 0

omit [DecidableEq T] in
theorem inv_initial : Inv (initial : State T) where
  queue :=
    { nodup := List.nodup_nil
      owner := fun item hitem => by simp [initial] at hitem
      unset := fun item hitem => by simp [initial] at hitem
      queued := fun t role promise ht => by simp [initial] at ht
      own := fun t u role role' promise ht => by simp [initial] at ht
      once := fun _ => Nat.zero_le _
      unused := fun _ _ => rfl
      used := fun t role promise ht => by simp [initial] at ht }
  holds := Or.inl ⟨rfl, rfl⟩
  responsible h := absurd rfl h

theorem Inv.wait (h : Inv s) (ht : Free s t) (role : Role) (hstate : s.state ≠ 0) :
    Inv (wait s t role) where
  queue := h.queue.wait role ht
  holds := h.holds
  responsible _ := Or.inl hstate

theorem Inv.acquire (h : Inv s) (ht : Free s t) (hstate : s.state = 0) : Inv (acquire s t) where
  queue := h.queue.leave ht
  holds := h.holds.acquire hstate t
  responsible _ := Or.inl (by simp [FairSharedMutex.acquire])

theorem Inv.acquireShared (h : Inv s) (ht : Free s t) (hstate : 0 ≤ s.state) :
    Inv (acquireShared s t) where
  queue := h.queue.leave ht
  holds := h.holds.acquireShared hstate t
  responsible _ := by
    left
    show s.state + 1 ≠ 0
    omega

omit [DecidableEq T] in
/-- A queue that is not empty after `wake_next` was not empty before, so a thread is in flight. -/
theorem Inv.wake (hqueue : Queue s.waitlist s.place s.signals s.fresh)
    (hholds : Holds s.state s.exclusive s.shared) : Inv (wake s) := by
  obtain ⟨woken, hsplit, hwoken, hsignals⟩ := wakeNext_spec s.waitlist s.signals
  have hpop : Queue (wakeNext s.waitlist s.signals).1 s.place
      (fun promise => s.signals promise + promises woken promise) s.fresh := by
    apply Queue.pop
    rw [← hsplit]
    exact hqueue
  rw [← hsignals] at hpop
  -- the owner of a popped item is on its way, and so it is responsible for the rest
  refine ⟨hpop, hholds, fun hne => Or.inr ?_⟩
  have hne : s.waitlist ≠ [] := by
    rw [hsplit]
    exact fun hnil => hne (List.append_eq_nil_iff.mp hnil).2
  obtain ⟨item, hitem⟩ := List.exists_mem_of_ne_nil woken (hwoken hne)
  obtain ⟨t, ht⟩ := hqueue.owner item (hsplit ▸ List.mem_append_left _ hitem)
  refine ⟨t, item.type, item.producer, ht, ?_⟩
  show (wakeNext s.waitlist s.signals).2 item.producer ≠ 0
  rw [hsignals]
  have hpos := promises_pos hitem
  show s.signals item.producer + promises woken item.producer ≠ 0
  omega

theorem Inv.lockLoop (h : Inv s) (ht : Free s t) : Inv (lockLoop s t) := by
  unfold FairSharedMutex.lockLoop
  split_ifs with hstate
  · exact h.wait ht _ hstate
  · exact h.acquire ht (not_not.mp hstate)

omit [DecidableEq T] in
theorem admitsReader_iff :
    admitsReader s = true ↔ s.state = 0 ∨ 0 < s.state ∧ s.waitlist = [] := by
  simp [admitsReader]

omit [DecidableEq T] in
/-- A free mutex admits a reader. -/
theorem state_ne_zero_of_not_admitsReader (h : ¬admitsReader s = true) : s.state ≠ 0 :=
  fun hstate => h (admitsReader_iff.mpr (Or.inl hstate))

omit [DecidableEq T] in
theorem state_nonneg_of_admitsReader (h : admitsReader s = true) : 0 ≤ s.state := by
  rcases admitsReader_iff.mp h with hstate | ⟨hstate, -⟩
  · exact hstate.ge
  · exact hstate.le

theorem Inv.lockShared (h : Inv s) (ht : Free s t) : Inv (lockShared s t) := by
  unfold FairSharedMutex.lockShared
  split_ifs with hadmits
  · exact h.acquireShared ht (state_nonneg_of_admitsReader hadmits)
  · exact h.wait ht _ (state_ne_zero_of_not_admitsReader hadmits)

theorem Inv.lockSharedLoop (h : Inv s) (ht : Free s t) : Inv (lockSharedLoop s t) := by
  unfold FairSharedMutex.lockSharedLoop
  split_ifs with hstate
  · exact h.wait ht _ hstate.ne
  · exact h.acquireShared ht (not_lt.mp hstate)

theorem Inv.tryLock (h : Inv s) (ht : Free s t) : Inv (tryLock s t).1 := by
  unfold FairSharedMutex.tryLock
  split_ifs with hstate
  · exact h.acquire ht hstate
  · exact h

theorem Inv.tryLockShared (h : Inv s) (ht : Free s t) : Inv (tryLockShared s t).1 := by
  unfold FairSharedMutex.tryLockShared
  split_ifs with hadmits
  · exact h.acquireShared ht (state_nonneg_of_admitsReader hadmits)
  · exact h

theorem Inv.unlock (h : Inv s) (ht : t ∈ s.exclusive) : Inv (unlock s t) :=
  Inv.wake h.queue (h.holds.unlock ht)

theorem Inv.unlockShared (h : Inv s) (ht : t ∈ s.shared) : Inv (unlockShared s t) := by
  have hholds := h.holds.unlockShared ht
  unfold FairSharedMutex.unlockShared
  dsimp only
  split_ifs with hstate
  · exact Inv.wake h.queue hholds
  · exact ⟨h.queue, hholds, fun _ => Or.inl hstate⟩

omit [DecidableEq T] in
theorem free_of_running (ht : s.place t = .running) : Free s t := by
  intro role promise hc
  rw [ht] at hc
  cases hc

omit [DecidableEq T] in
theorem free_of_set {role : Role} {promise : ℕ} (ht : s.place t = .waiting role promise)
    (hset : s.signals promise ≠ 0) : Free s t := by
  intro role' promise' hc
  rw [ht] at hc
  cases hc
  exact hset

/-- **The step lemma**: each step keeps the invariant. -/
theorem Inv.step {s' : State T} (h : Inv s) (hstep : Step s s') : Inv s' := by
  cases hstep with
  | lock ht => exact h.lockLoop (free_of_running ht)
  | lockResume ht hset => exact h.lockLoop (free_of_set ht hset)
  | lockShared ht => exact h.lockShared (free_of_running ht)
  | lockSharedResume ht hset => exact h.lockSharedLoop (free_of_set ht hset)
  | tryLock ht => exact h.tryLock (free_of_running ht)
  | tryLockShared ht => exact h.tryLockShared (free_of_running ht)
  | unlock ht hholds => exact h.unlock hholds
  | unlockShared ht hholds => exact h.unlockShared hholds

/-- **The invariant** holds in every reachable state. -/
theorem reachable_inv (h : Reachable s) : Inv s :=
  reachable_invariant inv_initial (fun _ _ hs hstep => hs.step hstep) h

/-- **The mutex is safe**, for any threads and every interleaving. -/
theorem safe (T : Type) [DecidableEq T] : Safe T where
  exclusion s hs t ht := by
    rcases (reachable_inv hs).holds with ⟨hfree, -⟩ | ⟨⟨u, hu⟩, hshared, -⟩
    · rw [hfree] at ht
      exact absurd ht (Multiset.notMem_zero t)
    · rw [hu] at ht ⊢
      exact ⟨by rw [Multiset.mem_singleton.mp ht], hshared⟩
  held s hs hne := by
    rcases (reachable_inv hs).holds with ⟨hfree, -⟩ | ⟨-, -, hstate⟩
    · exact absurd hfree hne
    · exact hstate
  counted s hs hfree := by
    rcases (reachable_inv hs).holds with ⟨-, hcard⟩ | ⟨⟨u, hu⟩, -, -⟩
    · exact hcard
    · rw [hfree] at hu
      exact absurd hu.symm (Multiset.singleton_ne_zero u)
  queued s hs t promise hwaits := by
    obtain ⟨⟨role, ht⟩, hunset⟩ := hwaits
    have hqueue := (reachable_inv hs).queue
    have hmem := List.mem_map_of_mem (f := Item.producer) (hqueue.queued t role promise ht hunset)
    -- no promise is twice in the queue
    have hone := List.count_eq_one_of_mem hqueue.nodup hmem
    rw [List.count, List.countP_map, List.countP_eq_length_filter] at hone
    simpa [Function.comp_def, beq_eq_decide] using hone
  signalled s hs promise := (reachable_inv hs).queue.once promise
  ownPromise s hs t u role role' promise := (reachable_inv hs).queue.own t u role role' promise
  responsible s hs := (reachable_inv hs).responsible

end Mutex

end FairSharedMutex

end GfeDriver
