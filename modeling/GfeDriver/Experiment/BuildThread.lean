import GfeDriver.Foundation.Runs
import Mathlib.Tactic
import Mathlib.Data.Prod.Lex

/-!
# The build service

`BuildThread` invokes `build` of the library from a background thread, once for each period, until
one of its users calls `stop`. `m_terminate` is at once the mark that the service is not started yet
and the request to end it. The first call of `stop` sets it, notifies, joins the thread and notifies
again. A later call waits until the thread is no longer joinable.

The sections under the mutex are atomic steps, with one exception: a later call of `stop` tests
`joinable`, which `join` changes without the mutex, before it sleeps. It keeps the mutex between the
two, and the notification that follows the join does not take it. A wait with a deadline may end at
any time.

## Main definitions

* `State`, `Step`: the constructor, the background thread and the calls of `stop`
* `AnyStep`, `SequentialStep`: the steps of every run, and of a run whose calls do not overlap
* `Inv`: the invariant

## Main results

* `AnyStep.inv`: each step keeps the invariant
* `served`: what a call that returned promises
* `endsIn_returned`: once the service is asked to stop, calls that do not overlap return
* `endsIn_returned_or_asleep`, `exists_asleep`: a call that overlaps may sleep for ever
-/

namespace GfeDriver

namespace BuildThread

open Foundation

/-! ## The program -/

/-- Where the constructor is: in its wait for the background thread, or after it. -/
inductive Constructor
  | waiting (awake : Bool)
  | constructed
  deriving DecidableEq

/-- Where the background thread is: not created, about to reset `m_terminate`, about to notify, in
`on_thread_init`, at the top of the loop, in the wait, about to call `build`, inside of it, about to
count it, in `on_thread_destroy`, or terminated. From the end of the wait on it has its own copy of
`m_terminate`. -/
inductive Service
  | absent
  | starting
  | notifying
  | initialising
  | locking
  | waiting (awake : Bool)
  | ready (terminate : Bool)
  | building (terminate : Bool)
  | counting (terminate : Bool)
  | destroying
  | exited
  deriving DecidableEq

/-- Where a call of `stop` is: not made, about to lock the mutex, about to notify after it has set
`m_terminate`, in `join`, about to notify after it, or returned; a later call has found the thread
joinable and keeps the mutex, or sleeps. -/
inductive Call
  | idle
  | entering
  | notifying
  | joining
  | notifyingJoined
  | tested
  | asleep (awake : Bool)
  | returned
  deriving DecidableEq

variable {ι : Type*}

/-- The members of the service, and its threads. `begun` counts the calls of `build`, and
`requestedAt` keeps their number when `m_terminate` was set by `stop`. -/
structure State (ι : Type*) where
  terminate : Bool
  joinable : Bool
  invocations : ℕ
  constructor : Constructor
  service : Service
  calls : ι → Call
  begun : ℕ
  requestedAt : Option ℕ

/-- The state in which the constructor waits. A service without a period is never started. -/
def initial (ι : Type*) (frequency : ℕ) : State ι :=
  if 0 < frequency then ⟨true, true, 0, .waiting true, .starting, fun _ => .idle, 0, none⟩
  else ⟨true, false, 0, .constructed, .absent, fun _ => .idle, 0, none⟩

/-- No call keeps the mutex. -/
def MutexFree (s : State ι) : Prop := ∀ i, s.calls i ≠ .tested

/-- `notify_all`, for each place that may sleep. -/
def Constructor.wake : Constructor → Constructor
  | .waiting _ => .waiting true
  | c => c

def Service.wake : Service → Service
  | .waiting _ => .waiting true
  | b => b

def Call.wake : Call → Call
  | .asleep _ => .asleep true
  | c => c

/-- `m_condvar.notify_all()`. -/
def State.notifyAll (s : State ι) : State ι :=
  { s with
    constructor := s.constructor.wake
    service := s.service.wake
    calls := fun i => (s.calls i).wake }

/-- The call `i` goes to another place. -/
def State.move [DecidableEq ι] (s : State ι) (i : ι) (c : Call) : State ι :=
  { s with calls := Function.update s.calls i c }

/-- A step is a call of `stop`, a wake-up for no reason, or any other one. -/
inductive Action (ι : Type*)
  | call (i : ι)
  | spurious
  | internal

variable [DecidableEq ι]

/-- **The steps** of the constructor, the background thread and the calls of `stop`. -/
inductive Step : Action ι → State ι → State ι → Prop
  /-- `start`. -/
  | constructed {s : State ι} (hc : s.constructor = .waiting true) (hfree : MutexFree s)
      (hstarted : s.terminate = false) : Step .internal s { s with constructor := .constructed }
  | constructRecheck {s : State ι} (hc : s.constructor = .waiting true) (hfree : MutexFree s)
      (hnot : s.terminate = true) : Step .internal s { s with constructor := .waiting false }
  | constructSpurious {s : State ι} (hc : s.constructor = .waiting false) :
      Step .spurious s { s with constructor := .waiting true }
  /-- `main_thread`, up to its loop. -/
  | start {s : State ι} (hb : s.service = .starting) (hfree : MutexFree s) :
      Step .internal s { s with terminate := false, service := .notifying }
  | startNotify {s : State ι} (hb : s.service = .notifying) :
      Step .internal s { s.notifyAll with service := .initialising }
  | init {s : State ι} (hb : s.service = .initialising) :
      Step .internal s { s with service := .locking }
  /-- `wait_for`, whose predicate is tested before it sleeps. -/
  | waitNow {s : State ι} (hb : s.service = .locking) (hfree : MutexFree s)
      (ht : s.terminate = true) : Step .internal s { s with service := .ready true }
  | wait {s : State ι} (hb : s.service = .locking) (hfree : MutexFree s)
      (ht : s.terminate = false) : Step .internal s { s with service := .waiting false }
  | waitDone {s : State ι} (hb : s.service = .waiting true) (hfree : MutexFree s)
      (ht : s.terminate = true) : Step .internal s { s with service := .ready true }
  | waitRecheck {s : State ι} (hb : s.service = .waiting true) (hfree : MutexFree s)
      (ht : s.terminate = false) : Step .internal s { s with service := .waiting false }
  | timeout {s : State ι} {awake : Bool} (hb : s.service = .waiting awake) (hfree : MutexFree s) :
      Step .internal s { s with service := .ready s.terminate }
  | waitSpurious {s : State ι} (hb : s.service = .waiting false) :
      Step .spurious s { s with service := .waiting true }
  | build {s : State ι} {t : Bool} (hb : s.service = .ready t) :
      Step .internal s { s with service := .building t, begun := s.begun + 1 }
  | built {s : State ι} {t : Bool} (hb : s.service = .building t) :
      Step .internal s { s with service := .counting t }
  | again {s : State ι} (hb : s.service = .counting false) :
      Step .internal s { s with invocations := s.invocations + 1, service := .locking }
  | leave {s : State ι} (hb : s.service = .counting true) :
      Step .internal s { s with invocations := s.invocations + 1, service := .destroying }
  | exit {s : State ι} (hb : s.service = .destroying) :
      Step .internal s { s with service := .exited }
  /-- `stop`, once the object is constructed. -/
  | call {s : State ι} {i : ι} (hi : s.calls i = .idle) (hc : s.constructor = .constructed) :
      Step (.call i) s (s.move i .entering)
  /-- The first branch of `stop`. -/
  | request {s : State ι} {i : ι} (hi : s.calls i = .entering) (hfree : MutexFree s)
      (ht : s.terminate = false) :
      Step .internal s
        { s.move i .notifying with terminate := true, requestedAt := some s.begun }
  | notify {s : State ι} {i : ι} (hi : s.calls i = .notifying) :
      Step .internal s (s.notifyAll.move i .joining)
  | join {s : State ι} {i : ι} (hi : s.calls i = .joining) (hb : s.service = .exited) :
      Step .internal s { s.move i .notifyingJoined with joinable := false }
  | notifyJoined {s : State ι} {i : ι} (hi : s.calls i = .notifyingJoined) :
      Step .internal s (s.notifyAll.move i .returned)
  /-- The second branch of `stop`. -/
  | test {s : State ι} {i : ι} (hi : s.calls i = .entering ∨ s.calls i = .asleep true)
      (hfree : MutexFree s) (ht : s.calls i = .entering → s.terminate = true)
      (hj : s.joinable = true) : Step .internal s (s.move i .tested)
  | sleep {s : State ι} {i : ι} (hi : s.calls i = .tested) :
      Step .internal s (s.move i (.asleep false))
  | testReturn {s : State ι} {i : ι} (hi : s.calls i = .entering ∨ s.calls i = .asleep true)
      (hfree : MutexFree s) (ht : s.calls i = .entering → s.terminate = true)
      (hj : s.joinable = false) : Step .internal s (s.move i .returned)
  | stopSpurious {s : State ι} {i : ι} (hi : s.calls i = .asleep false) :
      Step .spurious s (s.move i (.asleep true))

/-- A step of any run. -/
def AnyStep (s s' : State ι) : Prop := ∃ a, Step a s s'

/-- A step of a run in which no wake-up comes for no reason. -/
def QuietStep (s s' : State ι) : Prop := ∃ a, Step a s s' ∧ a ≠ .spurious

/-- A call of `stop` that is neither idle nor returned. -/
def Call.Active (c : Call) : Prop := c ≠ .idle ∧ c ≠ .returned

/-- A step of a run in which `stop` is called when no other call of it is active. -/
def SequentialStep (s s' : State ι) : Prop :=
  ∃ a, Step a s s' ∧ ∀ i, a = .call i → ∀ j, ¬(s.calls j).Active

/-! ## The invariant -/

section Invariant

/-- What a call of `stop` is at: before its branch, in the first branch up to the end of `join`, in
the second one, or past `join`. -/
inductive Kind
  | outside
  | stopping
  | later
  | joined
  deriving DecidableEq

def Call.kind : Call → Kind
  | .idle | .entering => .outside
  | .notifying | .joining => .stopping
  | .tested | .asleep _ => .later
  | .notifyingJoined | .returned => .joined

@[simp] theorem Call.kind_wake (c : Call) : c.wake.kind = c.kind := by
  cases c <;> rfl

/-- **The invariant of the calls**: one of them is in the first branch until the thread is
joined. -/
structure CallsInv (calls : ι → Call) (joinable : Bool) (requested : Prop) : Prop where
  unique : ∀ i j, (calls i).kind = .stopping → (calls j).kind = .stopping → i = j
  stopping : ∀ i, (calls i).kind = .stopping → joinable = true ∧ requested
  later : ∀ i, (calls i).kind = .later → requested
  joined : ∀ i, (calls i).kind = .joined → joinable = false
  pending : requested → joinable = true → ∃ i, (calls i).kind = .stopping

omit [DecidableEq ι] in
/-- Only the kinds of the calls matter. -/
theorem CallsInv.congr {calls calls' : ι → Call} {joinable : Bool} {requested : Prop}
    (h : CallsInv calls joinable requested) (hkind : ∀ i, (calls' i).kind = (calls i).kind) :
    CallsInv calls' joinable requested where
  unique i j hi hj := h.unique i j (hkind i ▸ hi) (hkind j ▸ hj)
  stopping i hi := h.stopping i (hkind i ▸ hi)
  later i hi := h.later i (hkind i ▸ hi)
  joined i hi := h.joined i (hkind i ▸ hi)
  pending hr hj := by
    obtain ⟨i, hi⟩ := h.pending hr hj
    exact ⟨i, (hkind i).trans hi⟩

section Moves

variable {calls : ι → Call} {joinable : Bool} {requested : Prop} {i : ι} {c : Call}

theorem kind_update_of_ne {j : ι} (hij : j ≠ i) :
    (Function.update calls i c j).kind = (calls j).kind := by
  rw [Function.update_of_ne hij]

/-- A move within one kind. -/
theorem CallsInv.move (h : CallsInv calls joinable requested) (hkind : c.kind = (calls i).kind) :
    CallsInv (Function.update calls i c) joinable requested := by
  refine h.congr fun j => ?_
  by_cases hij : j = i
  · subst hij
    rw [Function.update_self, hkind]
  · exact kind_update_of_ne hij

/-- The first branch is taken when the service was not asked to stop. -/
theorem CallsInv.request (h : CallsInv calls true requested) (hnot : ¬requested)
    (hc : c.kind = .stopping) : CallsInv (Function.update calls i c) true True := by
  have hnone : ∀ j, (calls j).kind ≠ .stopping := fun j hj => hnot (h.stopping j hj).2
  have honly : ∀ j, (Function.update calls i c j).kind = .stopping → j = i := fun j hj => by
    by_contra hij
    exact hnone j (kind_update_of_ne hij ▸ hj)
  refine ⟨fun j k hj hk => (honly j hj).trans (honly k hk).symm, fun _ _ => ⟨rfl, trivial⟩,
    fun _ _ => trivial, fun j hj => ?_, fun _ _ => ⟨i, by rw [Function.update_self, hc]⟩⟩
  by_cases hij : j = i
  · subst hij
    rw [Function.update_self, hc] at hj
    cases hj
  · exact h.joined j (kind_update_of_ne hij ▸ hj)

/-- The thread is joined. -/
theorem CallsInv.join (h : CallsInv calls joinable requested) (hi : (calls i).kind = .stopping)
    (hc : c.kind = .joined) : CallsInv (Function.update calls i c) false requested := by
  have hnone : ∀ j, (Function.update calls i c j).kind ≠ .stopping := fun j hj => by
    by_cases hij : j = i
    · subst hij
      rw [Function.update_self, hc] at hj
      cases hj
    · exact hij (h.unique j i (kind_update_of_ne hij ▸ hj) hi)
  refine ⟨fun j _ hj => absurd hj (hnone j), fun j hj => absurd hj (hnone j), fun j hj => ?_,
    fun _ _ => rfl, fun _ hc => Bool.noConfusion hc⟩
  by_cases hij : j = i
  · subst hij
    rw [Function.update_self, hc] at hj
    cases hj
  · exact h.later j (kind_update_of_ne hij ▸ hj)

/-- The second branch, or a return from it. -/
theorem CallsInv.second (h : CallsInv calls joinable requested) (hi : (calls i).kind ≠ .stopping)
    (hc : c.kind = .later ∧ requested ∨ c.kind = .joined ∧ joinable = false) :
    CallsInv (Function.update calls i c) joinable requested := by
  have hne : c.kind ≠ .stopping := by
    rcases hc with ⟨hc, -⟩ | ⟨hc, -⟩ <;> simp [hc]
  have hback : ∀ j, (Function.update calls i c j).kind = .stopping → (calls j).kind = .stopping :=
    fun j hj => by
      by_cases hij : j = i
      · subst hij
        rw [Function.update_self] at hj
        exact absurd hj hne
      · exact kind_update_of_ne hij ▸ hj
  refine ⟨fun j k hj hk => h.unique j k (hback j hj) (hback k hk),
    fun j hj => h.stopping j (hback j hj), fun j hj => ?_, fun j hj => ?_, fun hr hj => ?_⟩
  · by_cases hij : j = i
    · subst hij
      rw [Function.update_self] at hj
      rcases hc with ⟨-, hr⟩ | ⟨hc, -⟩
      · exact hr
      · rw [hc] at hj
        cases hj
    · exact h.later j (kind_update_of_ne hij ▸ hj)
  · by_cases hij : j = i
    · subst hij
      rw [Function.update_self] at hj
      rcases hc with ⟨hc, -⟩ | ⟨-, hc⟩
      · rw [hc] at hj
        cases hj
      · exact hc
    · exact h.joined j (kind_update_of_ne hij ▸ hj)
  · obtain ⟨j, hj⟩ := h.pending hr hj
    have hij : j ≠ i := by
      rintro rfl
      exact hi hj
    exact ⟨j, (kind_update_of_ne hij).trans hj⟩

end Moves

/-- The service was asked to stop. -/
def State.Requested (s : State ι) : Prop := s.requestedAt ≠ none

/-- Bounds on the builds at a place of the background thread: `pending` of them are not counted yet,
and the number of those that began after the request lies between `lo` and `hi`. -/
structure Bounds where
  pending : ℕ
  lo : ℕ
  hi : ℕ

/-- The bounds, for the places in which the service has started. -/
def Service.bounds : Service → Option Bounds
  | .absent | .starting => none
  | .notifying | .initialising => some ⟨0, 0, 0⟩
  | .locking | .waiting _ => some ⟨0, 0, 1⟩
  | .ready t => some ⟨0, 0, t.toNat⟩
  | .building t | .counting t => some ⟨1, t.toNat, 1 + t.toNat⟩
  | .destroying | .exited => some ⟨0, 1, 2⟩

/-- The background thread has seen the request. -/
def Service.informed : Service → Bool
  | .ready t | .building t | .counting t => t
  | .destroying | .exited => true
  | _ => false

/-- What the counts of a started service meet. -/
structure Bounds.Hold (b : Bounds) (terminate : Bool) (invocations begun : ℕ)
    (requestedAt : Option ℕ) : Prop where
  terminate_iff : terminate = true ↔ requestedAt ≠ none
  begun_eq : begun = invocations + b.pending
  since : ∀ k, requestedAt = some k → k + b.lo ≤ begun ∧ begun ≤ k + b.hi

/-- **The invariant.** -/
structure Inv (s : State ι) : Prop where
  calls : CallsInv s.calls s.joinable s.Requested
  constructed : ∀ i, s.calls i ≠ .idle → s.constructor = .constructed
  users : s.Requested → s.constructor = .constructed
  bounds : ∀ b, s.service.bounds = some b →
    b.Hold s.terminate s.invocations s.begun s.requestedAt
  informed : s.service.informed = true → s.Requested
  ended : s.joinable = false → s.service = .absent ∨ s.service = .exited
  absent : s.service = .absent → s.joinable = false
  starting : s.service = .starting → s.constructor ≠ .constructed
  unstarted : s.service.bounds = none →
    s.terminate = true ∧ s.requestedAt = none ∧ s.begun = 0 ∧ s.invocations = 0

omit [DecidableEq ι] in
theorem inv_initial (frequency : ℕ) : Inv (initial ι frequency) := by
  have hidle : ∀ {joinable : Bool} {requested : Prop}, ¬requested →
      CallsInv (fun _ : ι => Call.idle) joinable requested := fun hnot =>
    ⟨nofun, nofun, nofun, nofun, fun hr => absurd hr hnot⟩
  unfold initial
  split_ifs with hfreq
  · exact ⟨hidle fun hr => hr rfl, fun i hi => absurd rfl hi, fun hr => absurd rfl hr, nofun, nofun,
      nofun, nofun, fun _ => nofun, fun _ => ⟨rfl, rfl, rfl, rfl⟩⟩
  · exact ⟨hidle fun hr => hr rfl, fun i hi => absurd rfl hi, fun _ => rfl, nofun, nofun,
      fun _ => Or.inl rfl, fun _ => rfl, nofun, fun _ => ⟨rfl, rfl, rfl, rfl⟩⟩

section

omit [DecidableEq ι]

variable {s : State ι}

@[simp] theorem Service.bounds_wake (b : Service) : b.wake.bounds = b.bounds := by
  cases b <;> rfl

@[simp] theorem Service.informed_wake (b : Service) : b.wake.informed = b.informed := by
  cases b <;> rfl

theorem Service.eq_of_wake {b b' : Service} (h : b.wake = b') (hb : b' ≠ .waiting true) :
    b = b' := by
  cases b with
  | waiting awake => exact absurd h.symm hb
  | _ => exact h

/-- A notification keeps the invariant. -/
theorem Inv.notifyAll (h : Inv s) : Inv s.notifyAll where
  calls := h.calls.congr fun i => Call.kind_wake _
  constructed i hi := by
    have hidle : s.calls i ≠ .idle := fun hc => hi (by simp [State.notifyAll, hc, Call.wake])
    simp only [State.notifyAll, h.constructed i hidle, Constructor.wake]
  users hr := by simp only [State.notifyAll, h.users hr, Constructor.wake]
  bounds b hb := h.bounds b (by simpa [State.notifyAll] using hb)
  informed hi := h.informed (by simpa [State.notifyAll] using hi)
  ended hj := by
    refine (h.ended hj).imp (fun hb => ?_) fun hb => ?_ <;>
    simp [State.notifyAll, hb, Service.wake]
  absent hb := h.absent (Service.eq_of_wake hb nofun)
  starting hb := by
    have hc := h.starting (Service.eq_of_wake hb nofun)
    cases hcons : s.constructor with
    | waiting awake => simp [State.notifyAll, hcons, Constructor.wake]
    | constructed => exact absurd hcons hc
  unstarted hb := h.unstarted (by simpa [State.notifyAll] using hb)

/-- The places in which the background thread runs. -/
theorem Inv.joinable (h : Inv s) (hb : s.service ≠ .absent ∧ s.service ≠ .exited) :
    s.joinable = true := by
  by_contra hj
  rcases h.ended (Bool.eq_false_iff.mpr hj) with ha | he
  · exact hb.1 ha
  · exact hb.2 he

/-- A constructed service that is to end was asked to, or was never started. -/
theorem Inv.requested (h : Inv s) (hc : s.constructor = .constructed) (ht : s.terminate = true) :
    s.Requested ∨ s.joinable = false := by
  cases hb : s.service.bounds with
  | some b => exact Or.inl ((h.bounds b hb).terminate_iff.mp ht)
  | none =>
    cases hs : s.service with
    | absent => exact Or.inr (h.absent hs)
    | starting => exact absurd hc (h.starting hs)
    | _ => simp [hs, Service.bounds] at hb

/-- A service that is not to end was not asked to. -/
theorem Inv.not_requested (h : Inv s) (ht : s.terminate = false) :
    ¬s.Requested ∧ s.service.informed = false ∧ s.joinable = true ∧
      ∃ b, s.service.bounds = some b := by
  cases hb : s.service.bounds with
  | none => simp [(h.unstarted hb).1] at ht
  | some b =>
    have hnot : ¬s.Requested := fun hr => by simp [(h.bounds b hb).terminate_iff.mpr hr] at ht
    have hinf : s.service.informed = false := Bool.eq_false_iff.mpr fun hc => hnot (h.informed hc)
    refine ⟨hnot, hinf, h.joinable ⟨fun hs => ?_, fun hs => ?_⟩, b, rfl⟩
    · simp [hs, Service.bounds] at hb
    · simp [hs, Service.informed] at hinf

/-- A step of the background thread between two places in which it runs. -/
theorem Inv.of_service (h : Inv s) (hbefore : s.service ≠ .absent ∧ s.service ≠ .exited)
    {invocations begun : ℕ} {service : Service} {b : Bounds} (hb : service.bounds = some b)
    (hhold : b.Hold s.terminate invocations begun s.requestedAt)
    (hinf : service.informed = true → s.Requested) :
    Inv { s with invocations := invocations, begun := begun, service := service } where
  calls := h.calls
  constructed := h.constructed
  users := h.users
  bounds b' hb' := by
    obtain rfl := Option.some.inj (hb.symm.trans hb')
    exact hhold
  informed := hinf
  ended hj := by simp [h.joinable hbefore] at hj
  absent hs := by
    cases hs
    cases hb
  starting hs := by
    cases hs
    cases hb
  unstarted hn := by cases hb.symm.trans hn

/-- A step of the background thread that leaves the bounds as they are. -/
theorem Inv.of_bounds (h : Inv s) (hbefore : s.service ≠ .absent ∧ s.service ≠ .exited)
    {service : Service} {b : Bounds} (hs : s.service.bounds = some b)
    (hb : service.bounds = some b) (hinf : service.informed = true → s.Requested) :
    Inv { s with service := service } :=
  h.of_service hbefore hb (h.bounds b hs) hinf

/-- The end of the wait, with a copy of `m_terminate`. -/
theorem Inv.ready (h : Inv s) (hs : s.service.bounds = some ⟨0, 0, 1⟩) {t : Bool}
    (ht : s.terminate = t) : Inv { s with service := .ready t } := by
  have hbefore : s.service ≠ .absent ∧ s.service ≠ .exited := by
    refine ⟨fun hc => ?_, fun hc => ?_⟩ <;> simp [hc, Service.bounds] at hs
  have hhold := h.bounds _ hs
  have hreq : t = true → s.Requested := fun hc => hhold.terminate_iff.mp (ht.trans hc)
  refine h.of_service hbefore rfl ⟨hhold.terminate_iff, hhold.begun_eq, fun k hk => ?_⟩ hreq
  obtain ⟨hlo, hhi⟩ := hhold.since k hk
  -- a copy that says no was read before the request
  cases t with
  | true => exact ⟨hlo, hhi⟩
  | false =>
    have hsome : s.terminate = true := hhold.terminate_iff.mpr (by simp [hk])
    rw [ht] at hsome
    cases hsome

end

section Calls

variable {s : State ι} {i : ι}

/-- A move of one call of `stop` leaves the background thread. -/
theorem Inv.of_move (h : Inv s) (hcons : s.constructor = .constructed) {c : Call}
    (hcalls : CallsInv (Function.update s.calls i c) s.joinable s.Requested) : Inv (s.move i c) :=
  { h with calls := hcalls, constructed := fun _ _ => hcons }

/-- The first branch of `stop`. -/
theorem Inv.request (h : Inv s) (hi : s.calls i = .entering) (ht : s.terminate = false) :
    Inv { s.move i .notifying with terminate := true, requestedAt := some s.begun } := by
  obtain ⟨hnot, hinf, hj, b, hb⟩ := h.not_requested ht
  have hcons := h.constructed i (by simp [hi])
  have hcalls : CallsInv (Function.update s.calls i .notifying) s.joinable True := by
    have := h.calls
    rw [hj] at this ⊢
    exact this.request hnot rfl
  have hlo : b.lo = 0 := by
    cases hs : s.service with
    | building t | counting t =>
      simp only [hs, Service.informed] at hinf
      simp only [hs, hinf, Service.bounds, Option.some.injEq] at hb
      rw [← hb]
      rfl
    | absent | starting => simp [hs, Service.bounds] at hb
    | destroying | exited => simp [hs, Service.informed] at hinf
    | _ =>
      simp only [hs, Service.bounds, Option.some.injEq] at hb
      rw [← hb]
  have hhold := h.bounds b hb
  exact
    { calls := ⟨hcalls.unique, fun j hj => ⟨(hcalls.stopping j hj).1, nofun⟩, fun _ _ => nofun,
        hcalls.joined, fun _ => hcalls.pending trivial⟩
      constructed := fun _ _ => hcons
      users := fun _ => hcons
      bounds := fun b' hb' => by
        obtain rfl := Option.some.inj (hb.symm.trans hb')
        refine ⟨by simp, hhold.begun_eq, fun k hk => ?_⟩
        obtain rfl := Option.some.inj hk
        rw [hlo]
        exact ⟨le_refl _, Nat.le_add_right _ _⟩
      informed := fun _ => nofun
      ended := h.ended
      absent := h.absent
      starting := fun hs => absurd hcons (h.starting hs)
      unstarted := fun hn => by cases hb.symm.trans hn }

/-- The end of `join`. -/
theorem Inv.join (h : Inv s) (hi : s.calls i = .joining) (hb : s.service = .exited) :
    Inv { s.move i .notifyingJoined with joinable := false } where
  calls := h.calls.join (by rw [hi]; rfl) rfl
  constructed _ _ := h.constructed i (by simp [hi])
  users := h.users
  bounds := h.bounds
  informed := h.informed
  ended _ := Or.inr hb
  absent hs := by cases hb.symm.trans hs
  starting hs := by cases hb.symm.trans hs
  unstarted := h.unstarted

omit [DecidableEq ι] in
/-- The kinds of a call before the second branch. -/
theorem kind_of_second (hi : s.calls i = .entering ∨ s.calls i = .asleep true) :
    (s.calls i).kind ≠ .stopping ∧ s.calls i ≠ .idle := by
  rcases hi with hi | hi <;> rw [hi] <;> exact ⟨nofun, nofun⟩

end Calls

/-- **Each step keeps the invariant.** -/
theorem Step.inv {a : Action ι} {s s' : State ι} (hstep : Step a s s') (h : Inv s) : Inv s' := by
  cases hstep with
  | constructed hc hfree hstarted =>
    refine { h with constructed := fun _ _ => rfl, users := fun _ => rfl, starting := fun hs => ?_ }
    simp [(h.unstarted (by rw [hs]; rfl)).1] at hstarted
  | constructRecheck hc hfree hnot =>
    refine
      { h with
        constructed := fun i hi => ?_
        users := fun hr => ?_
        starting := fun _ => nofun }
    · cases hc.symm.trans (h.constructed i hi)
    · cases hc.symm.trans (h.users hr)
  | constructSpurious hc =>
    refine
      { h with
        constructed := fun i hi => ?_
        users := fun hr => ?_
        starting := fun _ => nofun }
    · cases hc.symm.trans (h.constructed i hi)
    · cases hc.symm.trans (h.users hr)
  | start hb hfree =>
    obtain ⟨ht, hr, hbegun, hinv⟩ := h.unstarted (by rw [hb]; rfl)
    have hj := h.joinable ⟨by simp [hb], by simp [hb]⟩
    exact
      { calls := h.calls
        constructed := h.constructed
        users := h.users
        bounds := fun b hbounds => by
          obtain rfl := Option.some.inj hbounds
          exact ⟨by simp [hr], by simp [hbegun, hinv], fun k hk => by simp [hr] at hk⟩
        informed := nofun
        ended := fun hc => by simp [hj] at hc
        absent := nofun
        starting := nofun
        unstarted := nofun }
  | startNotify hb =>
    have hb' : s.notifyAll.service = .notifying := by simp [State.notifyAll, hb, Service.wake]
    exact h.notifyAll.of_bounds (by simp [hb']) (by rw [hb']; rfl) rfl nofun
  | init hb =>
    have hhold := h.bounds ⟨0, 0, 0⟩ (by rw [hb]; rfl)
    refine h.of_service (by simp [hb]) rfl ⟨hhold.terminate_iff, hhold.begun_eq, fun k hk => ?_⟩
      nofun
    obtain ⟨hlo, hhi⟩ := hhold.since k hk
    exact ⟨hlo, hhi.trans (Nat.le_succ _)⟩
  | waitNow hb hfree ht => exact h.ready (by rw [hb]; rfl) ht
  | wait hb hfree ht => exact h.of_bounds (by simp [hb]) (by rw [hb]; rfl) rfl nofun
  | waitDone hb hfree ht => exact h.ready (by rw [hb]; rfl) ht
  | waitRecheck hb hfree ht => exact h.of_bounds (by simp [hb]) (by rw [hb]; rfl) rfl nofun
  | timeout hb hfree => exact h.ready (by rw [hb]; rfl) rfl
  | waitSpurious hb => exact h.of_bounds (by simp [hb]) (by rw [hb]; rfl) rfl nofun
  | @build _ t hb =>
    have hhold := h.bounds ⟨0, 0, t.toNat⟩ (by rw [hb]; rfl)
    refine h.of_service (by simp [hb]) rfl ⟨hhold.terminate_iff, ?_, fun k hk => ?_⟩
      fun ht => h.informed (by rw [hb]; exact ht)
    · rw [hhold.begun_eq]
      rfl
    · obtain ⟨hlo, hhi⟩ : k ≤ s.begun ∧ s.begun ≤ k + t.toNat := hhold.since k hk
      have ht : t.toNat ≤ 1 := Bool.toNat_le t
      -- the build that begins now is one more since the request
      exact ⟨Nat.add_le_add hlo ht, by simp only; omega⟩
  | @built _ t hb =>
    exact h.of_bounds (by simp [hb]) (by rw [hb]; rfl) rfl fun ht =>
      h.informed (by rw [hb]; exact ht)
  | again hb =>
    have hhold := h.bounds ⟨1, 0, 1⟩ (by rw [hb]; rfl)
    exact h.of_service (by simp [hb]) rfl ⟨hhold.terminate_iff, hhold.begun_eq, hhold.since⟩ nofun
  | leave hb =>
    have hhold := h.bounds ⟨1, 1, 2⟩ (by rw [hb]; rfl)
    exact h.of_service (by simp [hb]) rfl ⟨hhold.terminate_iff, hhold.begun_eq, hhold.since⟩
      fun _ => h.informed (by rw [hb]; rfl)
  | exit hb =>
    exact h.of_bounds (by simp [hb]) (by rw [hb]; rfl) rfl fun _ => h.informed (by rw [hb]; rfl)
  | call hi hc => exact h.of_move hc (h.calls.move (by rw [hi]; rfl))
  | request hi hfree ht => exact h.request hi ht
  | @notify _ i hi =>
    have hi' : s.notifyAll.calls i = .notifying := by simp [State.notifyAll, hi, Call.wake]
    exact h.notifyAll.of_move (h.notifyAll.constructed i (by simp [hi']))
      (h.notifyAll.calls.move (by rw [hi']; rfl))
  | join hi hb => exact h.join hi hb
  | @notifyJoined _ i hi =>
    have hi' : s.notifyAll.calls i = .notifyingJoined := by simp [State.notifyAll, hi, Call.wake]
    exact h.notifyAll.of_move (h.notifyAll.constructed i (by simp [hi']))
      (h.notifyAll.calls.move (by rw [hi']; rfl))
  | @test _ i hi hfree ht hj =>
    obtain ⟨hkind, hidle⟩ := kind_of_second hi
    have hreq : s.Requested := by
      rcases hi with hi | hi
      · exact (h.requested (h.constructed i hidle) (ht hi)).resolve_right (by simp [hj])
      · exact h.calls.later i (by rw [hi]; rfl)
    exact h.of_move (h.constructed i hidle) (h.calls.second hkind (Or.inl ⟨rfl, hreq⟩))
  | @sleep _ i hi =>
    exact h.of_move (h.constructed i (by simp [hi])) (h.calls.move (by rw [hi]; rfl))
  | @testReturn _ i hi hfree ht hj =>
    obtain ⟨hkind, hidle⟩ := kind_of_second hi
    exact h.of_move (h.constructed i hidle) (h.calls.second hkind (Or.inr ⟨rfl, hj⟩))
  | @stopSpurious _ i hi =>
    exact h.of_move (h.constructed i (by simp [hi])) (h.calls.move (by rw [hi]; rfl))

theorem inv_of_reach {frequency : ℕ} {s : State ι}
    (h : Relation.ReflTransGen AnyStep (initial ι frequency) s) : Inv s :=
  reachable_invariant (inv_initial frequency) (fun _ _ hinv ⟨_, hstep⟩ => hstep.inv hinv) h

end Invariant

/-! ## What a call of `stop` promises -/

section Served

/-- The background thread is created at the start, or never. -/
theorem Step.absent_iff {a : Action ι} {s s' : State ι} (hstep : Step a s s') :
    s'.service = .absent ↔ s.service = .absent := by
  cases hstep with
  | startNotify hb => simp [hb]
  | notify hi => cases hb : s.service <;> simp [State.move, State.notifyAll, hb, Service.wake]
  | notifyJoined hi => cases hb : s.service <;> simp [State.move, State.notifyAll, hb, Service.wake]
  | constructed | constructRecheck | constructSpurious | call | request | join | test | sleep
  | testReturn | stopSpurious => rfl
  | _ => simp_all

/-- A thread that has terminated calls nothing. -/
theorem Step.ended {a : Action ι} {s s' : State ι} (hstep : Step a s s')
    (hb : s.service = .exited) :
    s'.service = .exited ∧ s'.begun = s.begun ∧ s'.invocations = s.invocations := by
  cases hstep with
  | notify hi => exact ⟨by simp [State.move, State.notifyAll, hb, Service.wake], rfl, rfl⟩
  | notifyJoined hi => exact ⟨by simp [State.move, State.notifyAll, hb, Service.wake], rfl, rfl⟩
  | constructed | constructRecheck | constructSpurious | call | request | join | test | sleep
  | testReturn | stopSpurious => exact ⟨hb, rfl, rfl⟩
  | _ => simp_all

theorem absent_of_reach {frequency : ℕ} {s : State ι}
    (h : Relation.ReflTransGen AnyStep (initial ι frequency) s) :
    s.service = .absent ↔ frequency = 0 := by
  refine reachable_invariant (I := fun s => s.service = .absent ↔ frequency = 0) ?_ ?_ h
  · unfold initial
    split_ifs with hfreq
    · simp [hfreq.ne']
    · simp only [true_iff]
      omega
  · rintro s s' hs ⟨a, hstep⟩
    rw [hstep.absent_iff, hs]

/-- **A call of `stop` that returned** finds the background thread terminated, with every build
counted. One or two builds began after the service was asked to stop, and none begins later. A
service without a period has called nothing. -/
theorem served {frequency : ℕ} {s : State ι}
    (h : Relation.ReflTransGen AnyStep (initial ι frequency) s) {i : ι}
    (hi : s.calls i = .returned) :
    s.invocations = s.begun ∧
      (frequency = 0 → s.begun = 0) ∧
      (0 < frequency → s.service = .exited ∧
        ∃ k, s.requestedAt = some k ∧ k < s.begun ∧ s.begun ≤ k + 2) ∧
      ∀ s', Relation.ReflTransGen AnyStep s s' →
        s'.begun = s.begun ∧ s'.invocations = s.invocations := by
  have hinv := inv_of_reach h
  have hj := hinv.calls.joined i (by rw [hi]; rfl)
  rcases hinv.ended hj with hb | hb
  · have hfreq := (absent_of_reach h).mp hb
    obtain ⟨-, -, hbegun, hcount⟩ := hinv.unstarted (by rw [hb]; rfl)
    refine ⟨hcount.trans hbegun.symm, fun _ => hbegun, fun hpos => absurd hfreq hpos.ne',
      fun s' hs' => ?_⟩
    -- the thread is never created
    have hs := h.trans hs'
    obtain ⟨-, -, hbegun', hcount'⟩ :=
      (inv_of_reach hs).unstarted (by rw [(absent_of_reach hs).mpr hfreq]; rfl)
    exact ⟨hbegun'.trans hbegun.symm, hcount'.trans hcount.symm⟩
  · have hhold := hinv.bounds ⟨0, 1, 2⟩ (by rw [hb]; rfl)
    obtain ⟨k, hk⟩ := Option.ne_none_iff_exists'.mp (hinv.informed (by rw [hb]; rfl))
    refine ⟨hhold.begun_eq.symm, fun hfreq => ?_, fun _ => ⟨hb, k, hk, hhold.since k hk⟩,
      fun s' hs' => ?_⟩
    · cases hb.symm.trans ((absent_of_reach h).mpr hfreq)
    · exact (reachable_invariant (I := fun t => t.service = .exited ∧ t.begun = s.begun ∧
        t.invocations = s.invocations) ⟨hb, rfl, rfl⟩ (fun t t' ht ⟨_, hstep⟩ => by
          obtain ⟨hb', hbegun, hcount⟩ := hstep.ended ht.1
          exact ⟨hb', hbegun.trans ht.2.1, hcount.trans ht.2.2⟩) hs').2

end Served

/-! ## The end of every run -/

section Ends

/-- What the background thread has still to do once it was asked to stop. -/
def Service.left : Service → ℕ
  | .absent | .exited => 0
  | .destroying => 1
  | .counting true => 2
  | .building true => 3
  | .ready true => 4
  | .waiting true => 5
  | .waiting false => 6
  | .locking => 7
  | .counting false => 8
  | .building false => 9
  | .ready false => 10
  | .initialising => 11
  | .notifying => 12
  | .starting => 13

/-- What a call of `stop` has still to do, up to the tests of the second branch. -/
def Call.left : Call → ℕ
  | .idle => 5
  | .entering => 4
  | .notifying => 3
  | .joining => 2
  | .notifyingJoined | .tested | .asleep _ => 1
  | .returned => 0

/-- What a call has still to do in the second branch before it is notified again. -/
def Call.tests : Call → ℕ
  | .asleep true => 2
  | .tested => 1
  | _ => 0

@[simp] theorem Call.left_wake (c : Call) : c.wake.left = c.left := by
  cases c <;> rfl

theorem Service.left_wake_le (b : Service) : b.wake.left ≤ b.left := by
  cases b with
  | waiting awake => cases awake <;> decide
  | _ => exact le_rfl

variable [Fintype ι]

/-- **The measure**: what is left to do, and the tests before the next notification. -/
def measure (s : State ι) : ℕ ×ₗ ℕ :=
  toLex (s.service.left + ∑ i, (s.calls i).left, ∑ i, (s.calls i).tests)

omit [DecidableEq ι] in
theorem measure_lt_of_left {s s' : State ι}
    (h : s'.service.left + ∑ i, (s'.calls i).left < s.service.left + ∑ i, (s.calls i).left) :
    measure s' < measure s :=
  Prod.Lex.toLex_lt_toLex.mpr (Or.inl h)

omit [DecidableEq ι] in
theorem measure_service_lt {s s' : State ι} {b b' : Service} (hb : s.service = b)
    (hb' : s'.service = b') (hcalls : s'.calls = s.calls) (h : b'.left < b.left) :
    measure s' < measure s := by
  refine measure_lt_of_left ?_
  rw [hcalls, hb, hb']
  exact Nat.add_lt_add_right h _

theorem measure_move_lt {s s' : State ι} {i : ι} {c : Call}
    (hcalls : s'.calls = Function.update s.calls i c) (hb : s'.service = s.service)
    (h : c.left < (s.calls i).left) : measure s' < measure s := by
  refine measure_lt_of_left ?_
  rw [hcalls, hb]
  exact Nat.add_lt_add_left (sum_update_lt h) _

theorem measure_test_lt {s : State ι} {i : ι} {c : Call} (hleft : c.left = (s.calls i).left)
    (h : c.tests < (s.calls i).tests) : measure (s.move i c) < measure s :=
  Prod.Lex.toLex_lt_toLex.mpr
    (Or.inr ⟨congrArg (s.service.left + ·) (sum_update_eq hleft), sum_update_lt h⟩)

/-- A notification by a call that moves on. -/
theorem measure_notify_lt {s : State ι} {i : ι} {c : Call} (h : c.left < (s.calls i).left) :
    measure (s.notifyAll.move i c) < measure s := by
  have hmove : ∑ j, (Function.update s.notifyAll.calls i c j).left <
      ∑ j, (s.notifyAll.calls j).left :=
    sum_update_lt (f := Call.left) (by simpa [State.notifyAll] using h)
  refine measure_lt_of_left (Nat.add_lt_add_of_le_of_lt s.service.left_wake_le (hmove.trans_eq ?_))
  exact Finset.sum_congr rfl fun j _ => Call.left_wake _

/-- **A step lowers the measure** once the service was asked to stop, unless a sleeping call wakes
up for no reason. -/
theorem Step.measure_lt {a : Action ι} {s s' : State ι} (hstep : Step a s s') (h : Inv s)
    (hreq : s.Requested) (hquiet : a = .spurious → ∀ i, s.calls i ≠ .asleep false) :
    measure s' < measure s := by
  have hcons := h.users hreq
  -- the copy that is taken from now on says that the service is to end
  have hterm : ∀ {b : Bounds}, s.service.bounds = some b → s.terminate = true := fun hb =>
    (h.bounds _ hb).terminate_iff.mpr hreq
  cases hstep with
  | constructed hc => cases hc.symm.trans hcons
  | constructRecheck hc => cases hc.symm.trans hcons
  | constructSpurious hc => cases hc.symm.trans hcons
  | start hb => exact absurd hcons (h.starting hb)
  | startNotify hb =>
    refine measure_lt_of_left (Nat.add_lt_add_of_lt_of_le ?_ (Finset.sum_le_sum fun j _ => ?_))
    · simp [hb, Service.left]
    · exact (Call.left_wake _).le
  | init hb => exact measure_service_lt hb rfl rfl (by simp [Service.left])
  | waitNow hb => exact measure_service_lt hb rfl rfl (by simp [Service.left])
  | wait hb hfree ht => simp [hterm (b := ⟨0, 0, 1⟩) (by rw [hb]; rfl)] at ht
  | waitDone hb => exact measure_service_lt hb rfl rfl (by simp [Service.left])
  | waitRecheck hb hfree ht => simp [hterm (b := ⟨0, 0, 1⟩) (by rw [hb]; rfl)] at ht
  | @timeout _ awake hb =>
    rw [hterm (b := ⟨0, 0, 1⟩) (by rw [hb]; rfl)]
    cases awake <;> exact measure_service_lt hb rfl rfl (by simp [Service.left])
  | waitSpurious hb => exact measure_service_lt hb rfl rfl (by simp [Service.left])
  | @build _ t hb => cases t <;> exact measure_service_lt hb rfl rfl (by simp [Service.left])
  | @built _ t hb => cases t <;> exact measure_service_lt hb rfl rfl (by simp [Service.left])
  | again hb => exact measure_service_lt hb rfl rfl (by simp [Service.left])
  | leave hb => exact measure_service_lt hb rfl rfl (by simp [Service.left])
  | exit hb => exact measure_service_lt hb rfl rfl (by simp [Service.left])
  | call hi => exact measure_move_lt rfl rfl (by simp [hi, Call.left])
  | request hi => exact measure_move_lt rfl rfl (by simp [hi, Call.left])
  | notify hi => exact measure_notify_lt (by simp [hi, Call.left])
  | join hi => exact measure_move_lt rfl rfl (by simp [hi, Call.left])
  | notifyJoined hi => exact measure_notify_lt (by simp [hi, Call.left])
  | test hi =>
    rcases hi with hi | hi
    · exact measure_move_lt rfl rfl (by simp [hi, Call.left])
    · exact measure_test_lt (by simp [hi, Call.left]) (by simp [hi, Call.tests])
  | sleep hi => exact measure_test_lt (by simp [hi, Call.left]) (by simp [hi, Call.tests])
  | testReturn hi =>
    rcases hi with hi | hi <;> exact measure_move_lt rfl rfl (by simp [hi, Call.left])
  | @stopSpurious _ i hi => exact absurd hi (hquiet rfl i)

omit [Fintype ι] in
/-- The request is never withdrawn. -/
theorem Step.requested {a : Action ι} {s s' : State ι} (hstep : Step a s s') (h : s.Requested) :
    s'.Requested := by
  cases hstep with
  | request => exact nofun
  | _ => exact h

omit [Fintype ι] in
/-- A call past the tests can go on when the mutex is free. -/
theorem Inv.exists_second {s : State ι} (h : Inv s) (hreq : s.Requested) (hfree : MutexFree s)
    {i : ι} (hi : s.calls i = .entering ∨ s.calls i = .asleep true) :
    ∃ s', Step .internal s s' := by
  cases hj : s.joinable with
  | true =>
    by_cases hterm : s.calls i = .entering → s.terminate = true
    · exact ⟨_, .test hi hfree hterm hj⟩
    · push Not at hterm
      exact ⟨_, .request hterm.1 hfree (Bool.eq_false_iff.mpr hterm.2)⟩
  | false =>
    have hexited : s.terminate = true := by
      cases hb : s.service.bounds with
      | some b => exact (h.bounds b hb).terminate_iff.mpr hreq
      | none => exact (h.unstarted hb).1
    exact ⟨_, .testReturn hi hfree (fun _ => hexited) hj⟩

omit [Fintype ι] in
/-- The background thread can go on when the mutex is free. -/
theorem Inv.exists_service {s : State ι} (h : Inv s) (hreq : s.Requested) (hfree : MutexFree s)
    (hb : s.service ≠ .exited) : ∃ s', Step .internal s s' := by
  have hterm : ∀ {b : Bounds}, s.service.bounds = some b → s.terminate = true := fun hb =>
    (h.bounds _ hb).terminate_iff.mpr hreq
  cases hs : s.service with
  | absent => exact absurd (h.unstarted (by rw [hs]; rfl)).2.1 hreq
  | starting => exact absurd (h.unstarted (by rw [hs]; rfl)).2.1 hreq
  | notifying => exact ⟨_, .startNotify hs⟩
  | initialising => exact ⟨_, .init hs⟩
  | locking => exact ⟨_, .waitNow hs hfree (hterm (b := ⟨0, 0, 1⟩) (by rw [hs]; rfl))⟩
  | waiting awake => exact ⟨_, .timeout hs hfree⟩
  | ready t => exact ⟨_, .build hs⟩
  | building t => exact ⟨_, .built hs⟩
  | counting t =>
    cases t with
    | true => exact ⟨_, .leave hs⟩
    | false => exact ⟨_, .again hs⟩
  | destroying => exact ⟨_, .exit hs⟩
  | exited => exact absurd hs hb

omit [Fintype ι] in
/-- **A run that cannot go on**, once the service was asked to stop: the thread is joined, and each
call was not made, has returned, or sleeps. -/
theorem Inv.final {s : State ι} (h : Inv s) (hreq : s.Requested)
    (hfinal : ∀ s', ¬Step .internal s s') :
    s.service = .exited ∧ s.joinable = false ∧
      ∀ i, s.calls i = .idle ∨ s.calls i = .returned ∨ s.calls i = .asleep false := by
  have hfree : MutexFree s := fun i hi => hfinal _ (.sleep hi)
  have hexited : s.service = .exited := by
    by_contra hb
    obtain ⟨s', hs'⟩ := h.exists_service hreq hfree hb
    exact hfinal s' hs'
  have hplaces : ∀ i, s.calls i = .idle ∨ s.calls i = .returned ∨ s.calls i = .asleep false := by
    intro i
    have hsecond : ¬(s.calls i = .entering ∨ s.calls i = .asleep true) := fun hi => by
      obtain ⟨s', hs'⟩ := h.exists_second hreq hfree hi
      exact hfinal s' hs'
    cases hi : s.calls i with
    | idle => exact Or.inl rfl
    | returned => exact Or.inr (Or.inl rfl)
    | entering => exact absurd (Or.inl hi) hsecond
    | notifying => exact absurd (.notify hi) (hfinal _)
    | joining => exact absurd (.join hi hexited) (hfinal _)
    | notifyingJoined => exact absurd (.notifyJoined hi) (hfinal _)
    | tested => exact absurd hi (hfree i)
    | asleep awake =>
      cases awake with
      | true => exact absurd (Or.inr hi) hsecond
      | false => exact Or.inr (Or.inr rfl)
  refine ⟨hexited, ?_, hplaces⟩
  -- otherwise some call is in the first branch, before the end of `join`
  by_contra hj
  obtain ⟨i, hi⟩ := h.calls.pending hreq (by simpa using hj)
  rcases hplaces i with hc | hc | hc <;> rw [hc] at hi <;> cases hi

/-- **Every run ends** once the service was asked to stop, if no call wakes up for no reason: the
thread is joined, and each call has returned or sleeps for ever. -/
theorem endsIn_returned_or_asleep {frequency : ℕ} {s : State ι}
    (h : Relation.ReflTransGen AnyStep (initial ι frequency) s) (hreq : s.Requested) :
    EndsIn QuietStep (fun s => s.service = .exited ∧
      ∀ i, s.calls i = .returned ∨ s.calls i = .asleep false) s := by
  refine endsIn_of_invariant (I := fun s => Inv s ∧ s.Requested) measure ?_ ?_
    ⟨inv_of_reach h, hreq⟩
  · rintro s s' ⟨hinv, hreq⟩ ⟨a, hstep, hquiet⟩
    exact ⟨⟨hstep.inv hinv, hstep.requested hreq⟩,
      hstep.measure_lt hinv hreq fun ha => absurd ha hquiet⟩
  · rintro s ⟨hinv, hreq⟩ hfinal
    obtain ⟨hexited, -, hplaces⟩ := hinv.final hreq fun s' hs' => hfinal s' ⟨_, hs', nofun⟩
    refine ⟨hexited, fun i => (hplaces i).resolve_left fun hi => ?_⟩
    exact hfinal _ ⟨_, .call hi (hinv.users hreq), nofun⟩

end Ends

/-! ## A call that sleeps for ever -/

section Asleep

/-- The call `false` was notified of the end of the thread and has returned. The call `true` has
missed the notification: it had tested `joinable` before and went to sleep after. -/
def lostWakeup : State Bool :=
  ⟨true, false, 1, .constructed, .exited, fun i => if i then .asleep false else .returned, 1,
    some 0⟩

/-- The end of the run, by its members. -/
theorem reach_of_members {s : State Bool}
    (h : (s.terminate, s.joinable, s.invocations, s.constructor, s.service, s.begun,
      s.requestedAt) = (true, false, 1, .constructed, .exited, 1, some 0))
    (htrue : s.calls true = .asleep false) (hfalse : s.calls false = .returned) :
    Relation.ReflTransGen QuietStep s lostWakeup := by
  have hcalls : s.calls = lostWakeup.calls := by
    funext i
    cases i
    · exact hfalse
    · exact htrue
  have heq : s = lostWakeup := by
    cases s
    simp_all [lostWakeup]
  rw [heq]

theorem lostWakeup_reach {frequency : ℕ} (hfreq : 0 < frequency) :
    Relation.ReflTransGen QuietStep (initial Bool frequency) lostWakeup := by
  rw [initial, if_pos hfreq]
  refine .head ⟨_, .start rfl fun _ => nofun, nofun⟩ ?_
  refine .head ⟨_, .constructed rfl (fun _ => nofun) rfl, nofun⟩ ?_
  refine .head ⟨_, .startNotify rfl, nofun⟩ ?_
  refine .head ⟨_, .init rfl, nofun⟩ ?_
  refine .head ⟨_, .call (i := false) rfl rfl, nofun⟩ ?_
  refine .head ⟨_, .request (i := false) rfl (fun i => by cases i <;> exact nofun) rfl, nofun⟩ ?_
  refine .head ⟨_, .notify (i := false) rfl, nofun⟩ ?_
  refine .head ⟨_, .waitNow rfl (fun i => by cases i <;> exact nofun) rfl, nofun⟩ ?_
  refine .head ⟨_, .build rfl, nofun⟩ ?_
  refine .head ⟨_, .built rfl, nofun⟩ ?_
  refine .head ⟨_, .leave rfl, nofun⟩ ?_
  refine .head ⟨_, .exit rfl, nofun⟩ ?_
  -- the second call tests `joinable` before the end of `join`, and sleeps after the notification
  refine .head ⟨_, .call (i := true) rfl rfl, nofun⟩ ?_
  refine .head ⟨_, .test (i := true) (Or.inl rfl) (fun i => by cases i <;> exact nofun)
    (fun _ => rfl) rfl, nofun⟩ ?_
  refine .head ⟨_, .join (i := false) rfl rfl, nofun⟩ ?_
  refine .head ⟨_, .notifyJoined (i := false) rfl, nofun⟩ ?_
  refine .head ⟨_, .sleep (i := true) rfl, nofun⟩ ?_
  exact reach_of_members rfl rfl rfl

/-- **The lost notification**: without a wake-up for no reason, the call sleeps for ever. -/
theorem lostWakeup_stuck : ∀ s', ¬QuietStep lostWakeup s' := by
  rintro s' ⟨a, hstep, hquiet⟩
  have hplaces : ∀ i, lostWakeup.calls i = .asleep false ∨ lostWakeup.calls i = .returned := by
    intro i
    cases i
    · exact Or.inr rfl
    · exact Or.inl rfl
  cases hstep with
  | constructSpurious => exact hquiet rfl
  | waitSpurious => exact hquiet rfl
  | stopSpurious => exact hquiet rfl
  | test hi | testReturn hi =>
    rcases hi with hi | hi <;> rcases hplaces _ with hc | hc <;> cases hi.symm.trans hc
  | call hi | request hi | notify hi | join hi | notifyJoined hi | sleep hi =>
    rcases hplaces _ with hc | hc <;> cases hi.symm.trans hc
  | constructed hc | constructRecheck hc => cases hc
  | _ hb => cases hb

/-- The call of that run which returned finds the thread terminated, after one build. -/
theorem served_lostWakeup :
    lostWakeup.invocations = 1 ∧ lostWakeup.service = .exited ∧
      ∀ s', Relation.ReflTransGen AnyStep lostWakeup s' → s'.begun = 1 := by
  have hreach : Relation.ReflTransGen AnyStep (initial Bool 1) lostWakeup :=
    Relation.ReflTransGen.mono (fun _ _ ⟨a, hstep, _⟩ => ⟨a, hstep⟩) _ _
      (lostWakeup_reach Nat.one_pos)
  obtain ⟨hcount, -, hservice, hlater⟩ := served hreach (i := false) rfl
  exact ⟨hcount, (hservice Nat.one_pos).1, fun s' hs' => (hlater s' hs').1⟩

end Asleep

/-! ## Calls that do not overlap -/

section Sequential

/-- **The invariant of calls that do not overlap**: at most one of them is active, and none is in
the second branch. -/
structure Sequential (calls : ι → Call) : Prop where
  active : ∀ i j, (calls i).Active → (calls j).Active → i = j
  later : ∀ i, (calls i).kind ≠ .later

/-- A move of the call that is active. -/
theorem Sequential.move {calls : ι → Call} (h : Sequential calls) {i : ι} {c : Call}
    (hi : ∀ j, (calls j).Active → j = i) (hc : c.kind ≠ .later) :
    Sequential (Function.update calls i c) where
  active j k hj hk := by
    have honly : ∀ j, (Function.update calls i c j).Active → j = i := fun j hj => by
      by_contra hij
      rw [Function.update_of_ne hij] at hj
      exact hij (hi j hj)
    exact (honly j hj).trans (honly k hk).symm
  later j := by
    by_cases hij : j = i
    · subst hij
      rwa [Function.update_self]
    · rw [Function.update_of_ne hij]
      exact h.later j

omit [DecidableEq ι] in
theorem Sequential.wake {calls : ι → Call} (h : Sequential calls) :
    Sequential fun i => (calls i).wake := by
  have hactive : ∀ c : Call, c.wake.Active → c.Active := fun c hc => by
    cases c <;> first | exact hc | exact ⟨nofun, nofun⟩
  exact ⟨fun i j hi hj => h.active i j (hactive _ hi) (hactive _ hj),
    fun i => by rw [Call.kind_wake]; exact h.later i⟩

/-- **Calls that do not overlap** keep the invariant: when the second one enters, the thread was
joined by the first. -/
theorem SequentialStep.sequential {s s' : State ι} (hstep : SequentialStep s s') (h : Inv s)
    (hseq : Sequential s.calls) : Sequential s'.calls := by
  have honly : ∀ {i}, (s.calls i).Active → ∀ j, (s.calls j).Active → j = i := fun hi j hj =>
    hseq.active j _ hj hi
  obtain ⟨a, hstep, hcall⟩ := hstep
  cases hstep with
  | @call _ i hi hc => exact hseq.move (fun j hj => absurd hj (hcall i rfl j)) nofun
  | request hi => exact hseq.move (honly (by rw [hi]; exact ⟨nofun, nofun⟩)) nofun
  | join hi => exact hseq.move (honly (by rw [hi]; exact ⟨nofun, nofun⟩)) nofun
  | @notify _ i hi =>
    refine hseq.wake.move (fun j hj => hseq.wake.active j i hj ?_) nofun
    simp [hi, Call.wake, Call.Active]
  | @notifyJoined _ i hi =>
    refine hseq.wake.move (fun j hj => hseq.wake.active j i hj ?_) nofun
    simp [hi, Call.wake, Call.Active]
  | @test _ i hi hfree ht hj =>
    rcases hi with hi | hi
    · have hreq := (h.requested (h.constructed i (by simp [hi])) (ht hi)).resolve_right
        (by simp [hj])
      -- the first call is still in its branch, so that two of them are active
      obtain ⟨j, hkind⟩ := h.calls.pending hreq hj
      have hactive : (s.calls j).Active := by
        refine ⟨fun hc => ?_, fun hc => ?_⟩ <;>
        · rw [hc] at hkind
          cases hkind
      obtain rfl := honly (i := i) (by rw [hi]; exact ⟨nofun, nofun⟩) j hactive
      rw [hi] at hkind
      cases hkind
    · exact absurd (by rw [hi]; rfl) (hseq.later i)
  | @sleep _ i hi => exact absurd (by rw [hi]; rfl) (hseq.later i)
  | @testReturn _ i hi =>
    refine hseq.move (honly ?_) nofun
    rcases hi with hi | hi <;> rw [hi] <;> exact ⟨nofun, nofun⟩
  | @stopSpurious _ i hi => exact absurd (by rw [hi]; rfl) (hseq.later i)
  | startNotify => exact hseq.wake
  | _ => exact hseq

theorem sequential_of_reach {frequency : ℕ} {s : State ι}
    (h : Relation.ReflTransGen SequentialStep (initial ι frequency) s) :
    Inv s ∧ Sequential s.calls := by
  refine reachable_invariant (I := fun s => Inv s ∧ Sequential s.calls)
    ⟨inv_initial frequency, ?_⟩ (fun s s' hs hstep => ?_) h
  · have hidle : (initial ι frequency).calls = fun _ => .idle := by
      unfold initial
      split_ifs <;> rfl
    rw [hidle]
    exact ⟨fun i _ hi => absurd rfl hi.1, fun _ => nofun⟩
  · have hseq := hstep.sequential hs.1 hs.2
    obtain ⟨a, hstep, -⟩ := hstep
    exact ⟨hstep.inv hs.1, hseq⟩

/-- **Calls that do not overlap return**: once the service was asked to stop, every run ends, with
the thread joined and each call returned. -/
theorem endsIn_returned [Fintype ι] {frequency : ℕ} {s : State ι}
    (h : Relation.ReflTransGen SequentialStep (initial ι frequency) s) (hreq : s.Requested) :
    EndsIn SequentialStep (fun s => s.service = .exited ∧ s.joinable = false ∧
      ∀ i, s.calls i = .returned) s := by
  refine endsIn_of_invariant (I := fun s => (Inv s ∧ Sequential s.calls) ∧ s.Requested) measure
    ?_ ?_ ⟨sequential_of_reach h, hreq⟩
  · rintro s s' ⟨⟨hinv, hseq⟩, hreq⟩ hstep
    have hseq' := hstep.sequential hinv hseq
    obtain ⟨a, hstep, -⟩ := hstep
    refine ⟨⟨⟨hstep.inv hinv, hseq'⟩, hstep.requested hreq⟩,
      hstep.measure_lt hinv hreq fun _ i hi => hseq.later i (by rw [hi]; rfl)⟩
  · rintro s ⟨⟨hinv, hseq⟩, hreq⟩ hfinal
    obtain ⟨hexited, hj, hplaces⟩ := hinv.final hreq fun s' hs' => hfinal s' ⟨_, hs', nofun⟩
    have hawake : ∀ i, s.calls i ≠ .asleep false := fun i hi => hseq.later i (by rw [hi]; rfl)
    refine ⟨hexited, hj, fun i => ((hplaces i).resolve_left fun hi => ?_).resolve_right (hawake i)⟩
    -- a call that was not made can be made now
    refine hfinal _ ⟨_, .call hi (hinv.users hreq), fun _ _ j hj => ?_⟩
    rcases hplaces j with hc | hc | hc
    · exact hj.1 hc
    · exact hj.2 hc
    · exact hawake j hc

/-- A run of one call up to its request. -/
theorem requested_reach :
    Relation.ReflTransGen SequentialStep (initial Unit 1)
      ⟨true, true, 0, .constructed, .notifying, fun _ => .notifying, 0, some 0⟩ := by
  refine .head ⟨_, .start rfl fun _ => nofun, nofun⟩ ?_
  refine .head ⟨_, .constructed rfl (fun _ => nofun) rfl, nofun⟩ ?_
  refine .head ⟨_, .call (i := ()) rfl rfl, fun _ _ _ hactive => hactive.1 rfl⟩ ?_
  refine .head ⟨_, .request (i := ()) rfl (fun _ => nofun) rfl, nofun⟩ ?_
  simp only [State.move]
  exact .refl

/-- The call of that run returns, after the end of the thread. -/
theorem endsIn_returned_unit :
    EndsIn SequentialStep (fun s : State Unit => s.service = .exited ∧ s.joinable = false ∧
        ∀ i, s.calls i = .returned)
      ⟨true, true, 0, .constructed, .notifying, fun _ => .notifying, 0, some 0⟩ :=
  endsIn_returned requested_reach nofun

end Sequential

end BuildThread

end GfeDriver
