import GfeDriver.Foundation.Runs

/-!
# The hand-off of tasks to a worker

The master and the background thread of a worker share one slot, `m_task`. The master writes a
request into it and the thread resets it to `IDLE` once the request is done, so the slot is at once
the request, the mark that the worker is busy and the mark that the request is complete. Both sides
wait on one condition variable. `START` and `STOP` are written into the same slot.

The sections under the mutex are atomic steps. A thread that waits is asleep until it is notified,
or until it wakes up for no reason, and then tests its predicate again. The assertions are compiled
out, as in an optimised build: `set_task_async` also tests that the slot is free, but `stop` does
not. When it is called before the thread has fetched a request, it overwrites the request. When it
is called later, while the thread executes the request, the request is done and the `STOP` is lost.

## Main definitions

* `Task`, `State`, `Step`: the two threads
* `Handoff R`: the protocol, for the runs with the steps `R`
* `AnyStep`: the steps of every run
* `FetchedStop`: the steps in which `stop` is called only when each accepted task was fetched

## Main results

* `Inv.step`: what the slot, the request in flight and the two threads keep in each step
* `handoff_iff`: the runs for which the protocol holds are those of `FetchedStop`
* `not_handoff`: it does not hold when `stop` may be called at any time
-/

namespace GfeDriver

namespace WorkerThread

open Foundation

/-! ## The program -/

/-- `TaskOp`. -/
inductive TaskOp
  | idle
  | start
  | stop
  | loadEdges
  | executeUpdates
  | removeVertices
  | setArrayLatencies
  | executeTrueUpdates
  deriving DecidableEq

/-- The operations that the interface of a worker submits. -/
def TaskOp.IsRequest : TaskOp → Prop
  | .idle | .start | .stop => False
  | _ => True

instance : DecidablePred TaskOp.IsRequest := fun op => by
  cases op <;> unfold TaskOp.IsRequest <;> infer_instance

/-- `Task`, with its payload. -/
structure Task where
  type : TaskOp
  payload : ℕ
  payloadSz : ℕ
  deriving DecidableEq

/-- `Task{TaskOp::IDLE, nullptr, 0}`. -/
def Task.none : Task := ⟨.idle, 0, 0⟩

/-- Where the master is: before `start`, in the wait of `start`, between two calls, before the
notification of `set_task_async`, in `wait`, in the wait with a deadline, before the notification of
`stop`, in `join`, or after it. -/
inductive Master
  | new
  | starting (awake : Bool)
  | ready
  | notifying
  | waiting (awake : Bool)
  | timedWaiting
  | stopNotifying
  | joining
  | stopped
  deriving DecidableEq

/-- Where the background thread is: not created, about to reset the slot at the top of its loop, in
the wait for a task, executing a task, about to reset the slot for the last time, or terminated. -/
inductive Background
  | absent
  | resetting
  | waiting (awake : Bool)
  | executing (task : Task)
  | exiting
  | exited
  deriving DecidableEq

/-- The slot, the two threads, the tasks accepted and completed so far, and whether the last
accepted task was not fetched yet. -/
structure State where
  task : Task
  master : Master
  background : Background
  accepted : List Task
  completed : List Task
  unfetched : Bool

/-- The error of `set_task_async`. -/
def busyError : String := "Background thread already busy performing another operation"

/-- The critical section of `set_task_async`. -/
def setTaskAsync (s : State) (task : Task) : Except String State :=
  if s.task.type ≠ .idle then .error busyError
  else .ok { s with
    task := task
    master := .notifying
    accepted := s.accepted ++ [task]
    unfetched := true }

/-- `m_condvar.notify_all()`: the threads that wait are woken up. -/
def notifyMaster : Master → Master
  | .starting _ => .starting true
  | .waiting _ => .waiting true
  | m => m

/-- `m_condvar.notify_all()`: the threads that wait are woken up. -/
def notifyBackground : Background → Background
  | .waiting _ => .waiting true
  | b => b

/-- What a step is: a call by the master, its return, or a step of one of the threads. -/
inductive Action
  | start
  | startReturn
  | setTask (task : Task)
  | raise (task : Task)
  | notify
  | wait
  | waitReturn
  | timedWait
  | timedWaitReturn (done : Bool)
  | stop
  | joinReturn
  | recheck
  | reset
  | fetch
  | finish
  | exit
  | spurious
  deriving DecidableEq

/-- **The steps** of the two threads. -/
inductive Step : Action → State → State → Prop
  /-- `start`, up to its wait. -/
  | start {s : State} (hm : s.master = .new) :
      Step .start s { s with
        task := { s.task with type := .start }
        master := .starting false
        background := .resetting }
  | startReturn {s : State} (hm : s.master = .starting true) (hidle : s.task.type = .idle) :
      Step .startReturn s { s with master := .ready }
  | startRecheck {s : State} (hm : s.master = .starting true) (hbusy : s.task.type ≠ .idle) :
      Step .recheck s { s with master := .starting false }
  /-- `set_task_async` on an idle worker. -/
  | setTask {s s' : State} {task : Task} (hm : s.master = .ready) (hrequest : task.type.IsRequest)
      (hset : setTaskAsync s task = .ok s') : Step (.setTask task) s s'
  /-- `set_task_async` on a busy worker raises an error. -/
  | raise {s : State} {task : Task} (hm : s.master = .ready) (hrequest : task.type.IsRequest)
      (hset : setTaskAsync s task = .error busyError) : Step (.raise task) s s
  | notify {s : State} (hm : s.master = .notifying) :
      Step .notify s { s with master := .ready, background := notifyBackground s.background }
  /-- `wait`, whose predicate is tested before it sleeps. -/
  | waitReturnNow {s : State} (hm : s.master = .ready) (hidle : s.task.type = .idle) :
      Step .waitReturn s s
  | wait {s : State} (hm : s.master = .ready) (hbusy : s.task.type ≠ .idle) :
      Step .wait s { s with master := .waiting false }
  | waitReturn {s : State} (hm : s.master = .waiting true) (hidle : s.task.type = .idle) :
      Step .waitReturn s { s with master := .ready }
  | waitRecheck {s : State} (hm : s.master = .waiting true) (hbusy : s.task.type ≠ .idle) :
      Step .recheck s { s with master := .waiting false }
  /-- `wait` with a deadline, which may pass at any time. -/
  | timedWait {s : State} (hm : s.master = .ready) :
      Step .timedWait s { s with master := .timedWaiting }
  | timedWaitReturn {s : State} (hm : s.master = .timedWaiting) :
      Step (.timedWaitReturn (s.task.type = .idle)) s { s with master := .ready }
  /-- The critical section of `stop`. -/
  | stop {s : State} (hm : s.master = .ready) :
      Step .stop s { s with task := { s.task with type := .stop }, master := .stopNotifying }
  | stopNotify {s : State} (hm : s.master = .stopNotifying) :
      Step .notify s { s with master := .joining, background := notifyBackground s.background }
  | joinReturn {s : State} (hm : s.master = .joining) (hexited : s.background = .exited) :
      Step .joinReturn s { s with master := .stopped }
  /-- The top of the loop of `main_thread`, up to its wait. -/
  | reset {s : State} (hb : s.background = .resetting) :
      Step .reset s { s with
        task := Task.none
        master := notifyMaster s.master
        background := .waiting false }
  | fetch {s : State} (hb : s.background = .waiting true) (htask : s.task.type ≠ .idle) :
      Step .fetch s { s with background := .executing s.task, unfetched := false }
  | fetchRecheck {s : State} (hb : s.background = .waiting true) (hidle : s.task.type = .idle) :
      Step .recheck s { s with background := .waiting false }
  /-- The `switch` of `main_thread`. -/
  | finishRequest {s : State} {task : Task} (hb : s.background = .executing task)
      (hrequest : task.type.IsRequest) :
      Step .finish s { s with background := .resetting, completed := s.completed ++ [task] }
  | finishStop {s : State} {task : Task} (hb : s.background = .executing task)
      (hstop : task.type = .stop) : Step .finish s { s with background := .exiting }
  | finishOther {s : State} {task : Task} (hb : s.background = .executing task)
      (hother : task.type = .idle ∨ task.type = .start) :
      Step .finish s { s with background := .resetting }
  /-- The end of `main_thread`. -/
  | exit {s : State} (hb : s.background = .exiting) :
      Step .exit s { s with
        task := Task.none
        master := notifyMaster s.master
        background := .exited }
  | spuriousStart {s : State} (hm : s.master = .starting false) :
      Step .spurious s { s with master := .starting true }
  | spuriousWait {s : State} (hm : s.master = .waiting false) :
      Step .spurious s { s with master := .waiting true }
  | spuriousFetch {s : State} (hb : s.background = .waiting false) :
      Step .spurious s { s with background := .waiting true }

/-- A worker before `start`. -/
def initial : State := ⟨Task.none, .new, .absent, [], [], false⟩

/-- A step of any run. -/
def AnyStep (s s' : State) : Prop := ∃ a, Step a s s'

/-- A step of a run in which `stop` is called only when each accepted task was fetched. -/
def FetchedStop (s s' : State) : Prop := ∃ a, Step a s s' ∧ (a = .stop → s.unfetched = false)

/-! ## The protocol -/

/-- The accepted task that is not complete. -/
def inFlight (s : State) : List Task :=
  match s.background with
  | .executing task => if task.type.IsRequest then [task] else []
  | .waiting _ => if s.task.type.IsRequest then [s.task] else []
  | _ => []

/-- **The protocol**, for the runs with the steps `R`. -/
structure Handoff (R : State → State → Prop) : Prop where
  /-- The accepted tasks are executed once and in order. -/
  once : ∀ s, Relation.ReflTransGen R initial s → s.accepted = s.completed ++ inFlight s
  /-- While a task is in flight, the background thread is awake or about to be notified. -/
  responsive : ∀ s, Relation.ReflTransGen R initial s → inFlight s ≠ [] →
    ∃ a s', Step a s s' ∧ (a = .fetch ∨ a = .finish ∨ a = .notify)
  /-- A task is not overwritten before it is fetched. -/
  kept : ∀ s s', Relation.ReflTransGen R initial s → R s s' → s.unfetched = true →
    s'.task = s.task
  /-- A busy worker rejects a task, and its slot is unchanged. -/
  rejects : ∀ s task, Relation.ReflTransGen R initial s →
    (s.task.type ≠ .idle ∨ inFlight s ≠ []) →
    setTaskAsync s task = .error busyError ∧ ∀ s', Step (.raise task) s s' → s'.task = s.task
  /-- `wait` returns when all the accepted tasks are complete. -/
  waits : ∀ s s', Relation.ReflTransGen R initial s →
    (Step .waitReturn s s' ∨ Step (.timedWaitReturn true) s s') → s'.completed = s'.accepted
  /-- The slot is not idle when the background thread is about to reset it. -/
  resets : ∀ s, Relation.ReflTransGen R initial s →
    (s.background = .resetting ∨ s.background = .exiting) → s.task.type ≠ .idle

/-! ## The invariant -/

section Invariant

/-- The master has called `start`, and not `stop`. -/
def Master.Active : Master → Prop
  | .starting _ | .ready | .notifying | .waiting _ | .timedWaiting => True
  | _ => False

/-- The master is in `stop`. -/
def Master.Stopping : Master → Prop
  | .stopNotifying | .joining => True
  | _ => False

/-- The request in a slot, if any. -/
def request (task : Task) : List Task := if task.type.IsRequest then [task] else []

/-- **The invariant**, for each place of the background thread. -/
def Inv (s : State) : Prop :=
  match s.background with
  | .absent => s.master = .new ∧ s.accepted = s.completed ∧ s.unfetched = false
  | .resetting => s.task.type ≠ .idle ∧ s.accepted = s.completed ∧ s.unfetched = false ∧
      (s.master.Active ∨ s.master.Stopping)
  | .waiting awake => s.accepted = s.completed ++ request s.task ∧
      (s.unfetched = true ↔ s.task.type.IsRequest) ∧
      (awake = false → s.task.type ≠ .idle → s.master = .notifying ∨ s.master = .stopNotifying) ∧
      s.task.type ≠ .start ∧ (s.task.type = .stop → s.master.Stopping) ∧
      (s.task.type ≠ .stop → s.master.Active ∨ s.task.type = .idle ∧ s.master.Stopping)
  | .executing task => s.accepted = s.completed ++ request task ∧ s.unfetched = false ∧
      (s.task = task ∧ task.type.IsRequest ∧ s.master.Active ∨
        s.task.type = .stop ∧ (task.type.IsRequest ∨ task.type = .stop) ∧ s.master.Stopping)
  | .exiting => s.task.type = .stop ∧ s.accepted = s.completed ∧ s.unfetched = false ∧
      s.master.Stopping
  | .exited => s.accepted = s.completed ∧ s.unfetched = false ∧
      (s.master.Stopping ∨ s.master = .stopped)

theorem Master.Active.not_stopping {m : Master} (h : m.Active) : ¬m.Stopping := by
  cases m <;> simp_all [Active, Stopping]

theorem Master.Active.notify {m : Master} (h : m.Active) : (notifyMaster m).Active := by
  cases m <;> simp_all [Active, notifyMaster]

theorem Master.Stopping.notify {m : Master} (h : m.Stopping) : (notifyMaster m).Stopping := by
  cases m <;> simp_all [Stopping, notifyMaster]

theorem TaskOp.IsRequest.ne_idle {op : TaskOp} (h : op.IsRequest) : op ≠ .idle := by
  rintro rfl
  exact h

theorem TaskOp.IsRequest.ne_stop {op : TaskOp} (h : op.IsRequest) : op ≠ .stop := by
  rintro rfl
  exact h

theorem TaskOp.IsRequest.ne_start {op : TaskOp} (h : op.IsRequest) : op ≠ .start := by
  rintro rfl
  exact h

theorem request_of_isRequest {task : Task} (h : task.type.IsRequest) : request task = [task] :=
  if_pos h

theorem request_of_idle {task : Task} (h : task.type = .idle) : request task = [] := by
  rw [request, h]
  rfl

theorem request_of_stop {task : Task} (h : task.type = .stop) : request task = [] := by
  rw [request, h]
  rfl

/-- An active master is not where it was before `start` or after `stop`. -/
theorem Master.Active.ne {m : Master} (h : m.Active) : m ≠ .new ∧ m ≠ .stopped := by
  cases m <;> simp_all [Active]

/-- The background thread is in its loop while the master is active. -/
theorem Inv.background_of_active {s : State} (h : Inv s) (hactive : s.master.Active) :
    s.background = .resetting ∨ (∃ awake, s.background = .waiting awake) ∨
      ∃ task, s.background = .executing task := by
  cases hb : s.background with
  | absent =>
    simp only [Inv, hb] at h
    exact absurd h.1 hactive.ne.1
  | resetting => exact Or.inl rfl
  | waiting awake => exact Or.inr (Or.inl ⟨awake, rfl⟩)
  | executing task => exact Or.inr (Or.inr ⟨task, rfl⟩)
  | exiting =>
    simp only [Inv, hb] at h
    exact absurd h.2.2.2 hactive.not_stopping
  | exited =>
    simp only [Inv, hb] at h
    obtain ⟨-, -, hstop | hstopped⟩ := h
    · exact absurd hstop hactive.not_stopping
    · exact absurd hstopped hactive.ne.2

/-- A step of the master that moves it between active places keeps the invariant. -/
theorem Inv.move {s : State} (h : Inv s) {m : Master} (hactive : s.master.Active) (hm : m.Active)
    (hkeep : s.background = .waiting false → s.task.type ≠ .idle → m = .notifying) :
    Inv { s with master := m } := by
  rcases h.background_of_active hactive with hb | ⟨awake, hb⟩ | ⟨task, hb⟩
  · simp only [Inv, hb] at h ⊢
    exact ⟨h.1, h.2.1, h.2.2.1, Or.inl hm⟩
  · simp only [Inv, hb] at h ⊢
    obtain ⟨hacc, hunf, -, hstart, hstop, -⟩ := h
    refine ⟨hacc, hunf, fun ha hne => Or.inl (hkeep (ha ▸ hb) hne), hstart, fun hc => ?_,
      fun _ => Or.inl hm⟩
    exact absurd (hstop hc) hactive.not_stopping
  · simp only [Inv, hb] at h ⊢
    obtain ⟨hacc, hunf, ⟨ht, hreq, -⟩ | ⟨-, -, hstop⟩⟩ := h
    · exact ⟨hacc, hunf, Or.inl ⟨ht, hreq, hm⟩⟩
    · exact absurd hstop hactive.not_stopping

/-- The thread is asleep beside a task only until it is notified of it. -/
theorem Inv.asleep {s : State} (h : Inv s) (hb : s.background = .waiting false)
    (hne : s.task.type ≠ .idle) : s.master = .notifying ∨ s.master = .stopNotifying := by
  simp only [Inv, hb] at h
  exact h.2.2.1 trivial hne

/-- The same, from a place other than the notification. -/
theorem Inv.move_of_ne {s : State} (h : Inv s) {m : Master} (hactive : s.master.Active)
    (hne : s.master ≠ .notifying) (hm : m.Active) : Inv { s with master := m } := by
  refine h.move hactive hm fun hb hbusy => ?_
  rcases h.asleep hb hbusy with hc | hc
  · exact absurd hc hne
  · rw [hc] at hactive
    exact absurd hactive id

/-- An idle slot belongs to a waiting thread, while the master is active. -/
theorem Inv.waiting_of_idle {s : State} (h : Inv s) (hactive : s.master.Active)
    (hidle : s.task.type = .idle) : ∃ awake, s.background = .waiting awake := by
  rcases h.background_of_active hactive with hb | ⟨awake, hb⟩ | ⟨task, hb⟩
  · simp only [Inv, hb] at h
    exact absurd hidle h.1
  · exact ⟨awake, hb⟩
  · simp only [Inv, hb] at h
    -- a task under execution stays in the slot until it is done or overwritten
    obtain ⟨-, -, ⟨rfl, hreq, -⟩ | ⟨hstop, -⟩⟩ := h
    · exact absurd hidle hreq.ne_idle
    · rw [hstop] at hidle
      cases hidle

/-- In front of a waiting thread the slot is idle, once the last accepted task was fetched. -/
theorem Inv.idle_of_fetched {s : State} (h : Inv s) (hactive : s.master.Active) {awake : Bool}
    (hb : s.background = .waiting awake) (hunf : s.unfetched = false) : s.task.type = .idle := by
  simp only [Inv, hb] at h
  obtain ⟨-, hiff, -, hstart, hstop, -⟩ := h
  have hnot : ¬s.task.type.IsRequest := fun hc => by simpa [hunf] using hiff.mpr hc
  cases htype : s.task.type with
  | idle => rfl
  | start => exact absurd htype hstart
  | stop => exact absurd (hstop htype) hactive.not_stopping
  | _ => exact absurd (htype ▸ trivial) hnot

/-- While the master is in `stop`, it keeps the invariant. -/
theorem Inv.of_stopping {s : State} (h : Inv s) (hstop : s.master.Stopping) {m : Master}
    (hm : m.Stopping) (hkeep : s.background = .waiting false → s.task.type ≠ .idle →
      m = .stopNotifying) : Inv { s with master := m } := by
  have hactive : ¬s.master.Active := fun hc => hc.not_stopping hstop
  cases hb : s.background with
  | absent =>
    simp only [Inv, hb] at h
    rw [h.1] at hstop
    exact absurd hstop id
  | resetting =>
    simp only [Inv, hb] at h ⊢
    exact ⟨h.1, h.2.1, h.2.2.1, Or.inr hm⟩
  | waiting awake =>
    simp only [Inv, hb] at h ⊢
    obtain ⟨hacc, hunf, -, hstart, -, hact⟩ := h
    refine ⟨hacc, hunf, fun ha hne => Or.inr (hkeep (ha ▸ hb) hne), hstart, fun _ => hm,
      fun hc => ?_⟩
    -- the thread has reset the slot over the `STOP`
    rcases hact hc with hact | ⟨hidle, -⟩
    · exact absurd hact hactive
    · exact Or.inr ⟨hidle, hm⟩
  | executing t =>
    simp only [Inv, hb] at h ⊢
    obtain ⟨hacc, hunf, ⟨-, -, hact⟩ | ⟨htype, ht, -⟩⟩ := h
    · exact absurd hact hactive
    · exact ⟨hacc, hunf, Or.inr ⟨htype, ht, hm⟩⟩
  | exiting =>
    simp only [Inv, hb] at h ⊢
    exact ⟨h.1, h.2.1, h.2.2.1, hm⟩
  | exited =>
    simp only [Inv, hb] at h ⊢
    exact ⟨h.1, h.2.1, Or.inl hm⟩

/-- `stop` keeps the invariant, if the last accepted task was fetched. -/
theorem Inv.stop {s : State} (h : Inv s) (hm : s.master = .ready) (hunf : s.unfetched = false) :
    Inv { s with task := { s.task with type := .stop }, master := .stopNotifying } := by
  have hactive : s.master.Active := hm ▸ trivial
  rcases h.background_of_active hactive with hb | ⟨awake, hb⟩ | ⟨task, hb⟩
  · simp only [Inv, hb] at h ⊢
    exact ⟨by simp, h.2.1, hunf, Or.inr trivial⟩
  · have hidle := h.idle_of_fetched hactive hb hunf
    simp only [Inv, hb] at h ⊢
    refine ⟨?_, by simp [hunf, TaskOp.IsRequest], fun _ _ => Or.inr trivial, by simp,
      fun _ => trivial, fun hc => absurd rfl hc⟩
    rw [h.1, request_of_idle hidle, request_of_stop rfl]
  · simp only [Inv, hb] at h ⊢
    -- the thread executes its own copy of the request
    obtain ⟨hacc, -, ⟨-, hreq, -⟩ | ⟨-, -, hstop⟩⟩ := h
    · exact ⟨hacc, hunf, Or.inr ⟨trivial, Or.inl hreq, trivial⟩⟩
    · exact absurd hstop hactive.not_stopping

/-- A notification or a wake-up of the background thread keeps the invariant. -/
theorem Inv.notify {s : State} (h : Inv s) :
    Inv { s with background := notifyBackground s.background } := by
  cases hb : s.background with
  | waiting awake =>
    simp only [Inv, hb, notifyBackground] at h ⊢
    obtain ⟨hacc, hunf, -, hrest⟩ := h
    exact ⟨hacc, hunf, fun ha => Bool.noConfusion ha, hrest⟩
  | absent => simpa only [Inv, hb, notifyBackground] using h
  | resetting => simpa only [Inv, hb, notifyBackground] using h
  | executing t => simpa only [Inv, hb, notifyBackground] using h
  | exiting => simpa only [Inv, hb, notifyBackground] using h
  | exited => simpa only [Inv, hb, notifyBackground] using h

theorem notifyBackground_ne (b : Background) : notifyBackground b ≠ .waiting false := by
  cases b <;> simp [notifyBackground]

/-- `start` keeps the invariant. -/
theorem Inv.start {s : State} (h : Inv s) (hm : s.master = .new) :
    Inv { s with
      task := { s.task with type := .start }
      master := .starting false
      background := .resetting } := by
  cases hb : s.background with
  | absent =>
    simp only [Inv, hb] at h ⊢
    exact ⟨by simp, h.2.1, h.2.2, Or.inl trivial⟩
  | resetting => simp [Inv, hb, hm, Master.Active, Master.Stopping] at h
  | waiting awake =>
    simp only [Inv, hb, hm] at h
    -- the master is neither before `stop` nor in it
    by_cases hc : s.task.type = .stop
    · exact absurd (h.2.2.2.2.1 hc) id
    · rcases h.2.2.2.2.2 hc with hact | ⟨-, hstop⟩
      · exact absurd hact id
      · exact absurd hstop id
  | executing t => simp [Inv, hb, hm, Master.Active, Master.Stopping] at h
  | exiting => simp [Inv, hb, hm, Master.Stopping] at h
  | exited => simp [Inv, hb, hm, Master.Stopping] at h

/-- `set_task_async` keeps the invariant: the slot was idle, so that the thread waits and every task
before is complete. -/
theorem Inv.setTask {s s' : State} {task : Task} (h : Inv s) (hm : s.master = .ready)
    (hrequest : task.type.IsRequest) (hset : setTaskAsync s task = .ok s') : Inv s' := by
  unfold setTaskAsync at hset
  split_ifs at hset with hbusy
  obtain rfl := Except.ok.inj hset
  obtain ⟨awake, hb⟩ := h.waiting_of_idle (hm ▸ trivial) (not_not.mp hbusy)
  simp only [Inv, hb] at h ⊢
  refine ⟨?_, iff_of_true trivial hrequest, fun _ _ => Or.inl trivial, hrequest.ne_start,
    fun hc => absurd hc hrequest.ne_stop, fun _ => Or.inl trivial⟩
  rw [h.1, request_of_idle (not_not.mp hbusy), request_of_isRequest hrequest, List.append_nil]

/-- The reset of the slot keeps the invariant. -/
theorem Inv.reset {s : State} (h : Inv s) (hb : s.background = .resetting) :
    Inv { s with
      task := Task.none
      master := notifyMaster s.master
      background := .waiting false } := by
  simp only [Inv, hb] at h ⊢
  obtain ⟨-, hacc, hunf, hmaster⟩ := h
  refine ⟨by rw [hacc]; exact (List.append_nil _).symm, ?_, fun _ hc => absurd rfl hc,
    by simp [Task.none], fun hc => by simp [Task.none] at hc, fun _ => ?_⟩
  · simp [hunf, Task.none, TaskOp.IsRequest]
  · exact hmaster.imp (fun hact => hact.notify) fun hstop => ⟨rfl, hstop.notify⟩

/-- The thread fetches a request or the stop. -/
theorem Inv.fetch {s : State} (h : Inv s) (hb : s.background = .waiting true)
    (htask : s.task.type ≠ .idle) :
    Inv { s with background := .executing s.task, unfetched := false } := by
  simp only [Inv, hb] at h ⊢
  obtain ⟨hacc, -, -, hstart, hstop, hact⟩ := h
  refine ⟨hacc, trivial, ?_⟩
  by_cases hc : s.task.type = .stop
  · exact Or.inr ⟨hc, Or.inr hc, hstop hc⟩
  · rcases hact hc with hact | ⟨hidle, -⟩
    · refine Or.inl ⟨trivial, ?_, hact⟩
      cases htype : s.task.type <;> simp_all [TaskOp.IsRequest]
    · exact absurd hidle htask

/-- The end of a request keeps the invariant. -/
theorem Inv.finishRequest {s : State} {task : Task} (h : Inv s)
    (hb : s.background = .executing task) (hrequest : task.type.IsRequest) :
    Inv { s with background := .resetting, completed := s.completed ++ [task] } := by
  simp only [Inv, hb] at h ⊢
  obtain ⟨hacc, hunf, hslot⟩ := h
  rw [request_of_isRequest hrequest] at hacc
  rcases hslot with ⟨ht, -, hact⟩ | ⟨hstop, -, hstopping⟩
  · exact ⟨ht ▸ hrequest.ne_idle, hacc, hunf, Or.inl hact⟩
  · exact ⟨by simp [hstop], hacc, hunf, Or.inr hstopping⟩

/-- The thread leaves its loop. -/
theorem Inv.finishStop {s : State} {task : Task} (h : Inv s)
    (hb : s.background = .executing task) (hstop : task.type = .stop) :
    Inv { s with background := .exiting } := by
  simp only [Inv, hb] at h ⊢
  obtain ⟨hacc, hunf, ⟨-, hreq, -⟩ | ⟨htype, -, hstopping⟩⟩ := h
  · exact absurd hstop hreq.ne_stop
  · exact ⟨htype, by rw [hacc, request_of_stop hstop, List.append_nil], hunf, hstopping⟩

/-- Only requests and the stop are executed. -/
theorem Inv.isRequest_or_stop {s : State} {task : Task} (h : Inv s)
    (hb : s.background = .executing task) : task.type.IsRequest ∨ task.type = .stop := by
  simp only [Inv, hb] at h
  obtain ⟨-, -, ⟨-, hreq, -⟩ | ⟨-, ht, -⟩⟩ := h
  · exact Or.inl hreq
  · exact ht

/-- Each step keeps the invariant, if `stop` is called only when each accepted task was fetched. -/
theorem Inv.step {a : Action} {s s' : State} (h : Inv s) (hstep : Step a s s')
    (hfetched : a = .stop → s.unfetched = false) : Inv s' := by
  cases hstep with
  | start hm => exact h.start hm
  | startReturn hm hidle =>
    exact h.move_of_ne (hm ▸ trivial) (by simp [hm]) trivial
  | startRecheck hm hbusy =>
    exact h.move_of_ne (hm ▸ trivial) (by simp [hm]) trivial
  | setTask hm hrequest hset => exact h.setTask hm hrequest hset
  | raise hm hrequest hset => exact h
  | notify hm =>
    exact (h.notify).move (hm ▸ trivial) trivial fun hb _ => absurd hb (notifyBackground_ne _)
  | waitReturnNow hm hidle => exact h
  | wait hm hbusy =>
    exact h.move_of_ne (hm ▸ trivial) (by simp [hm]) trivial
  | waitReturn hm hidle =>
    exact h.move_of_ne (hm ▸ trivial) (by simp [hm]) trivial
  | waitRecheck hm hbusy =>
    exact h.move_of_ne (hm ▸ trivial) (by simp [hm]) trivial
  | timedWait hm =>
    exact h.move_of_ne (hm ▸ trivial) (by simp [hm]) trivial
  | timedWaitReturn hm =>
    exact h.move_of_ne (hm ▸ trivial) (by simp [hm]) trivial
  | stop hm => exact h.stop hm (hfetched rfl)
  | stopNotify hm =>
    exact (h.notify).of_stopping (hm ▸ trivial) trivial
      fun hb _ => absurd hb (notifyBackground_ne _)
  | joinReturn hm hexited =>
    simp only [Inv, hexited] at h ⊢
    exact ⟨h.1, h.2.1, Or.inr trivial⟩
  | reset hb => exact h.reset hb
  | fetch hb htask => exact h.fetch hb htask
  | fetchRecheck hb hidle =>
    simp only [Inv, hb] at h ⊢
    exact ⟨h.1, h.2.1, fun _ hc => absurd hidle hc, h.2.2.2⟩
  | finishRequest hb hrequest => exact h.finishRequest hb hrequest
  | finishStop hb hstop => exact h.finishStop hb hstop
  | finishOther hb hother =>
    rcases h.isRequest_or_stop hb with hreq | hstop
    · rcases hother with hc | hc
      · exact absurd hc hreq.ne_idle
      · exact absurd hc hreq.ne_start
    · simp [hstop] at hother
  | exit hb =>
    simp only [Inv, hb] at h ⊢
    exact ⟨h.2.1, h.2.2.1, Or.inl h.2.2.2.notify⟩
  | spuriousStart hm =>
    exact h.move_of_ne (hm ▸ trivial) (by simp [hm]) trivial
  | spuriousWait hm =>
    exact h.move_of_ne (hm ▸ trivial) (by simp [hm]) trivial
  | spuriousFetch hb =>
    have hwake := h.notify
    rw [hb] at hwake
    exact hwake

end Invariant

/-! ## The protocol holds -/

section Protocol

theorem inv_initial : Inv initial := ⟨rfl, rfl, rfl⟩

theorem Inv.accepted_eq {s : State} (h : Inv s) : s.accepted = s.completed ++ inFlight s := by
  cases hb : s.background with
  | absent =>
    simp only [Inv, hb] at h
    simp [inFlight, hb, h.2.1]
  | resetting =>
    simp only [Inv, hb] at h
    simp [inFlight, hb, h.2.1]
  | waiting awake =>
    simp only [Inv, hb] at h
    rw [h.1, inFlight, hb]
    rfl
  | executing t =>
    simp only [Inv, hb] at h
    rw [h.1, inFlight, hb]
    rfl
  | exiting =>
    simp only [Inv, hb] at h
    simp [inFlight, hb, h.2.1]
  | exited =>
    simp only [Inv, hb] at h
    simp [inFlight, hb, h.1]

/-- A task in flight is executed, or it is in the slot in front of a waiting thread. -/
theorem Inv.of_inFlight {s : State} (h : Inv s) (hne : inFlight s ≠ []) :
    s.task.type ≠ .idle ∧
      ((∃ task, s.background = .executing task ∧ task.type.IsRequest) ∨
        ∃ awake, s.background = .waiting awake) := by
  unfold inFlight at hne
  cases hb : s.background with
  | waiting awake =>
    simp only [hb] at hne
    split_ifs at hne with hreq
    · exact ⟨hreq.ne_idle, Or.inr ⟨awake, rfl⟩⟩
    · exact absurd rfl hne
  | executing t =>
    simp only [Inv, hb] at h
    simp only [hb] at hne
    split_ifs at hne with hreq
    · obtain ⟨-, -, ⟨rfl, -⟩ | ⟨hstop, -⟩⟩ := h
      · exact ⟨hreq.ne_idle, Or.inl ⟨_, rfl, hreq⟩⟩
      · exact ⟨by simp [hstop], Or.inl ⟨t, rfl, hreq⟩⟩
    · exact absurd rfl hne
  | absent => simp [hb] at hne
  | resetting => simp [hb] at hne
  | exiting => simp [hb] at hne
  | exited => simp [hb] at hne

theorem Inv.responsive {s : State} (h : Inv s) (hne : inFlight s ≠ []) :
    ∃ a s', Step a s s' ∧ (a = .fetch ∨ a = .finish ∨ a = .notify) := by
  obtain ⟨hbusy, ⟨task, hb, hreq⟩ | ⟨awake, hb⟩⟩ := h.of_inFlight hne
  · exact ⟨_, _, Step.finishRequest hb hreq, by simp⟩
  · cases awake with
    | true => exact ⟨_, _, Step.fetch hb hbusy, by simp⟩
    | false =>
      -- a thread asleep in front of a task has its notification to come
      rcases h.asleep hb hbusy with hm | hm
      · exact ⟨_, _, Step.notify hm, by simp⟩
      · exact ⟨_, _, Step.stopNotify hm, by simp⟩

/-- An unfetched task is a request in front of a waiting thread. -/
theorem Inv.of_unfetched {s : State} (h : Inv s) (hunf : s.unfetched = true) :
    s.task.type.IsRequest ∧ (∃ awake, s.background = .waiting awake) ∧ s.master.Active := by
  cases hb : s.background with
  | waiting awake =>
    simp only [Inv, hb] at h
    have hreq := h.2.1.mp hunf
    rcases h.2.2.2.2.2 hreq.ne_stop with hact | ⟨hidle, -⟩
    · exact ⟨hreq, ⟨awake, rfl⟩, hact⟩
    · exact absurd hidle hreq.ne_idle
  | absent => simp [Inv, hb, hunf] at h
  | resetting => simp [Inv, hb, hunf] at h
  | executing t => simp [Inv, hb, hunf] at h
  | exiting => simp [Inv, hb, hunf] at h
  | exited => simp [Inv, hb, hunf] at h

theorem Inv.kept {a : Action} {s s' : State} (h : Inv s) (hstep : Step a s s')
    (hfetched : a = .stop → s.unfetched = false) (hunf : s.unfetched = true) :
    s'.task = s.task := by
  obtain ⟨hreq, ⟨awake, hb⟩, hactive⟩ := h.of_unfetched hunf
  -- only five steps write the slot
  cases hstep with
  | start hm => exact absurd hm hactive.ne.1
  | setTask hm hrequest hset =>
    unfold setTaskAsync at hset
    rw [if_pos hreq.ne_idle] at hset
    cases hset
  | stop hm => simp [hunf] at hfetched
  | reset hb' =>
    rw [hb] at hb'
    cases hb'
  | exit hb' =>
    rw [hb] at hb'
    cases hb'
  | _ => rfl

/-- With an idle slot, all the accepted tasks are complete. -/
theorem Inv.completed_of_idle {s : State} (h : Inv s) (hactive : s.master.Active)
    (hidle : s.task.type = .idle) : s.completed = s.accepted := by
  obtain ⟨awake, hb⟩ := h.waiting_of_idle hactive hidle
  simp only [Inv, hb] at h
  rw [h.1, request_of_idle hidle, List.append_nil]

theorem Inv.waits {s s' : State} (h : Inv s)
    (hstep : Step .waitReturn s s' ∨ Step (.timedWaitReturn true) s s') :
    s'.completed = s'.accepted := by
  rcases hstep with hstep | hstep
  · cases hstep with
    | waitReturnNow hm hidle => exact h.completed_of_idle (hm ▸ trivial) hidle
    | waitReturn hm hidle => exact h.completed_of_idle (hm ▸ trivial) hidle
  · generalize ha : Action.timedWaitReturn true = a at hstep
    cases hstep with
    | timedWaitReturn hm =>
      have hidle : s.task.type = .idle := by simpa using ha
      exact h.completed_of_idle (hm ▸ trivial) hidle
    | _ => cases ha

theorem Inv.resets {s : State} (h : Inv s)
    (hb : s.background = .resetting ∨ s.background = .exiting) : s.task.type ≠ .idle := by
  rcases hb with hb | hb
  · simp only [Inv, hb] at h
    exact h.1
  · simp only [Inv, hb] at h
    rw [h.1]
    simp

section Runs

variable {R : State → State → Prop}

/-- A run in which `stop` is called only when each accepted task was fetched keeps the invariant. -/
theorem reachable_inv (hR : ∀ s s', Relation.ReflTransGen R initial s → R s s' → FetchedStop s s')
    {s : State} (h : Relation.ReflTransGen R initial s) : Inv s := by
  refine reachable_invariant_of_reachable inv_initial (fun s s' hs hinv hstep => ?_) h
  obtain ⟨a, ha, hfetched⟩ := hR s s' hs hstep
  exact hinv.step ha hfetched

/-- Where the slot is kept until it is fetched, `stop` is called after the fetch. -/
theorem fetchedStop_of_kept {s s' : State} (h : Inv s) (hstep : AnyStep s s')
    (hkept : s.unfetched = true → s'.task = s.task) : FetchedStop s s' := by
  obtain ⟨a, ha⟩ := hstep
  refine ⟨a, ha, ?_⟩
  rintro rfl
  by_contra hunf
  have hunf := Bool.eq_true_of_not_eq_false hunf
  obtain ⟨hreq, -⟩ := h.of_unfetched hunf
  cases ha with
  | stop hm =>
    -- the `STOP` is where the request was
    rw [← hkept hunf] at hreq
    exact hreq

/-- A run that keeps each slot until it is fetched keeps the invariant. -/
theorem inv_of_kept (hR : ∀ s s', R s s' → AnyStep s s')
    (hkept : ∀ s s', Relation.ReflTransGen R initial s → R s s' → s.unfetched = true →
      s'.task = s.task) {s : State} (h : Relation.ReflTransGen R initial s) : Inv s := by
  refine reachable_invariant_of_reachable inv_initial (fun s s' hs hinv hstep => ?_) h
  obtain ⟨a, ha, hfetched⟩ := fetchedStop_of_kept hinv (hR s s' hstep) (hkept s s' hs hstep)
  exact hinv.step ha hfetched

/-- **The hand-off protocol**: it holds for the runs in which `stop` is called only when each
accepted task was fetched, and for no others. -/
theorem handoff_iff (hR : ∀ s s', R s s' → AnyStep s s') :
    Handoff R ↔ ∀ s s', Relation.ReflTransGen R initial s → R s s' → FetchedStop s s' := by
  constructor
  · intro h s s' hs hstep
    exact fetchedStop_of_kept (inv_of_kept hR h.kept hs) (hR s s' hstep) (h.kept s s' hs hstep)
  · intro hfetched
    have hinv {s : State} (hs : Relation.ReflTransGen R initial s) : Inv s :=
      reachable_inv hfetched hs
    refine ⟨fun _ hs => (hinv hs).accepted_eq, fun _ hs hne => (hinv hs).responsive hne, ?_, ?_,
      fun _ _ hs hstep => (hinv hs).waits hstep, fun _ hs hb => (hinv hs).resets hb⟩
    · intro s s' hs hstep hunf
      obtain ⟨a, ha, hstop⟩ := hfetched s s' hs hstep
      exact (hinv hs).kept ha hstop hunf
    · intro s task hs hbusy
      have hne : s.task.type ≠ .idle := hbusy.elim id fun hne => ((hinv hs).of_inFlight hne).1
      refine ⟨if_pos hne, fun s' hraise => ?_⟩
      cases hraise
      rfl

end Runs

/-- The protocol holds for the runs in which `stop` waits for the fetch. -/
theorem handoff_fetchedStop : Handoff FetchedStop :=
  (handoff_iff fun _ _ ⟨a, ha, _⟩ => ⟨a, ha⟩).mpr fun _ _ _ hstep => hstep

/-- A task that loads two edges. -/
def sampleTask : Task := ⟨.loadEdges, 4096, 2⟩

/-- `start`, then `set_task_async`, then `stop` before the background thread has fetched the
task. -/
theorem not_handoff : ¬Handoff AnyStep := by
  intro h
  have hstart : Relation.ReflTransGen AnyStep initial _ :=
    Relation.ReflTransGen.single ⟨_, Step.start rfl⟩
  have hreset := hstart.tail ⟨_, Step.reset rfl⟩
  have hready := hreset.tail ⟨_, Step.startReturn rfl rfl⟩
  have hset := hready.tail ⟨.setTask sampleTask, Step.setTask rfl trivial rfl⟩
  have hnotified := hset.tail ⟨_, Step.notify rfl⟩
  have hkept := h.kept _ _ hnotified ⟨_, Step.stop rfl⟩ rfl
  cases hkept

end Protocol

end WorkerThread

end GfeDriver
