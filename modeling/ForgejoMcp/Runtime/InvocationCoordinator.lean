import Mathlib.Data.Int.Notation
import ForgejoMcp.Asyncio.Condition

/-! # The coordinator of MCP tool invocations

`InvocationCoordinator` gates and drains the tool invocations of a shutting-down application.  Each
of its three coroutines runs in a task of the event loop, which can be cancelled wherever it is
suspended. -/

namespace ForgejoMcp.Runtime

open Asyncio

/-- A call of the coordinator. -/
inductive Call
  /-- One `async with coordinator.invocation()`. -/
  | invocation
  | beginShutdown
  | waitForIdle (timeoutSeconds : ℤ)
  deriving DecidableEq, Repr

/-- How a coroutine ends. -/
inductive Outcome
  | returned
  /-- The body of an invocation raised. -/
  | raised
  | cancelled
  /-- `ServiceShuttingDown`. -/
  | shuttingDown
  /-- The result of `wait_for_idle`. -/
  | idle (result : Bool)
  deriving DecidableEq, Repr

/-- Where the coroutine of a task is suspended.  All but `inside` are suspensions on a future of the
coordinator's condition. -/
inductive Position
  | created
  /-- `invocation` waits for the lock, before its `yield`. -/
  | entering (future : ℕ)
  /-- `invocation` is at its `yield`: the body runs, and is suspended wherever it likes. -/
  | inside
  /-- `invocation` waits for the lock in its `finally`, with the outcome of the body. -/
  | leaving (future : ℕ) (outcome : Outcome)
  /-- `begin_shutdown` waits for the lock. -/
  | closing (future : ℕ)
  /-- `wait_for_idle` waits for the lock. -/
  | opening (future : ℕ)
  /-- `wait_for_idle` waits for a notification. -/
  | waiting (future : ℕ)
  /-- `wait_for_idle` waits for the lock after a notification or a cancellation. -/
  | reacquiring (future : ℕ) (cancelled : Bool)
  /-- `wait_for_idle` without time to wait has cancelled its waiter and waits for its end. -/
  | abandoning
  | done (outcome : Outcome)
  deriving DecidableEq, Repr

/-- The future that a task is suspended on. -/
def Position.future? : Position → Option ℕ
  | .entering n | .leaving n _ | .closing n | .opening n | .waiting n | .reacquiring n _ => some n
  | .created | .inside | .abandoning | .done _ => none

/-- The invocation has entered and has not exited. -/
def Position.admitted : Position → Bool
  | .inside | .leaving _ _ => true
  | _ => false

/-- `InvocationCoordinator`. -/
structure InvocationCoordinator where
  accepting : Bool
  active : ℤ
  condition : Condition
  /-- The gauge `MCP_ACTIVE_INVOCATIONS`. -/
  mcpActiveInvocations : ℤ
  deriving DecidableEq, Repr

namespace InvocationCoordinator

/-- `InvocationCoordinator()`. -/
def new : InvocationCoordinator :=
  ⟨true, 0, .new, 0⟩

/-- A coroutine up to its next suspension. -/
abbrev Piece :=
  InvocationCoordinator → InvocationCoordinator × Position

/-- The coordinator with its condition in another state. -/
def withCondition (c : InvocationCoordinator) (condition : Condition) : InvocationCoordinator :=
  { c with condition }

/-- `async with self._condition`: the section runs with the lock, at once or after a wait. -/
def withLock (suspended : ℕ → Position) (critical : Piece) : Piece := fun c =>
  match c.condition.acquire with
  | (condition, none) => critical (c.withCondition condition)
  | (condition, some n) => (c.withCondition condition, suspended n)

/-- Leaves `async with self._condition`. -/
def leaveLock (c : InvocationCoordinator) (position : Position) : InvocationCoordinator × Position :=
  (c.withCondition c.condition.release, position)

/-- The section of `invocation` before the `yield`. -/
def admitInvocation : Piece := fun c =>
  if c.accepting then
    { c with active := c.active + 1, mcpActiveInvocations := c.mcpActiveInvocations + 1 }.leaveLock
      .inside
  else c.leaveLock (.done .shuttingDown)

/-- `if self._active == 0: self._condition.notify_all()`. -/
def notifyIfIdle (c : InvocationCoordinator) : InvocationCoordinator :=
  if c.active = 0 then c.withCondition c.condition.notifyAll else c

/-- The section of `invocation` in its `finally`. -/
def discharge (outcome : Outcome) : Piece := fun c =>
  { c with active := c.active - 1, mcpActiveInvocations := c.mcpActiveInvocations - 1 }.notifyIfIdle
    |>.leaveLock (.done outcome)

/-- The section of `begin_shutdown`. -/
def close : Piece := fun c =>
  { c with accepting := false }.notifyIfIdle.leaveLock (.done .returned)

/-- `self._condition.wait_for(lambda: self._active == 0)` from a test of the predicate on. -/
def awaitIdle : Piece := fun c =>
  if c.active = 0 then c.leaveLock (.done (.idle true))
  else
    let (condition, n) := c.condition.wait
    (c.withCondition condition, .waiting n)

/-- The end of `Condition.wait`, with the lock again: a cancelled wait passes its notification on. -/
def awaken (cancelled : Bool) : Piece := fun c =>
  if cancelled then (c.withCondition (c.condition.notify 1)).leaveLock (.done .cancelled)
  else c.awaitIdle

/-- The first section of a call. -/
def start : Call → Piece
  | .invocation => withLock .entering admitInvocation
  | .beginShutdown => withLock .closing close
  | .waitForIdle timeoutSeconds => fun c =>
    if timeoutSeconds ≤ 0 then (c, .abandoning) else c.withLock .opening awaitIdle

/-- A coroutine goes on from its suspension. -/
def resume (call : Call) : Position → Signal → Piece
  | .created, .value => start call
  | .created, .cancelled => fun c => (c, .done .cancelled)
  | .entering n, .value => fun c => (c.withCondition (c.condition.acquired n)).admitInvocation
  | .leaving n outcome, .value => fun c =>
    (c.withCondition (c.condition.acquired n)).discharge outcome
  | .closing n, .value => fun c => (c.withCondition (c.condition.acquired n)).close
  | .opening n, .value => fun c => (c.withCondition (c.condition.acquired n)).awaitIdle
  | .entering n, .cancelled | .leaving n _, .cancelled | .closing n, .cancelled
  | .opening n, .cancelled => fun c =>
    (c.withCondition (c.condition.acquireCancelled n), .done .cancelled)
  | .waiting n, signal => fun c =>
    (c.withCondition (c.condition.woken n)).withLock
      (.reacquiring · (signal = .cancelled)) (awaken (signal = .cancelled))
  | .reacquiring n cancelled, .value => fun c =>
    (c.withCondition (c.condition.acquired n)).awaken cancelled
  | .reacquiring n _, .cancelled => fun c =>
    (c.withCondition (c.condition.acquireCancelled n)).withLock (.reacquiring · true) (awaken true)
  | .abandoning, .value => fun c => (c, .done (.idle false))
  | .abandoning, .cancelled => fun c => (c, .done .cancelled)
  | position@(.inside), _ | position@(.done _), _ => fun c => (c, position)

/-- The `finally` of `invocation`, when the body has ended. -/
def leave (outcome : Outcome) : Piece :=
  withLock (.leaving · outcome) (discharge outcome)

end InvocationCoordinator

/-- A task of the event loop that runs one of the coroutines. -/
structure Task where
  call : Call
  position : Position
  /-- The task is cancelled as soon as it runs or is suspended again. -/
  mustCancel : Bool
  /-- How often `cancel` was called. -/
  cancelling : ℕ
  /-- The time to wait of `wait_for_idle` is over. -/
  expiring : Bool
  deriving DecidableEq, Repr

namespace Task

/-- The task of a call that has not begun. -/
def new (call : Call) : Task :=
  ⟨call, .created, false, 0, false⟩

/-- What the task is resumed with, if it can be. -/
def signal (task : Task) (condition : Condition) : Option Signal :=
  match task.position with
  | .inside | .done _ => none
  | position =>
    if task.mustCancel then some .cancelled
    else match position.future? with
      | none => some .value
      | some n =>
        match condition.future n with
        | .pending => none
        | .finished => some .value
        | .cancelled => some .cancelled

/-- `asyncio.wait_for` turns the cancellation by its own timeout into a `TimeoutError`, for which
`wait_for_idle` returns `False`. -/
def outcome (task : Task) : Outcome → Outcome
  | .cancelled => if task.expiring && task.cancelling ≤ 1 then .idle false else .cancelled
  | outcome => outcome

end Task

/-- The coordinator with the tasks that use it, oldest first. -/
structure State where
  coordinator : InvocationCoordinator
  tasks : List Task
  deriving DecidableEq, Repr

namespace State

/-- A new coordinator without tasks. -/
def initial : State :=
  ⟨.new, []⟩

/-- Task `t` has run up to a position; a cancellation that is due hits its new suspension. -/
def suspend (s : State) (t : ℕ) (task : Task) (next : InvocationCoordinator × Position) : State :=
  match next with
  | (c, .done outcome) =>
    ⟨c, s.tasks.set t { task with position := .done (task.outcome outcome), mustCancel := false }⟩
  | (c, position) =>
    match position.future?, task.mustCancel with
    | some n, true =>
      ⟨c.withCondition (c.condition.complete n .cancelled),
        s.tasks.set t { task with position, mustCancel := false }⟩
    | _, _ => ⟨c, s.tasks.set t { task with position }⟩

/-- `Task.cancel`: a future that is awaited is cancelled, if it is pending. -/
def cancel (s : State) (t : ℕ) (task : Task) : State :=
  match task.position.future? with
  | some n =>
    if s.coordinator.condition.future n = .pending then
      ⟨s.coordinator.withCondition (s.coordinator.condition.complete n .cancelled),
        s.tasks.set t { task with cancelling := task.cancelling + 1 }⟩
    else { s with
      tasks := s.tasks.set t { task with cancelling := task.cancelling + 1, mustCancel := true } }
  | none => { s with
      tasks := s.tasks.set t { task with cancelling := task.cancelling + 1, mustCancel := true } }

end State

/-- A step of the event loop. -/
inductive Step : State → State → Prop
  /-- A task is created. -/
  | spawn (s : State) (call : Call) : Step s { s with tasks := s.tasks ++ [.new call] }
  /-- A task that is ready runs up to its next suspension. -/
  | resume {s : State} {t : ℕ} {task : Task} {signal : Signal} (ht : s.tasks[t]? = some task)
      (hready : task.signal s.coordinator.condition = some signal) :
      Step s (s.suspend t { task with mustCancel := false }
        (s.coordinator.resume task.call task.position signal))
  /-- The body of an invocation ends, whether it was cancelled or not; a cancellation may be due. -/
  | ended {s : State} {t : ℕ} {task : Task} (ht : s.tasks[t]? = some task)
      (hinside : task.position = .inside) (outcome : Outcome) (mustCancel : Bool)
      (houtcome : outcome = .returned ∨ outcome = .raised ∨ outcome = .cancelled) :
      Step s (s.suspend t { task with mustCancel } (s.coordinator.leave outcome))
  /-- A task is cancelled. -/
  | cancel {s : State} {t : ℕ} {task : Task} (ht : s.tasks[t]? = some task)
      (hrunning : ∀ outcome, task.position ≠ .done outcome) : Step s (s.cancel t task)
  /-- The time to wait of a `wait_for_idle` is over. -/
  | expire {s : State} {t : ℕ} {task : Task} (ht : s.tasks[t]? = some task)
      (hwaiting : ∃ n b, task.position = .opening n ∨ task.position = .waiting n ∨
        task.position = .reacquiring n b) (hexpiring : task.expiring = false) :
      Step s (s.cancel t { task with expiring := true })

/-- A run of the event loop. -/
inductive Steps : State → State → Prop
  | refl (s : State) : Steps s s
  | tail {s s' s'' : State} : Steps s s' → Step s' s'' → Steps s s''

/-- A state that the event loop can get to. -/
def Reachable (s : State) : Prop :=
  Steps .initial s

end ForgejoMcp.Runtime
