import Mathlib.Algebra.GroupWithZero.Nat
import Monty.Heap.StableHeap
import Monty.Lib.Fallible
import Monty.Lib.Keyed

/-!
# Tasks, awaitables and the scheduler

Coroutines, external futures and gathers are heap objects. Each is in flight at most once: an
external future knows who awaits it, an awaited gather knows who awaits it and which of its items
are still pending, and a coroutine that a gather spawned is driven by a task, which knows the gather
it reports to. The scheduler has the tasks, the queue of those that may run, the host calls without
an answer, and which task drives which coroutine.

A program of the virtual machine changes the whole state and may panic; a Python exception is part
of what it answers. Reference counts are not part of this model: heap objects that nothing owns any
more are freed by a step of their own. Nor are awaits in a synchronous re-entry of the interpreter
(`evaluate_function`): they have a loop of their own.

The numbers of tasks and calls have 32 bits. A build that checks arithmetic panics when they run
out; in any other they start again at zero.
-/

namespace Monty.Async

/-- The number of a task, below `2 ^ 32`. The main task is number 0. -/
abbrev TaskId := Nat

/-- The number of a host call, below `2 ^ 32`. -/
abbrev CallId := Nat

/-! ## Awaitables -/

/-- A value: something the host sent, or a reference to the heap. -/
inductive Value
  | host (n : Nat)
  | ref (id : HeapId)
  deriving DecidableEq, Repr

/-- What can be raised. `uncatchable` is what a limit raises: no handler sees it. -/
inductive RunError
  | cannotReuseCoroutine
  | cannotReuseFuture
  | cannotReuseGather
  | notAwaitable
  | exc (code : Nat)
  | uncatchable (code : Nat)
  deriving DecidableEq, Repr

/-- Where the outcome of an awaitable goes: to a task, or into the slots that the awaitable `source`
has in a gather. -/
inductive Awaiter
  | task (id : TaskId)
  | gatherSlot (gather source : HeapId)
  deriving DecidableEq, Repr

/-- How far a coroutine is. -/
inductive CoroutineState
  | new | running | completed
  deriving DecidableEq, Repr

/-- What is known of a host call, and who awaits it. -/
inductive ExternalFutureState
  | pending (awaiter : Option Awaiter)
  | resolved (value : Value)
  | failed (error : RunError)
  deriving DecidableEq, Repr

/-- The children of a gather that are in flight, with the slots that each of them fills. -/
abbrev PendingChildren := Keyed HeapId (List Nat)

/-- What a gather keeps while it is awaited. -/
structure AwaitedGather where
  awaiter : Awaiter
  pendingChildren : PendingChildren
  results : List (Option Value)

/-- How far a gather is. -/
inductive GatherState
  | pending
  | awaited (a : AwaitedGather)
  | completed (value : Value)
  | failed (error : RunError)

/-- The heap objects that matter here, and whatever else there is. -/
inductive Obj
  | coroutine (state : CoroutineState)
  | externalFuture (callId : CallId) (state : ExternalFutureState) (sleepResult : Option Value)
  | gatherFuture (items : List HeapId) (state : GatherState)
  | list (items : List Value)
  | other

/-! ## Tasks -/

/-- Whether a task can run. -/
inductive TaskState
  /-- Queued or running. An error is raised before the task runs on. -/
  | ready (result : Except RunError Unit)
  | blocked (id : HeapId)

/-- A live task. While it is not the current one it has its frames, of which only the number matters
here, and its operand stack. -/
structure Task where
  frames : Nat
  stack : List Value
  coroutineId : Option HeapId
  awaiter : Option Awaiter
  state : TaskState

/-- A task that has not started. -/
def Task.new (coroutineId : Option HeapId) (awaiter : Option Awaiter) : Task :=
  { frames := 0, stack := [], coroutineId, awaiter, state := .ready (.ok ()) }

/-- The tasks, and what the scheduler knows about them. -/
structure Scheduler where
  tasks : Keyed TaskId Task
  readyQueue : List TaskId
  currentTask : Option TaskId
  nextTaskId : Nat
  nextCallId : Nat
  pendingExternals : Keyed CallId HeapId
  coroutineToTask : Keyed HeapId TaskId

/-- The main task is the current one. -/
def Scheduler.new : Scheduler where
  tasks := AList.insert 0 (Task.new none none) ∅
  readyQueue := []
  currentTask := some 0
  nextTaskId := 1
  nextCallId := 0
  pendingExternals := ∅
  coroutineToTask := ∅

/-- The virtual machine: the scheduler, the heap, and the context that is loaded. Of that there is
the operand stack, the number of frames below the current one, and whether the bottom frame is the
placeholder that is left when a task is gone. -/
structure Vm extends Scheduler where
  heap : StableHeap Obj
  stack : List Value
  suspendedFrames : Nat
  rootParked : Bool
  /-- The build checks arithmetic, and debug assertions. -/
  checked : Bool

/-- The machine at the start of a program. -/
def Vm.new (checked : Bool) : Vm := { Scheduler.new with
    heap := StableHeap.empty, stack := [], suspendedFrames := 0, rootParked := false, checked }

/-- The current frame is the placeholder. -/
def Vm.isParked (s : Vm) : Bool := s.rootParked && s.suspendedFrames == 0

/-- Why the machine would panic. `outOfFuel` is the model's own: a loop did not end within its
bound. -/
inductive Panic
  | freed
  | noCurrentTask
  | taskNotFound
  | resumeBlocked
  | notGather
  | notGatherItem
  | itemOutOfBounds
  | commitStack
  | resultsMissing
  | noCoroutine
  | notCoroutine
  | noContext
  | notExternalFuture
  | alreadyResolved
  | neverAwaited
  | childNotRegistered
  | overflow
  | debugAssert
  | outOfFuel
  deriving DecidableEq, Repr

/-- A program of the machine. -/
abbrev Run := EStateM Panic Vm

/-- Panics in a build with debug assertions, unless the condition holds. -/
def debugAssert (condition : Bool) : Run Unit := do
  if !condition && (← get).checked then throw .debugAssert

/-- The number after an identifier. -/
def succId (id : Nat) : Run Nat := do
  if id + 1 < 2 ^ 32 then pure (id + 1)
  else if (← get).checked then throw .overflow
  else pure 0

/-! ## The heap -/

/-- The object at `id`. -/
def read (id : HeapId) : Run Obj := do
  match (← get).heap.get? id with
  | some o => pure o
  | none => throw .freed

/-- Changes the object at `id`. -/
def setObj (id : HeapId) (o : Obj) : Run Unit := modify fun s => { s with heap := s.heap.set id o }

/-- A place in the heap for a new object. -/
def allocate (o : Obj) : Run HeapId := do
  let s ← get
  set { s with heap := (s.heap.allocate o).2 }
  pure (s.heap.allocate o).1

/-! ## The scheduler -/

/-- The task at `t`, to be read and written. -/
def getTask (t : TaskId) : Run Task := do
  match (← get).tasks.lookup t with
  | some task => pure task
  | none => throw .taskNotFound

/-- Changes the task at `t`. -/
def setTask (t : TaskId) (task : Task) : Run Unit :=
  modify fun s => { s with tasks := s.tasks.insert t task }

/-- The number of a new call. -/
def allocateCallId : Run CallId := do
  let s ← get
  let next ← succId s.nextCallId
  set { s with nextCallId := next }
  pure s.nextCallId

/-- Records the future of a call that is to be answered. -/
def addPendingExternal (callId : CallId) (futureId : HeapId) : Run Unit := do
  let s ← get
  set { s with pendingExternals := s.pendingExternals.insert callId futureId }
  debugAssert (s.pendingExternals.lookup callId).isNone

/-- Takes the future of a call that is answered. -/
def takePendingExternal (callId : CallId) : Run (Option HeapId) := do
  let s ← get
  set { s with pendingExternals := s.pendingExternals.erase callId }
  pure (s.pendingExternals.lookup callId)

/-- The current task waits. -/
def blockCurrentOn (awaitableId : HeapId) : Run Unit := do
  match (← get).currentTask with
  | none => pure ()
  | some t =>
    let task ← getTask t
    debugAssert (task.state matches .ready (.ok _))
    setTask t { task with state := .blocked awaitableId }

/-- The calls without an answer. -/
def pendingCallIds : Run (List CallId) := do
  return (← get).pendingExternals.keys

/-- Takes a task out of the queue, wherever it is. -/
def removeFromReadyQueue (t : TaskId) : Run Unit :=
  modify fun s => { s with readyQueue := s.readyQueue.filter (· ≠ t) }

/-- A new task for a coroutine, unless it has one. -/
def spawn (coroutineId : HeapId) (gatherId : Option HeapId) : Run (Option TaskId) := do
  let s ← get
  match s.coroutineToTask.lookup coroutineId with
  | some _ => pure none
  | none =>
    let next ← succId s.nextTaskId
    let awaiter := gatherId.map fun gather => Awaiter.gatherSlot gather coroutineId
    set { s with
      nextTaskId := next
      tasks := s.tasks.insert s.nextTaskId (Task.new (some coroutineId) awaiter)
      coroutineToTask := s.coroutineToTask.insert coroutineId s.nextTaskId
      readyQueue := s.readyQueue ++ [s.nextTaskId] }
    pure (some s.nextTaskId)

/-- Takes the task that has been ready for longest. -/
def nextReadyTask : Run (Option TaskId) := do
  let s ← get
  match s.readyQueue with
  | [] => pure none
  | t :: rest =>
    set { s with readyQueue := rest }
    pure (some t)

/-- Wakes a blocked task. -/
def makeReady (t : TaskId) (result : Except RunError Unit) : Run Unit := do
  let task ← getTask t
  debugAssert (task.state matches .blocked _)
  setTask t { task with state := .ready result }
  modify fun s => { s with readyQueue := s.readyQueue ++ [t] }

/-- Takes what a task that goes on is to raise, if anything. -/
def takeResumeResult (t : TaskId) : Run (Except RunError Unit) := do
  let task ← getTask t
  match task.state with
  | .ready result =>
    setTask t { task with state := .ready (.ok ()) }
    pure result
  | .blocked _ => throw .resumeBlocked

/-- Whether there is such a task and it waits. -/
def isBlocked (t : TaskId) : Run Bool := do
  match (← get).tasks.lookup t with
  | some ⟨_, _, _, _, .blocked _⟩ => pure true
  | _ => pure false

/-- Adds the tasks spawned under the gathers on the stack, and under those nested in them. -/
def queueGatherTasks : Nat → List HeapId → List TaskId → Run (List TaskId)
  | _, [], pending => pure pending
  | 0, _ :: _, _ => throw .outOfFuel
  | fuel + 1, gatherId :: gathers, pending => do
    match ← read gatherId with
    | .gatherFuture _ (.awaited a) =>
      let s ← get
      let children := a.pendingChildren.keys
      let tasks := children.filterMap fun c => s.coroutineToTask.lookup c
      let nested := children.filter fun c => (s.coroutineToTask.lookup c).isNone
      queueGatherTasks fuel (nested.reverse ++ gathers) (tasks.reverse ++ pending)
    | _ => queueGatherTasks fuel gathers pending

/-- Removes one task, if it is there, and adds those that were spawned under what it is blocked
on. -/
def cancelOne (t : TaskId) (pending : List TaskId) : Run (List TaskId) := do
  let s ← get
  match s.tasks.lookup t with
  | none => pure pending
  | some task =>
    set { s with
      tasks := s.tasks.erase t
      currentTask := if s.currentTask = some t then none else s.currentTask
      coroutineToTask := match task.coroutineId with
        | some c => s.coroutineToTask.erase c
        | none => s.coroutineToTask
      readyQueue := s.readyQueue.filter (· ≠ t) }
    match task.state with
    | .blocked id => queueGatherTasks (s.heap.len + 1) [id] pending
    | .ready _ => pure pending

/-- The loop of `cancelTask`. -/
def cancelLoop : Nat → List TaskId → Run Unit
  | _, [] => pure ()
  | 0, _ :: _ => throw .outOfFuel
  | fuel + 1, t :: pending => do
    let pending ← cancelOne t pending
    cancelLoop fuel pending

/-- Removes a task and the tasks under whatever gather it is blocked on. Each task that is removed
adds no more than there are tasks. -/
def cancelTask (t : TaskId) : Run Unit := do
  let n := (← get).tasks.keys.length
  cancelLoop (n * n + 1) [t]

end Monty.Async
