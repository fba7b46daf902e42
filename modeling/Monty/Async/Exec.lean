import Monty.Async.Scheduler

/-!
# Awaiting, delivering and switching tasks

What the virtual machine does for `await`, when a task ends, and when the host answers.

* Awaiting a gather commits it and the gathers nested in it: every item that is not settled is
  spawned or given an awaiter. The walk has a stack of its own, one frame for each gather that is
  being committed, and an error half way through fails every gather on that stack.
* What settles is delivered to its awaiter. A gather whose last child succeeds settles in turn, and
  so on; a failure goes through all the gathers up to the task that waits.
* A task is activated by loading its context. A task that has none yet starts its coroutine, unless
  the coroutine has been started elsewhere: then the task fails on the spot, and another one is
  activated.
-/

namespace Monty.Async

/-- Whether an awaitable has a value. -/
inductive Poll
  | ready (value : Value)
  | pending
  deriving DecidableEq, Repr

/-- What the machine does after an `await`. -/
inductive AwaitResult
  | valueReady (value : Value)
  | framePushed
  | yield (calls : List CallId)
  deriving DecidableEq, Repr

/-- The limits that are checked while a gather is committed, at each step and each time the stack
grows, and when a frame is pushed: what they raise. -/
structure Limits where
  checkMemoryTimeEvery : Nat → Option RunError
  checkCommitStackGrowth : Nat → Option RunError
  pushFrame : Option RunError

/-! ## Gathers -/

/-- The gather at `id`. -/
def readGather (id : HeapId) : Run (List HeapId × GatherState) := do
  match ← read id with
  | .gatherFuture items state => pure (items, state)
  | _ => throw .notGather

/-- What a gather that has settled replays; nothing for one that is to be committed. -/
def pollSettledGather : GatherState → Except RunError (Option Value)
  | .pending => .ok none
  | .completed value => .ok (some value)
  | .failed error => .error error
  | .awaited _ => .error .cannotReuseGather

/-- The results, if there are all of them. -/
def collectResults : List (Option Value) → Option (List Value)
  | [] => some []
  | none :: _ => none
  | some value :: results => (collectResults results).map (value :: ·)

/-- A gather has all of its results: they become a list. -/
def cacheResult (gather : HeapId) (items : List HeapId) (results : List (Option Value)) :
    Run Value := do
  match collectResults results with
  | none => throw .resultsMissing
  | some values =>
    let list ← allocate (.list values)
    setObj gather (.gatherFuture items (.completed (.ref list)))
    pure (.ref list)

/-- Writes a value into the given slots. -/
def fillSlots (results : List (Option Value)) (slots : List Nat) (value : Value) :
    List (Option Value) :=
  slots.foldl (fun results slot => results.set slot (some value)) results

/-- A child has a value. When that was the last child, the gather has its list, and an awaiter that
is to get it. -/
def resolveChild (gather child : HeapId) (value : Value) : Run (Option (Value × Awaiter)) := do
  let (items, state) ← readGather gather
  match state with
  | .completed _ => pure none
  | .failed _ => pure none
  | .pending => throw .neverAwaited
  | .awaited a =>
    match a.pendingChildren.lookup child with
    | none => throw .childNotRegistered
    | some slots =>
      if slots.any (a.results.length ≤ ·) then throw .itemOutOfBounds
      else if (a.pendingChildren.erase child).keys = [] then
        let list ← cacheResult gather items (fillSlots a.results slots value)
        pure (some (list, a.awaiter))
      else
        setObj gather (.gatherFuture items (.awaited { a with
          pendingChildren := a.pendingChildren.erase child
          results := fillSlots a.results slots value }))
        pure none

/-- A child has failed: so has the gather, and its awaiter is to be told; nobody is if the gather
had settled before. -/
def failGather (gather : HeapId) (error : RunError) : Run (Option Awaiter) := do
  let (items, state) ← readGather gather
  match state with
  | .awaited a =>
    setObj gather (.gatherFuture items (.failed error))
    pure (some a.awaiter)
  | _ => pure none

/-! ## Delivering -/

/-- Pushes a value on the operand stack of a task, which the machine has if the task is loaded. -/
def pushOperand (t : TaskId) (value : Value) : Run Unit := do
  let s ← get
  if s.currentTask = some t ∧ s.isParked = false then
    set { s with stack := value :: s.stack }
  else
    let task ← getTask t
    setTask t { task with stack := value :: task.stack }

/-- Wakes a task with a value, if it waits. -/
def deliverValueToTask (t : TaskId) (value : Value) : Run (Option TaskId) := do
  if ← isBlocked t then
    pushOperand t value
    makeReady t (.ok ())
    pure (some t)
  else pure none

/-- The loop of `deliverAwaiterSuccess`. -/
def deliverSuccessLoop : Nat → Awaiter → Value → Run (Option TaskId)
  | _, .task t, value => deliverValueToTask t value
  | 0, .gatherSlot .., _ => throw .outOfFuel
  | fuel + 1, .gatherSlot gather source, value => do
    match ← resolveChild gather source value with
    | none => pure none
    | some (list, awaiter) => deliverSuccessLoop fuel awaiter list

/-- Delivers a value, through the gathers that it completes, and returns the task that it wakes. -/
def deliverAwaiterSuccess (awaiter : Awaiter) (value : Value) : Run (Option TaskId) := do
  deliverSuccessLoop ((← get).heap.len + 1) awaiter value

/-- Wakes a task with an error, if it waits. -/
def deliverErrorToTask (t : TaskId) (error : RunError) : Run (Option TaskId) := do
  if ← isBlocked t then
    makeReady t (.error error)
    pure (some t)
  else pure none

/-- The loop of `deliverAwaiterFailure`. -/
def deliverFailureLoop : Nat → Awaiter → RunError → Run (Option TaskId)
  | _, .task t, error => deliverErrorToTask t error
  | 0, .gatherSlot .., _ => throw .outOfFuel
  | fuel + 1, .gatherSlot gather _, error => do
    match ← failGather gather error with
    | none => pure none
    | some awaiter => deliverFailureLoop fuel awaiter error

/-- Delivers an error, through all the gathers on the way, and returns the task that it wakes. -/
def deliverAwaiterFailure (awaiter : Awaiter) (error : RunError) : Run (Option TaskId) := do
  deliverFailureLoop ((← get).heap.len + 1) awaiter error

/-- Delivers a value to whoever waits for it. -/
def deliverSuccess? : Option Awaiter → Value → Run (Option TaskId)
  | none, _ => pure none
  | some awaiter, value => deliverAwaiterSuccess awaiter value

/-- Delivers an error to whoever waits. -/
def deliverFailure? : Option Awaiter → RunError → Run (Option TaskId)
  | none, _ => pure none
  | some awaiter, error => deliverAwaiterFailure awaiter error

/-! ## The host -/

/-- Resolves the future of a call, if that has none yet. A sleep has its result already. -/
def resolveFuture (callId : CallId) (value : Value) : Run Unit := do
  match ← takePendingExternal callId with
  | none => pure ()
  | some futureId =>
    match ← read futureId with
    | .externalFuture call (.pending awaiter) sleepResult =>
      setObj futureId (.externalFuture call (.resolved (sleepResult.getD value)) none)
      let _ ← deliverSuccess? awaiter (sleepResult.getD value)
      pure ()
    | .externalFuture .. => throw .alreadyResolved
    | _ => throw .notExternalFuture

/-- Fails the future of a call, if that has no answer yet. -/
def failFuture (callId : CallId) (error : RunError) : Run Unit := do
  match ← takePendingExternal callId with
  | none => pure ()
  | some futureId =>
    match ← read futureId with
    | .externalFuture call (.pending awaiter) _ =>
      setObj futureId (.externalFuture call (.failed error) none)
      let _ ← deliverFailure? awaiter error
      pure ()
    | .externalFuture .. => throw .alreadyResolved
    | _ => throw .notExternalFuture

/-- What the host says of a call. A value may turn out not to be convertible. -/
inductive ExtResult
  | value (v : Value)
  | inconvertible (error : RunError)
  | error (e : RunError)
  | future
  deriving DecidableEq, Repr

/-- Takes one answer of the host. -/
def applyFutureResult : CallId × ExtResult → Run (Except RunError Unit)
  | (callId, .value v) => do
    resolveFuture callId v
    pure (.ok ())
  | (_, .inconvertible error) => pure (.error error)
  | (callId, .error error) => do
    failFuture callId error
    pure (.ok ())
  | (_, .future) => pure (.ok ())

/-- Takes the answers of the host one after the other. -/
def applyFutureResults : List (CallId × ExtResult) → Run (Except RunError Unit)
  | [] => pure (.ok ())
  | result :: results => do
    match ← applyFutureResult result with
    | .error error => pure (.error error)
    | .ok () => applyFutureResults results

/-- A future for a call, to be answered by the host. -/
def pushPendingFuture (callId : CallId) (sleepResult : Option Value) : Run Unit := do
  let futureId ← allocate (.externalFuture callId (.pending none) sleepResult)
  addPendingExternal callId futureId
  modify fun s => { s with stack := .ref futureId :: s.stack }

/-- A future that has a value from the start. -/
def settledAwaitable (value : Value) : Run HeapId := do
  let callId ← allocateCallId
  allocate (.externalFuture callId (.resolved value) none)

/-! ## Committing a gather -/

/-- A gather that is being committed: the results so far, the children in flight, and which item is
next; and the slot of the gather around it that it fills. -/
structure GatherCommit where
  gather : HeapId
  awaiter : Awaiter
  parentSlot : Option Nat
  next : Nat
  results : List (Option Value)
  pendingChildren : PendingChildren

/-- Records what became of the item at a slot, and goes on with the next. -/
def GatherCommit.resumeAfterChild (frame : GatherCommit) (child : HeapId) (slot : Nat) :
    Poll → GatherCommit
  | .ready value => { frame with results := frame.results.set slot (some value), next := slot + 1 }
  | .pending => { frame with
      pendingChildren := frame.pendingChildren.insert child [slot], next := slot + 1 }

/-- The item that is next is in flight already: it fills this slot too. -/
def GatherCommit.addSlot (frame : GatherCommit) (child : HeapId) (slots : List Nat) :
    GatherCommit :=
  { frame with
    pendingChildren := frame.pendingChildren.insert child (slots ++ [frame.next])
    next := frame.next + 1 }

/-- The frame with which the commit of a gather begins. -/
def openGatherCommit (gather : HeapId) (awaiter : Awaiter) (parentSlot : Option Nat) :
    Run GatherCommit := do
  let (items, _) ← readGather gather
  pure
    { gather := gather
      awaiter := awaiter
      parentSlot := parentSlot
      next := 0
      results := List.replicate items.length none
      pendingChildren := ∅ }

/-- The value of a host call, or the awaiter is told when there is one. -/
def awaitExternalFuture (id : HeapId) (awaiter : Awaiter) : Run (Except RunError Poll) := do
  match ← read id with
  | .externalFuture _ (.resolved value) _ => pure (.ok (.ready value))
  | .externalFuture _ (.failed error) _ => pure (.error error)
  | .externalFuture _ (.pending (some _)) _ => pure (.error .cannotReuseFuture)
  | .externalFuture callId (.pending none) sleepResult =>
    setObj id (.externalFuture callId (.pending (some awaiter)) sleepResult)
    pure (.ok .pending)
  | _ => throw .notExternalFuture

/-- Polls the item that is next, or opens the frame of a gather that is to be committed first. -/
def pollItem (frame : GatherCommit) (itemId : HeapId) :
    Run (Except RunError (Poll ⊕ GatherCommit)) := do
  match ← read itemId with
  | .coroutine .new =>
    match ← spawn itemId (some frame.gather) with
    | none => pure (.error .cannotReuseCoroutine)
    | some _ => pure (.ok (.inl .pending))
  | .coroutine _ => pure (.error .cannotReuseCoroutine)
  | .externalFuture .. =>
    match ← awaitExternalFuture itemId (.gatherSlot frame.gather itemId) with
    | .error error => pure (.error error)
    | .ok poll => pure (.ok (.inl poll))
  | .gatherFuture _ state =>
    match pollSettledGather state with
    | .error error => pure (.error error)
    | .ok (some value) => pure (.ok (.inl (.ready value)))
    | .ok none =>
      let nested ← openGatherCommit itemId (.gatherSlot frame.gather itemId) (some frame.next)
      pure (.ok (.inr nested))
  | _ => throw .notGatherItem

/-- Commits the next items, as many as given, up to a gather that is to be committed first. The
frame is changed also if that fails. -/
def stepItems (items : List HeapId) :
    Nat → GatherCommit → Run (GatherCommit × Except RunError (Option GatherCommit))
  | 0, frame => pure (frame, .ok none)
  | n + 1, frame => do
    match items[frame.next]? with
    | none => throw .itemOutOfBounds
    | some itemId =>
      match frame.pendingChildren.lookup itemId with
      | some slots => stepItems items n (frame.addSlot itemId slots)
      | none =>
        match ← pollItem frame itemId with
        | .error error => pure (frame, .error error)
        | .ok (.inr nested) => pure (frame, .ok (some nested))
        | .ok (.inl poll) => stepItems items n (frame.resumeAfterChild itemId frame.next poll)

/-- Commits what is left of a gather. -/
def stepGatherCommit (frame : GatherCommit) :
    Run (GatherCommit × Except RunError (Option GatherCommit)) := do
  let (items, _) ← readGather frame.gather
  stepItems items (frame.results.length - frame.next) frame

/-- All items are committed: the gather has its results, or it is awaited from now on. -/
def settleGatherCommit (frame : GatherCommit) : Run Poll := do
  let (items, _) ← readGather frame.gather
  if frame.pendingChildren.keys = [] then
    let list ← cacheResult frame.gather items frame.results
    pure (.ready list)
  else
    setObj frame.gather (.gatherFuture items (.awaited
      { awaiter := frame.awaiter, pendingChildren := frame.pendingChildren, results :=
        frame.results }))
    pure .pending

/-- Fails every gather on the stack. -/
def unwindGatherCommits (error : RunError) : List GatherCommit → Run Unit
  | [] => pure ()
  | frame :: stack => do
    let (items, _) ← readGather frame.gather
    setObj frame.gather (.gatherFuture items (.failed error))
    unwindGatherCommits error stack

/-- Fails the commit. -/
def abandonCommit (error : RunError) (stack : List GatherCommit) : Run (Except RunError Poll) := do
  unwindGatherCommits error stack
  pure (.error error)

/-- The walk: the top frame is committed as far as it goes; then comes a gather that is nested in
it, or the frame is done and the one below goes on. -/
def commitLoop (limits : Limits) : Nat → Nat → List GatherCommit → Run (Except RunError Poll)
  | 0, _, _ => throw .outOfFuel
  | _ + 1, _, [] => throw .commitStack
  | fuel + 1, steps, frame :: below => do
    match limits.checkMemoryTimeEvery steps with
    | some error => abandonCommit error (frame :: below)
    | none =>
      match ← stepGatherCommit frame with
      | (frame, .error error) => abandonCommit error (frame :: below)
      | (frame, .ok (some nested)) =>
        match limits.checkCommitStackGrowth (below.length + 1) with
        | some error => abandonCommit error (frame :: below)
        | none => commitLoop limits fuel (steps + 1) (nested :: frame :: below)
      | (frame, .ok none) =>
        let poll ← settleGatherCommit frame
        match below with
        | [] => pure (.ok poll)
        | parent :: below =>
          match frame.parentSlot with
          | none => throw .commitStack
          | some slot =>
            commitLoop limits fuel (steps + 1)
              (parent.resumeAfterChild frame.gather slot poll :: below)

/-- Commits a gather and those nested in it. Each is on the stack once. -/
def commitGatherTree (limits : Limits) (root : HeapId) (awaiter : Awaiter) :
    Run (Except RunError Poll) := do
  let frame ← openGatherCommit root awaiter none
  commitLoop limits (2 * (← get).heap.len + 2) 0 [frame]

/-- The list of a gather, or the gather is committed. -/
def awaitGatherFuture (limits : Limits) (id : HeapId) (awaiter : Awaiter) :
    Run (Except RunError Poll) := do
  let (_, state) ← readGather id
  match pollSettledGather state with
  | .error error => pure (.error error)
  | .ok (some value) => pure (.ok (.ready value))
  | .ok none => commitGatherTree limits id awaiter

/-! ## Switching tasks -/

/-- Drops the context that is loaded. -/
def cleanupCurrentTask : Run Unit :=
  modify fun s => { s with stack := [], suspendedFrames := 0, rootParked := true }

/-- Saves the context that is loaded. -/
def saveTaskContext (t : TaskId) : Run Unit := do
  let s ← get
  let task ← getTask t
  setTask t { task with frames := s.suspendedFrames + 1, stack := s.stack }
  modify fun s => { s with stack := [], suspendedFrames := 0 }

/-- Starts a coroutine. -/
def initTaskFromCoroutine (coroutineId : HeapId) : Run (Except RunError Unit) := do
  match ← read coroutineId with
  | .coroutine .new =>
    setObj coroutineId (.coroutine .running)
    modify fun s => { s with suspendedFrames := 0, rootParked := false }
    pure (.ok ())
  | .coroutine _ => pure (.error .cannotReuseCoroutine)
  | _ => throw .notCoroutine

section

/- A task that fails when it is activated makes the machine activate another one. -/
variable (activate : TaskId → Run (Except RunError Unit))

/-- The task to go on with after one has ended: the one that this has woken, or the next that is
ready. Says whether there is one. -/
def resumeAfterTaskExit : Option TaskId → Run (Except RunError Bool)
  | some waiter => do
    removeFromReadyQueue waiter
    match ← activate waiter with
    | .error error => pure (.error error)
    | .ok () => pure (.ok true)
  | none => do
    match ← nextReadyTask with
    | none => pure (.ok false)
    | some t =>
      match ← activate t with
      | .error error => pure (.error error)
      | .ok () => pure (.ok true)

/-- How the end of a task by an error begins: the error is delivered. -/
def deliverRaised (t : TaskId) (task : Task) (error : RunError) : Run (Option TaskId) := do
  setTask t { task with awaiter := none }
  deliverFailure? task.awaiter error

/-- And how it ends: the task is removed, and another one goes on. -/
def resumeAfterFailure (t : TaskId) (delivery : Option TaskId) : Run (Except RunError Unit) := do
  cleanupCurrentTask
  cancelTask t
  match ← resumeAfterTaskExit activate delivery with
  | .error error => pure (.error error)
  | .ok _ => pure (.ok ())

/-- The current task, which is not the main one, ends with an error. -/
def handleTaskFailure (error : RunError) : Run (Except RunError Unit) := do
  match (← get).currentTask with
  | none => throw .noCurrentTask
  | some t =>
    debugAssert (t != 0)
    let task ← getTask t
    let delivery ← deliverRaised t task error
    resumeAfterFailure activate t delivery

/-- Loads the context of a task, or starts it. -/
def loadOrInitTask (t : TaskId) : Run (Except RunError Unit) := do
  let task ← getTask t
  setTask t { task with frames := 0, stack := [] }
  match task.frames, task.coroutineId with
  | frames + 1, _ =>
    modify fun s => { s with stack := task.stack, suspendedFrames := frames, rootParked := false }
    pure (.ok ())
  | 0, none => throw .noContext
  | 0, some coroutineId =>
    match ← read coroutineId with
    | .coroutine .new => initTaskFromCoroutine coroutineId
    | .coroutine _ => handleTaskFailure activate .cannotReuseCoroutine
    | _ => throw .notCoroutine

/-- Saves the context that is loaded, and loads that of another task. -/
def switchTask (t : TaskId) : Run (Except RunError Unit) := do
  match (← get).currentTask with
  | none =>
    modify fun s => { s with currentTask := some t }
    loadOrInitTask activate t
  | some current =>
    if current = t then pure (.ok ())
    else
      saveTaskContext current
      modify fun s => { s with currentTask := some t }
      loadOrInitTask activate t

end

/-- Activates a task that is not queued any more. An error is raised in the task that is loaded. -/
def activateTask : Nat → TaskId → Run (Except RunError Unit)
  | 0, _ => throw .outOfFuel
  | fuel + 1, t => do
    let result ← takeResumeResult t
    match ← switchTask (activateTask fuel) t with
    | .error error => pure (.error error)
    | .ok () => pure result

/-! A task that fails when it is activated has the next one activated from within, so activations
nest. How deep they may do so is the room that the native stack has in the state in which a task is
selected. -/

section

variable (room : Vm → Nat)

/-- Activates a task, in the room that there is. -/
def activate (t : TaskId) : Run (Except RunError Unit) := do
  activateTask (room (← get)) t

/-- Goes on with a task that is ready, or asks the host. -/
def switchOrYield : Run (Except RunError AwaitResult) := do
  match ← nextReadyTask with
  | none => return .ok (.yield (← pendingCallIds))
  | some t =>
    match ← activate room t with
    | .error error => pure (.error error)
    | .ok () => pure (.ok .framePushed)

/-- How the end of a task with a value begins: the task is removed, and its value is delivered. -/
def deliverReturned (t : TaskId) (task : Task) (coroutineId : HeapId) (value : Value) :
    Run (Option TaskId) := do
  setTask t { task with awaiter := none }
  match ← read coroutineId with
  | .coroutine _ =>
    setObj coroutineId (.coroutine .completed)
    cancelTask t
    deliverSuccess? task.awaiter value
  | _ => throw .notCoroutine

/-- And how it ends: another task goes on, or the host is asked. -/
def resumeAfterCompletion (delivery : Option TaskId) : Run (Except RunError AwaitResult) := do
  cleanupCurrentTask
  match ← resumeAfterTaskExit (activate room) delivery with
  | .error error => pure (.error error)
  | .ok true => pure (.ok .framePushed)
  | .ok false => return .ok (.yield (← pendingCallIds))

/-- The current task, which is not the main one, ends with a value. -/
def handleTaskCompletion (result : Value) : Run (Except RunError AwaitResult) := do
  match (← get).currentTask with
  | none => throw .noCurrentTask
  | some t =>
    let task ← getTask t
    match task.coroutineId with
    | none => throw .noCoroutine
    | some coroutineId =>
      let delivery ← deliverReturned t task coroutineId result
      resumeAfterCompletion room delivery

end

/-! ## Awaiting -/

/-- Pushes a frame, unless that is one too many. Nothing is checked on top of the placeholder. -/
def pushFrame (limits : Limits) : Run (Except RunError Unit) := do
  let s ← get
  match limits.pushFrame with
  | some error =>
    if s.isParked then
      set { s with suspendedFrames := s.suspendedFrames + 1 }
      pure (.ok ())
    else pure (.error error)
  | none =>
    set { s with suspendedFrames := s.suspendedFrames + 1 }
    pure (.ok ())

/-- Runs a coroutine that is new on top of the current frame. -/
def awaitCoroutine (limits : Limits) (id : HeapId) : CoroutineState →
    Run (Except RunError AwaitResult)
  | .new => do
    setObj id (.coroutine .running)
    match ← pushFrame limits with
    | .error error => pure (.error error)
    | .ok () => pure (.ok .framePushed)
  | _ => pure (.error .cannotReuseCoroutine)

section

variable (room : Vm → Nat)

/-- Goes on with a value that is there, and otherwise blocks the current task. -/
def finishAwait (id : HeapId) : Except RunError Poll → Run (Except RunError AwaitResult)
  | .error error => pure (.error error)
  | .ok (.ready value) => pure (.ok (.valueReady value))
  | .ok .pending => do
    blockCurrentOn id
    switchOrYield room

/-- The `Await` instruction. -/
def execGetAwaitable (limits : Limits) (awaitable : Value) : Run (Except RunError AwaitResult) := do
  match (← get).currentTask with
  | none => throw .noCurrentTask
  | some t =>
    match awaitable with
    | .host _ => pure (.error .notAwaitable)
    | .ref id =>
      match ← read id with
      | .coroutine state => awaitCoroutine limits id state
      | .gatherFuture .. =>
        let poll ← awaitGatherFuture limits id (.task t)
        finishAwait room id poll
      | .externalFuture .. =>
        let poll ← awaitExternalFuture id (.task t)
        finishAwait room id poll
      | _ => pure (.error .notAwaitable)

end

/-- The room that is needed at most: a task that fails when it is activated was queued, or is the
one before the last. -/
def Vm.queued (s : Vm) : Nat := s.readyQueue.length + 2

end Monty.Async
