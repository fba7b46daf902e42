import Mathlib.Data.Finset.Card
import Monty.Async.Exec

/-!
# Runs of the machine

Where the machine stands is its state and what it does next: run the frame that is loaded, handle an
exception that was raised there, wait for the host to settle futures, or nothing any more. An `Op`
is a choice of the Python program, of the host, or of the memory management, and `perform` is what
the machine makes of it. What a program does between two awaits is arbitrary here: it may allocate,
call and return, raise, ask the host, and await anything that is alive.
-/

namespace Monty.Async

/-- What the machine does next. -/
inductive Control
  | running
  | raising (error : RunError)
  /-- `ResolveFutures`: every task is blocked. -/
  | yielded (calls : List CallId)
  | finished (result : Except RunError Value)
  /-- The internal error of a scheduler that has neither a task to run nor a call to wait for. -/
  | stalled

/-- How the host answers a call. An eager answer settles the future of the call before it is
awaited. -/
inductive HostReply
  | value (v : Value)
  | error (e : RunError)
  | future (sleepResult : Option Value)
  | eager (sleepResult : Option Value) (result : ExtResult)

/-- What may happen next. -/
inductive Op
  | makeCoroutine
  | makeGather (items : List HeapId)
  | makeOther
  | makeSettled (value : Value)
  | useStack (stack : List Value)
  | call
  | returnValue (value : Value)
  | raise (error : RunError)
  | await (limits : Limits) (awaitable : Value)
  | hostCall (reply : HostReply)
  /-- An exception meets a handler after so many frames are popped, or none. -/
  | handle (popped : Option Nat)
  | resume (results : List (CallId × ExtResult))
  | collect (garbage : List HeapId)

/-! ## What owns what -/

/-- What a value refers to. -/
def Value.owned : Value → List HeapId
  | .host _ => []
  | .ref id => [id]

/-- What an awaiter keeps alive. -/
def Awaiter.owned : Awaiter → List HeapId
  | .task _ => []
  | .gatherSlot gather _ => [gather]

/-- What a gather keeps alive, besides its items. -/
def GatherState.owned : GatherState → List HeapId
  | .pending => []
  | .awaited a => a.awaiter.owned ++ a.results.flatMap fun r => r.elim [] Value.owned
  | .completed value => value.owned
  | .failed _ => []

/-- What an object keeps alive. -/
def Obj.owned : Obj → List HeapId
  | .coroutine _ => []
  | .externalFuture _ (.pending awaiter) sleepResult =>
    awaiter.elim [] Awaiter.owned ++ sleepResult.elim [] Value.owned
  | .externalFuture _ (.resolved value) _ => value.owned
  | .externalFuture _ (.failed _) _ => []
  | .gatherFuture items state => items ++ state.owned
  | .list items => items.flatMap Value.owned
  | .other => []

/-- What a task waits for. -/
def TaskState.owned : TaskState → List HeapId
  | .ready _ => []
  | .blocked id => [id]

/-- What a task keeps alive. -/
def Task.owned (task : Task) : List HeapId :=
  task.coroutineId.toList ++ task.awaiter.elim [] Awaiter.owned ++ task.state.owned ++
    task.stack.flatMap Value.owned

/-- What the scheduler and the context that is loaded own. -/
def Vm.roots (s : Vm) : List HeapId :=
  s.tasks.entries.flatMap (fun entry => entry.2.owned) ++ s.pendingExternals.entries.map (·.2) ++
    s.stack.flatMap Value.owned

/-- Nothing else owns what is in the list, so that reference counts and the cycle collector may have
freed all of it. -/
def Vm.Garbage (s : Vm) (garbage : List HeapId) : Prop :=
  ∀ id ∈ garbage, id ∉ s.roots ∧ ∀ x o, s.heap.get? x = some o → id ∈ o.owned → x ∈ garbage

/-! ## One step -/

/-- What can be awaited. -/
def Obj.isAwaitable : Obj → Bool
  | .coroutine _ | .externalFuture .. | .gatherFuture .. => true
  | _ => false

/-- `asyncio.gather`, of objects that are alive. -/
def makeGather (items : List HeapId) : Run Control := do
  let s ← get
  if items.all fun id => (s.heap.get? id).elim false Obj.isAwaitable then
    let id ← allocate (.gatherFuture items .pending)
    modify fun s => { s with stack := .ref id :: s.stack }
    pure .running
  else pure (.raising .notAwaitable)

/-- What follows an `await`, or the end of a task. -/
def continueAwait : Except RunError AwaitResult → Run Control
  | .ok (.valueReady value) => do
    modify fun s => { s with stack := value :: s.stack }
    pure .running
  | .ok .framePushed => pure .running
  | .ok (.yield calls) => pure (.yielded calls)
  | .error error => pure (.raising error)

section

variable (room : Vm → Nat)

/-- The last frame of the main task ends the run, that of another task ends the task. -/
def returnValue (value : Value) : Run Control := do
  let s ← get
  match s.suspendedFrames, s.currentTask with
  | frames + 1, _ =>
    set { s with suspendedFrames := frames, stack := value :: s.stack }
    pure .running
  | 0, none => pure (.finished (.ok value))
  | 0, some 0 => pure (.finished (.ok value))
  | 0, some (_ + 1) =>
    let result ← handleTaskCompletion room value
    continueAwait result

end

/-- The program calls the host, which answers or leaves the answer for later. -/
def hostCall (reply : HostReply) : Run Control := do
  let callId ← allocateCallId
  match reply with
  | .value v =>
    modify fun s => { s with stack := v :: s.stack }
    pure .running
  | .error e => pure (.raising e)
  | .future sleepResult =>
    pushPendingFuture callId sleepResult
    pure .running
  | .eager sleepResult result =>
    pushPendingFuture callId sleepResult
    match ← applyFutureResults [(callId, result)] with
    | .error error => pure (.finished (.error error))
    | .ok () => pure .running

/-- What the machine does when there is no frame to run. -/
def pendingFuturesExit : Run Control := do
  match ← pendingCallIds with
  | [] => pure .stalled
  | calls => pure (.yielded calls)

/-- After an exception was handled: there may be no task to go on with. -/
def yieldIfParked : Run Control := do
  if (← get).isParked then pendingFuturesExit else pure .running

section

variable (room : Vm → Nat)

/-- No frame of the current task handles the exception. -/
def handleUncaught (error : RunError) : Run Control := do
  let s ← get
  match s.currentTask with
  | some (_ + 1) =>
    set { s with suspendedFrames := 0 }
    match ← handleTaskFailure (activateTask (room s)) error with
    | .error next => pure (.raising next)
    | .ok () => yieldIfParked
  | _ => pure (.finished (.error error))

/-- The exception meets a handler, or none. -/
def handleException (error : RunError) (popped : Option Nat) : Run Control :=
  match error, popped with
  | .uncatchable _, _ => pure (.finished (.error error))
  | _, some popped => do
    modify fun s => { s with suspendedFrames := s.suspendedFrames - popped }
    yieldIfParked
  | _, none => handleUncaught room error

/-- The host has answered calls. -/
def resumeWithResolvedFutures (results : List (CallId × ExtResult)) : Run Control := do
  match ← applyFutureResults results with
  | .error error => pure (.finished (.error error))
  | .ok () =>
    match ← nextReadyTask with
    | none => pendingFuturesExit
    | some t =>
      match ← activate room t with
      | .error error => pure (.raising error)
      | .ok () => pure .running

/-- Frees objects. -/
def collect (garbage : List HeapId) : Run Unit :=
  modify fun s => { s with heap := garbage.foldl StableHeap.free s.heap }

/-- What the program does while a frame runs. -/
def performRunning : Op → Run Control
  | .makeCoroutine => do
    let id ← allocate (.coroutine .new)
    modify fun s => { s with stack := .ref id :: s.stack }
    pure .running
  | .makeGather items => makeGather items
  | .makeOther => do
    let id ← allocate .other
    modify fun s => { s with stack := .ref id :: s.stack }
    pure .running
  | .makeSettled value => do
    let id ← settledAwaitable value
    modify fun s => { s with stack := .ref id :: s.stack }
    pure .running
  | .useStack stack => do
    modify fun s => { s with stack := stack }
    pure .running
  | .call => do
    modify fun s => { s with suspendedFrames := s.suspendedFrames + 1 }
    pure .running
  | .returnValue value => returnValue room value
  | .raise error => pure (.raising error)
  | .await limits awaitable => do
    let result ← execGetAwaitable room limits awaitable
    continueAwait result
  | .hostCall reply => hostCall reply
  | _ => pure .running

/-- What the machine makes of an operation; nothing, if it has no place for it. -/
def perform (op : Op) (control : Control) : Run Control :=
  match op, control with
  | .collect garbage, control => do
    collect garbage
    pure control
  | op, .running => performRunning room op
  | .handle popped, .raising error => handleException room error popped
  | .resume results, .yielded _ => resumeWithResolvedFutures room results
  | _, control => pure control

end

/-- What a program can do: it can only use what is alive, and only garbage is freed. -/
def Op.Enabled (s : Vm) : Op → Prop
  | .makeGather items => ∀ id ∈ items, id ∈ s.heap.live
  | .await _ (.ref id) => id ∈ s.heap.live
  | .handle (some popped) => popped ≤ s.suspendedFrames
  | .collect garbage => s.Garbage garbage
  | _ => True

/-- Where the machine stands. -/
structure Machine where
  vm : Vm
  control : Control

/-- The start of a program, in a build with checks or without. -/
def Machine.new (checked : Bool) : Machine := ⟨Vm.new checked, .running⟩

/-- One operation is performed, without a panic. -/
def Machine.Step (m : Machine) (op : Op) (m' : Machine) : Prop :=
  op.Enabled m.vm ∧ perform Vm.queued op m.control m.vm = .ok m'.control m'.vm

/-- An operation panics. -/
def Machine.Panics (m : Machine) (op : Op) : Prop :=
  op.Enabled m.vm ∧ ∃ panic s, perform Vm.queued op m.control m.vm = .error panic s

/-- The numbers do not run out in the next operation, which may spawn a task for every coroutine
that has not started and has none, and make one call. -/
structure Vm.Roomy (s : Vm) : Prop where
  tasks : ∃ coroutines : Finset HeapId, (∀ x, s.heap.get? x = some (.coroutine .new) →
    s.coroutineToTask.lookup x = none → x ∈ coroutines) ∧ s.nextTaskId + coroutines.card < 2 ^ 32
  calls : s.nextCallId + 1 < 2 ^ 32

/-- The machines that are reached by operations that satisfy a condition. -/
inductive Machine.Reached (ok : Vm → Op → Prop) : Machine → Prop
  | new (checked : Bool) : Reached ok (.new checked)
  | step {m m' : Machine} {op : Op} : Reached ok m → ok m.vm op → m.Step op m' → Reached ok m'

end Monty.Async
