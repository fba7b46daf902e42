import Mathlib.Algebra.Order.BigOperators.Group.List
import Mathlib.Algebra.Order.Group.Nat
import Monty.Async.Machine
import Monty.Lib.TwoEnded

/-!
# What holds of the tasks and the awaitables

Between two steps of the machine, and at certain points inside one, the four structures that say who
waits for whom agree:

* `Scheduled`: the ready queue has the tasks that may run, each once, except the one that runs;
  every task but the main one drives a coroutine, and the scheduler finds it there.
* `Registered`: the calls without an answer are the external futures that are pending.
* `Shaped`: items of gathers are awaitable, and an awaited gather lacks the results of exactly its
  pending children.
* `Vm.links`: an awaitable and the task or gather that waits for it know of each other.
* `Ordered`: items come before the gathers they are in, and a task is younger than the one that
  waits for it.

Inside a step a gather may be half committed: it is on the `stack` of the commit. And something may
have settled of which its awaiter is not told yet: that link is `loose`. The task `run` is ready
without being queued.
-/

namespace Monty.Async

open Option Obj GatherCommit Function

/-! ## Both ends of a link -/

def Obj.knows : Obj → HeapId → Prop
  | .gatherFuture _ (.awaited a), x => x ∈ a.pendingChildren
  | _, _ => False

variable {o : Obj} {x : HeapId}

theorem Obj.knows_iff :
    o.knows x ↔ ∃ items a, o = .gatherFuture items (.awaited a) ∧ x ∈ a.pendingChildren := by
  unfold knows
  split
  · exact ⟨fun hx => ⟨_, _, rfl, hx⟩, by rintro ⟨_, _, ⟨⟩, hx⟩; exact hx⟩
  · next hne => exact ⟨False.elim, fun ⟨items, a, heq, _⟩ => hne items a heq⟩

def Obj.isSettled : Obj → Prop
  | .gatherFuture _ (.completed _) => True
  | .gatherFuture _ (.failed _) => True
  | _ => False

theorem Obj.isSettled.not_knows (h : o.isSettled) : ¬ o.knows x := by
  rw [knows_iff]
  rintro ⟨items, a, rfl, -⟩
  exact h

/-- The value of an awaitable. That of a coroutine is what its task returned. -/
def Obj.value (returned : Option Value) : Obj → Option Value
  | .externalFuture _ (.resolved v) _ => some v
  | .gatherFuture _ (.completed v) => some v
  | .coroutine .completed => returned
  | _ => none

/-- The error that an awaitable has failed with. -/
def Obj.failure : Obj → Option RunError
  | .externalFuture _ (.failed error) _ => some error
  | .gatherFuture _ (.failed error) => some error
  | _ => none

variable (s : Vm)

namespace Vm

def driver (c : HeapId) : Option Task := (s.coroutineToTask.lookup c).bind fun t => s.tasks.lookup t

def objWaiter (x : HeapId) : Obj → Option Awaiter
  | .externalFuture _ (.pending awaiter) _ => awaiter
  | .gatherFuture _ (.awaited a) => some a.awaiter
  | .coroutine _ => (s.driver x).bind Task.awaiter
  | _ => none

/-- Who waits for an awaitable. -/
def waiter (x : HeapId) : Option Awaiter := (s.heap.get? x).bind (s.objWaiter x)

/-- What a task or a gather waits for. A gather that is being committed has its children in its
frame. -/
def knows (s : Vm) (stack : List GatherCommit) : Awaiter → HeapId → Prop
  | .task t, x => ∃ task, s.tasks.lookup t = some task ∧ task.state = .blocked x
  | .gatherSlot g y, x => y = x ∧ ((∃ f ∈ stack, f.gather = g ∧ x ∈ f.pendingChildren) ∨
      ∃ o, s.heap.get? g = some o ∧ o.knows x)

/-- A gather that has settled takes no more results. -/
def done : Awaiter → Prop
  | .task _ => False
  | .gatherSlot g _ => ∃ o, s.heap.get? g = some o ∧ o.isSettled

def links (stack : List GatherCommit) : Links Awaiter HeapId := ⟨s.waiter, s.knows stack, s.done⟩

def value (s : Vm) (returned : HeapId → Option Value) (x : HeapId) : Option Value :=
  (s.heap.get? x).bind (Obj.value (returned x))

def failure (x : HeapId) : Option RunError := (s.heap.get? x).bind Obj.failure

end Vm

/-! ## The invariant -/

/-- A task that may run. -/
def Task.Ready (task : Task) : Prop := ∃ result, task.state = .ready result

structure Scheduled (s : Vm) (run : Option TaskId) : Prop where
  nodup : s.readyQueue.Nodup
  mem_queue : ∀ t, t ∈ s.readyQueue ↔
    ∃ task, s.tasks.lookup t = some task ∧ task.Ready ∧ run ≠ some t
  run_ready : ∀ t, run = some t → ∃ task, s.tasks.lookup t = some task ∧ task.Ready
  lt_next : ∀ t task, s.tasks.lookup t = some task → t < s.nextTaskId
  driven : ∀ c t, s.coroutineToTask.lookup c = some t ↔
    ∃ task, s.tasks.lookup t = some task ∧ task.coroutineId = some c
  main : ∃ task, s.tasks.lookup 0 = some task ∧ task.coroutineId = none ∧ task.awaiter = none
  spawned : ∀ t task, s.tasks.lookup t = some task → t ≠ 0 → ∃ c, task.coroutineId = some c
  /-- The context of the main task, and that of a task that blocks, is saved unless it is loaded. -/
  context : ∀ t task, s.tasks.lookup t = some task → (t = 0 ∨ ¬ task.Ready) →
    s.currentTask ≠ some t → task.frames ≠ 0
  awaiter_slot : ∀ t task w, s.tasks.lookup t = some task → task.awaiter = some w →
    ∃ g c, w = .gatherSlot g c ∧ task.coroutineId = some c
  current : ∀ t, s.currentTask = some t → ∃ task, s.tasks.lookup t = some task

structure Registered (s : Vm) : Prop where
  externals : ∀ call x, s.pendingExternals.lookup call = some x ↔
    ∃ w r, s.heap.get? x = some (.externalFuture call (.pending w) r)
  call_lt : ∀ call x, s.pendingExternals.lookup call = some x → call < s.nextCallId

/-- The results of a gather of which `n` items are committed: those of the pending children are
missing, and those of the other items are their values. -/
structure Slots (value : HeapId → Option Value) (items : List HeapId)
    (results : List (Option Value)) (pending : PendingChildren) (n : Nat) : Prop where
  length : results.length = items.length
  le : n ≤ items.length
  ne_nil : ∀ x slots, pending.lookup x = some slots → slots ≠ []
  slot : ∀ x slots, pending.lookup x = some slots → ∀ i ∈ slots, i < n ∧ items[i]? = some x
  missing : ∀ i : Nat, results[i]? = some none ↔
    i < items.length ∧ (n ≤ i ∨ ∃ x slots, pending.lookup x = some slots ∧ i ∈ slots)
  filled : ∀ (i : Nat) v, results[i]? = some (some v) → ∃ x, items[i]? = some x ∧ value x = some v

structure Shaped (returned : HeapId → Option Value) (s : Vm) : Prop where
  coroutine : ∀ t task c, s.tasks.lookup t = some task → task.coroutineId = some c →
    ∃ state, s.heap.get? c = some (.coroutine state) ∧ state ≠ .completed
  item : ∀ g items state, s.heap.get? g = some (.gatherFuture items state) → ∀ x ∈ items,
    ∃ o, s.heap.get? x = some o ∧ o.isAwaitable = true
  slot : ∀ x g y, s.waiter x = some (.gatherSlot g y) → y = x ∧
    ∃ items state, s.heap.get? g = some (.gatherFuture items state) ∧ x ∈ items
  awaited : ∀ g items a, s.heap.get? g = some (.gatherFuture items (.awaited a)) →
    Slots (s.value returned) items a.results a.pendingChildren items.length ∧
      a.pendingChildren.keys ≠ []

/-- The task that a waiter works for, if that of each awaitable is known. -/
def Awaiter.lead (owner : HeapId → TaskId) : Awaiter → TaskId
  | .task t => t
  | .gatherSlot g _ => owner g

structure Ordered (s : Vm) (rank : HeapId → Nat) (owner : HeapId → TaskId) : Prop where
  item_lt : ∀ g items state, s.heap.get? g = some (.gatherFuture items state) → ∀ x ∈ items,
    rank x < rank g
  owner_eq : ∀ x w, s.waiter x = some w → ¬ s.done w → owner x = w.lead owner
  lt_task : ∀ t task w, s.tasks.lookup t = some task → task.awaiter = some w → ¬ s.done w →
    w.lead owner < t

/-- A gather that is half committed. -/
structure Committing (returned : HeapId → Option Value) (s : Vm) (f : GatherCommit) : Prop where
  frame : ∃ items, s.heap.get? f.gather = some (.gatherFuture items .pending) ∧
    Slots (s.value returned) items f.results f.pendingChildren f.next

structure Consistent (returned : HeapId → Option Value) (prompt : Prop) (s : Vm)
    (run : Option TaskId) (stack : List GatherCommit) (loose : Option (Awaiter × HeapId)) :
      Prop where
  scheduled : Scheduled s run
  registered : Registered s
  shaped : Shaped returned s
  linked : (s.links stack).Agree loose
  ordered : ∃ rank owner, Ordered s rank owner ∧ ∀ f ∈ stack, ∃ t, run = some t ∧ owner f.gather = t
  committing : ∀ f ∈ stack, Committing returned s f
  distinct : (stack.map GatherCommit.gather).Nodup
  /-- The coroutine of a task that has not started is new, if no coroutine is started elsewhere. -/
  unstarted : prompt → ∀ t task c, s.tasks.lookup t = some task → task.frames = 0 →
    s.currentTask ≠ some t → task.coroutineId = some c → s.heap.get? c = some (.coroutine .new)

/-! ## What changes on the way -/

/-- One object is changed or made. -/
abbrev Vm.Put (s s' : Vm) (x : HeapId) (o : Obj) : Prop :=
  ∀ y, s'.heap.get? y = if y = x then some o else s.heap.get? y

/-- An object is changed. -/
abbrev Vm.put (x : HeapId) (o : Obj) : Vm := { s with heap := s.heap.set x o }

theorem Vm.put_put {s : Vm} (hx : s.heap.get? x = some o) (o' : Obj) :
    s.Put (s.put x o') x o' := StableHeap.get?_set hx o'

/-- One task is changed or made. -/
abbrev Vm.PutTask (s s' : Vm) (t : TaskId) (task : Task) : Prop :=
  ∀ t', s'.tasks.lookup t' = if t' = t then some task else s.tasks.lookup t'

abbrev Vm.putTask (t : TaskId) (task : Task) : Vm := { s with tasks := s.tasks.insert t task }

theorem Vm.putTask_putTask (t : TaskId) (task : Task) : s.PutTask (s.putTask t task) t task :=
  fun _ => Keyed.lookup_insert_eq ..

/-- What does not change any more. -/
def Obj.isFinal : Obj → Prop
  | .coroutine .completed => True
  | .externalFuture _ (.resolved _) _ => True
  | .externalFuture _ (.failed _) _ => True
  | .gatherFuture _ (.completed _) => True
  | .gatherFuture _ (.failed _) => True
  | .list _ => True
  | .other => True
  | _ => False

/-- The same object, in another state. -/
def Obj.SameKind : Obj → Obj → Prop
  | .coroutine _, .coroutine _ => True
  | .externalFuture call _ _, .externalFuture call' _ _ => call = call'
  | .gatherFuture items _, .gatherFuture items' _ => items = items'
  | _, _ => False

def Complete (returned : HeapId → Option Value) (s : Vm) (items : List HeapId) (v : Value) : Prop :=
  ∃ list values, v = .ref list ∧ s.heap.get? list = some (.list values) ∧
    List.Forall₂ (fun x value => s.value returned x = some value) items values

/-- What may have happened to the objects: those that are final stay, the others are still there,
and a gather that has completed has the values of its items. -/
structure Later (returned : HeapId → Option Value) (s s' : Vm) : Prop where
  keep : ∀ x o, s.heap.get? x = some o →
    ∃ o', s'.heap.get? x = some o' ∧ (o' = o ∨ ¬ o.isFinal ∧ o.SameKind o')
  completed : ∀ g items v, s'.heap.get? g = some (.gatherFuture items (.completed v)) →
    s.heap.get? g = some (.gatherFuture items (.completed v)) ∨ Complete returned s' items v

variable {returned : HeapId → Option Value} {s s' : Vm} {x : HeapId} {o' : Obj}

section Later

variable {s'' : Vm} {o : Obj}

theorem Obj.SameKind.trans {o' o'' : Obj} (h1 : o.SameKind o') (h2 : o'.SameKind o'') :
    o.SameKind o'' := by
  cases o <;> cases o' <;> cases o'' <;> simp_all [Obj.SameKind]

theorem Obj.SameKind.isAwaitable (h : o.SameKind o') : o'.isAwaitable = true := by
  cases o <;> cases o' <;> simp_all [Obj.SameKind, isAwaitable]

theorem Obj.SameKind.gather {items : List HeapId} {state : GatherState}
    (h : o.SameKind (.gatherFuture items state)) : ∃ state', o = .gatherFuture items state' := by
  cases o with
  | gatherFuture items' state' => exact ⟨state', congrArg (gatherFuture · _) h⟩
  | _ => exact h.elim

variable {v : Value}

theorem Obj.isFinal_of_value {r : Option Value} (h : o.value r = some v) : o.isFinal := by
  unfold value at h
  split at h <;> simp_all [isFinal]

theorem Later.refl (s : Vm) : Later returned s s :=
  ⟨fun _ o ho => ⟨o, ho, .inl rfl⟩, fun _ _ _ => .inl⟩

variable (h : Later returned s s')

include h in
theorem Later.get?_of_final (ho : s.heap.get? x = some o)
    (hfinal : o.isFinal) : s'.heap.get? x = some o := by
  obtain ⟨o', ho', rfl | ⟨hnot, -⟩⟩ := h.keep x o ho
  · exact ho'
  · exact absurd hfinal hnot

include h in
theorem Later.value (hv : s.value returned x = some v) : s'.value returned x = some v := by
  obtain ⟨o, ho, hv⟩ := bind_eq_some_iff.mp hv
  rw [Vm.value, h.get?_of_final ho (isFinal_of_value hv)]
  exact hv

theorem Obj.isFinal_of_failure {error : RunError} (h : o.failure = some error) : o.isFinal := by
  unfold failure at h
  split at h <;> simp_all [isFinal]

include h in
theorem Later.get?_of_failure {error : RunError} (hf : s.failure x = some error) :
    s'.heap.get? x = s.heap.get? x := by
  obtain ⟨o, ho, hf⟩ := bind_eq_some_iff.mp hf
  rw [h.get?_of_final ho (isFinal_of_failure hf), ho]

variable {items : List HeapId}

include h in
theorem Later.complete (hc : Complete returned s items v) : Complete returned s' items v := by
  obtain ⟨list, values, hv, hlist, hvalues⟩ := hc
  exact ⟨list, values, hv, h.get?_of_final hlist trivial, hvalues.imp fun _ _ => h.value⟩

theorem Later.trans (h1 : Later returned s s') (h2 : Later returned s' s'') :
    Later returned s s'' := by
  refine ⟨fun x o ho => ?_, fun g items v hg => ?_⟩
  · obtain ⟨o', ho', hoo'⟩ := h1.keep x o ho
    obtain ⟨o'', ho'', ho'o''⟩ := h2.keep x o' ho'
    refine ⟨o'', ho'', ?_⟩
    rcases hoo' with rfl | ⟨hnot, hkind⟩
    · exact ho'o''
    · rcases ho'o'' with rfl | ⟨-, hkind'⟩
      · exact .inr ⟨hnot, hkind⟩
      · exact .inr ⟨hnot, hkind.trans hkind'⟩
  · rcases h2.completed g items v hg with hg | hg
    · exact (h1.completed g items v hg).imp_right h2.complete
    · exact .inr hg

/-- An object is changed or made. -/
theorem Later.of_put (hget : s.Put s' x o')
    (hold : ∀ o, s.heap.get? x = some o → ¬ o.isFinal ∧ o.SameKind o')
    (hnew : ∀ items v, o' = .gatherFuture items (.completed v) → Complete returned s' items v) :
    Later returned s s' := by
  refine ⟨fun y o ho => ?_, fun g items v hg => ?_⟩
  · rw [hget]
    split_ifs with hy
    · exact ⟨o', rfl, .inr (hold o (hy ▸ ho))⟩
    · exact ⟨o, ho, .inl rfl⟩
  · rw [hget] at hg
    split_ifs at hg
    · exact .inr (hnew items v (some.inj hg))
    · exact .inl hg

variable {results : List (Option Value)} {pending : PendingChildren}

theorem Slots.mono {value value' : HeapId → Option Value} {n : Nat}
    (h : Slots value items results pending n)
    (hvalue : ∀ x ∈ items, ∀ v, value x = some v → value' x = some v) :
    Slots value' items results pending n :=
  ⟨h.length, h.le, h.ne_nil, h.slot, h.missing, fun i v hv => by
    obtain ⟨x, hx, hxv⟩ := h.filled i v hv
    exact ⟨x, hx, hvalue x (List.mem_of_getElem? hx) v hxv⟩⟩

theorem Slots.mem_items {value : HeapId → Option Value} {n : Nat}
    (h : Slots value items results pending n) (hx : x ∈ pending) : x ∈ items := by
  obtain ⟨slots, hslots⟩ := (Keyed.mem_keys_iff _ _).mp (AList.mem_keys.mpr hx)
  obtain ⟨i, is, rfl⟩ := List.exists_cons_of_ne_nil (h.ne_nil x slots hslots)
  exact List.mem_of_getElem? (h.slot x _ hslots i List.mem_cons_self).2

include h in
theorem Committing.later {f : GatherCommit} (hf : Committing returned s f)
    (hget : s'.heap.get? f.gather = s.heap.get? f.gather) : Committing returned s' f := by
  obtain ⟨items, hitems, hslots⟩ := hf.frame
  exact ⟨items, hget.trans hitems, hslots.mono fun _ _ _ => h.value⟩

include h in
theorem Later.gather {g : HeapId} {state : GatherState}
    (hg : s.heap.get? g = some (.gatherFuture items state)) :
    ∃ state', s'.heap.get? g = some (.gatherFuture items state') := by
  obtain ⟨o, ho, rfl | ⟨-, hkind⟩⟩ := h.keep g _ hg
  · exact ⟨state, ho⟩
  cases o with
  | gatherFuture items' state' =>
    obtain rfl : items = items' := hkind
    exact ⟨state', ho⟩
  | _ => exact hkind.elim

include h in
theorem Later.awaitable (ho : ∃ o, s.heap.get? x = some o ∧ o.isAwaitable = true) :
    ∃ o, s'.heap.get? x = some o ∧ o.isAwaitable = true := by
  obtain ⟨o, hx, ho⟩ := ho
  obtain ⟨o', ho', rfl | ⟨-, hkind⟩⟩ := h.keep x o hx
  · exact ⟨o', ho', ho⟩
  · exact ⟨o', ho', hkind.isAwaitable⟩

end Later

/-! ## One object changes -/

/-- The tasks are in other states, and that is all. -/
structure SameTasks (s s' : Vm) : Prop where
  same : ∀ t, (s'.tasks.lookup t).map (fun task => (task.awaiter, task.coroutineId, task.frames)) =
    (s.tasks.lookup t).map fun task => (task.awaiter, task.coroutineId, task.frames)
  driven : s'.coroutineToTask = s.coroutineToTask

theorem SameTasks.of_eq {s s' : Vm} (htasks : s'.tasks = s.tasks)
    (hdriven : s'.coroutineToTask = s.coroutineToTask) : SameTasks s s' :=
  ⟨fun t => by rw [htasks], hdriven⟩

variable {t : TaskId} {task task' : Task}

theorem SameTasks.of_insert {s s' : Vm} (ht : s.tasks.lookup t = some task)
    (htasks : s'.tasks = s.tasks.insert t task') (hawaiter : task'.awaiter = task.awaiter)
    (hcoroutine : task'.coroutineId = task.coroutineId) (hframes : task'.frames = task.frames)
    (hdriven : s'.coroutineToTask = s.coroutineToTask) : SameTasks s s' := by
  refine ⟨fun t' => ?_, hdriven⟩
  rw [htasks, Keyed.lookup_insert_eq]
  split_ifs with h
  · rw [h, ht, map_some, map_some, hawaiter, hcoroutine, hframes]
  · rfl

theorem SameTasks.exists {s s' : Vm} (h : SameTasks s s')
    (ht : s'.tasks.lookup t = some task') : ∃ task : Task, s.tasks.lookup t = some { task with
      awaiter := task'.awaiter, coroutineId := task'.coroutineId, frames := task'.frames } := by
  have hsame := h.same t
  rw [ht, map_some] at hsame
  obtain ⟨task, htask, heq⟩ := map_eq_some_iff.mp hsame.symm
  simp only [Prod.mk.injEq] at heq
  refine ⟨task, ?_⟩
  rw [← heq.1, ← heq.2.1, ← heq.2.2]
  exact htask

variable {run' : Option TaskId}

variable {run : Option TaskId}

section Put

variable (hget : s.Put s' x o') (htasks : SameTasks s s')

include htasks in
theorem objWaiter_congr (y : HeapId) (o : Obj) : s'.objWaiter y o = s.objWaiter y o := by
  have hdriver : (s'.driver y).bind Task.awaiter = (s.driver y).bind Task.awaiter := by
    rw [Vm.driver, Vm.driver, htasks.driven]
    cases s.coroutineToTask.lookup y with
    | none => rfl
    | some t =>
      have ht := htasks.same t
      cases h' : s'.tasks.lookup t <;> cases h : s.tasks.lookup t <;> simp_all
  unfold Vm.objWaiter
  rw [hdriver]

include hget htasks in
theorem waiter_put (y : HeapId) : s'.waiter y = if y = x then s.objWaiter x o' else s.waiter y := by
  rw [Vm.waiter, hget]
  split_ifs with hy
  · rw [hy]
    exact objWaiter_congr htasks x o'
  · exact congrArg _ (funext (objWaiter_congr htasks y))

include hget in
theorem knows_slot_put (stack : List GatherCommit) (g z y : HeapId) :
    s'.knows stack (.gatherSlot g z) y ↔ z = y ∧
      ((∃ f ∈ stack, f.gather = g ∧ y ∈ f.pendingChildren) ∨
        if g = x then o'.knows y else ∃ o, s.heap.get? g = some o ∧ o.knows y) := by
  rw [Vm.knows, hget]
  split_ifs <;> simp

include hget in
theorem done_slot_put (g z : HeapId) : s'.done (.gatherSlot g z) ↔
    if g = x then o'.isSettled else s.done (.gatherSlot g z) := by
  rw [Vm.done, hget]
  by_cases hg : g = x
  · simp [hg]
  · rw [if_neg hg, if_neg hg]
    rfl

include hget in
theorem knows_put_iff {stack : List GatherCommit}
    (htask : ∀ t y, s'.knows stack (.task t) y ↔ s.knows stack (.task t) y)
    (hx : ∀ y, o'.knows y ↔ ∃ o, s.heap.get? x = some o ∧ o.knows y) (w : Awaiter) (y : HeapId) :
    s'.knows stack w y ↔ s.knows stack w y := by
  cases w with
  | task t => exact htask t y
  | gatherSlot g z =>
    rw [knows_slot_put hget, Vm.knows]
    split_ifs with hg
    · rw [hx, hg]
    · rfl

include hget in
theorem done_put_iff (hx : o'.isSettled ↔ ∃ o, s.heap.get? x = some o ∧ o.isSettled) (w : Awaiter) :
    s'.done w ↔ s.done w := by
  cases w with
  | task t => rfl
  | gatherSlot g z =>
    rw [done_slot_put hget]
    split_ifs with hg
    · rw [hx, hg]
      rfl
    · rfl

include hget in
theorem done_put_mono (hx : s.heap.get? x = some o) (ho : o.isSettled → o'.isSettled)
    (w : Awaiter) (hd : s.done w) : s'.done w := by
  cases w with
  | task t => exact hd
  | gatherSlot g z =>
    rw [done_slot_put hget]
    split_ifs with hg
    · obtain ⟨o1, ho1, hsettled⟩ := hd
      obtain rfl := mem_unique hx (hg ▸ ho1)
      exact ho hsettled
    · exact hd

/-- The waiter of `x` is its slot in a gather. -/
abbrev Vm.SlotIn (s : Vm) (x g z : HeapId) : Prop :=
  z = x ∧ ∃ items state, s.heap.get? g = some (.gatherFuture items state) ∧ x ∈ items

/-- The results of an awaited gather are those of its children. -/
abbrev Awaits (returned : HeapId → Option Value) (s : Vm) (items : List HeapId)
    (a : AwaitedGather) : Prop :=
  Slots (s.value returned) items a.results a.pendingChildren items.length ∧
  a.pendingChildren.keys ≠ []

/-- The shape is kept if the object that changes is well shaped. -/
theorem Shaped.put {returned : HeapId → Option Value} (h : Shaped returned s)
    (hl : Later returned s s') (hget : s.Put s' x o')
    (htasks : SameTasks s s')
    (hcoroutine : ∀ t task, s.tasks.lookup t = some task → task.coroutineId = some x →
      ∃ state, o' = .coroutine state ∧ state ≠ .completed)
    (hitem : ∀ items state, o' = .gatherFuture items state → ∀ y ∈ items,
      ∃ o, s.heap.get? y = some o ∧ o.isAwaitable = true)
    (hslot : ∀ g z, s.objWaiter x o' = some (.gatherSlot g z) → s.SlotIn x g z)
    (hawaited : ∀ items a, o' = .gatherFuture items (.awaited a) → Awaits returned s items a) :
      Shaped returned s' := by
  refine ⟨fun t task c ht hc => ?_, fun g items state hg y hy => ?_, fun y g z hy => ?_,
    fun g items a hg => ?_⟩
  · obtain ⟨task0, ht0⟩ := htasks.exists ht
    rw [hget]
    split_ifs with hcx
    · obtain ⟨state, ho', hstate⟩ := hcoroutine t _ ht0 (hcx ▸ hc)
      exact ⟨state, by rw [ho'], hstate⟩
    · exact h.coroutine t _ c ht0 hc
  · rw [hget] at hg
    split_ifs at hg
    · exact hl.awaitable (hitem items state (some.inj hg) y hy)
    · exact hl.awaitable (h.item g items state hg y hy)
  · have hold : s.SlotIn y g z := by
      rw [waiter_put hget htasks] at hy
      split_ifs at hy with hyx
      · exact hyx ▸ hslot g z hy
      · exact h.slot y g z hy
    obtain ⟨hz, items, state, hg, hmem⟩ := hold
    obtain ⟨state', hg'⟩ := hl.gather hg
    exact ⟨hz, items, state', hg', hmem⟩
  have hold : Awaits returned s items a := by
    rw [hget] at hg
    split_ifs at hg
    · exact hawaited items a (some.inj hg)
    · exact h.awaited g items a hg
  exact ⟨hold.1.mono fun _ _ _ => hl.value, hold.2⟩

theorem Ordered.put {rank : HeapId → Nat} {owner : HeapId → TaskId} (h : Ordered s rank owner)
    (ho : s.heap.get? x = some o) (hget : s.Put s' x o') (hkind : o.SameKind o')
    (htasks : SameTasks s s') (hdone : ∀ w, s.done w → s'.done w)
    (howner : ∀ w, s.objWaiter x o' = some w → ¬ s'.done w → owner x = w.lead owner) :
    Ordered s' rank owner := by
  refine ⟨fun g items state hg y hy => ?_, fun y w hy hw => ?_, fun t task w ht hw hnot => ?_⟩
  · rw [hget] at hg
    split_ifs at hg with hgx
    · obtain rfl := some.inj hg
      obtain ⟨state', rfl⟩ := hkind.gather
      exact h.item_lt g items state' (hgx ▸ ho) y hy
    · exact h.item_lt g items state hg y hy
  · rw [waiter_put hget htasks] at hy
    split_ifs at hy with hyx
    · exact hyx ▸ howner w hy hw
    · exact h.owner_eq y w hy fun hdn => hw (hdone w hdn)
  · obtain ⟨task0, ht0⟩ := htasks.exists ht
    exact h.lt_task t _ w ht0 hw fun hdn => hnot (hdone w hdn)

/-- Futures that are pending stay the same. -/
theorem Registered.put (h : Registered s) (ho : s.heap.get? x = some o) (hget : s.Put s' x o')
    (hcall : ∀ call, (∃ w r, o = .externalFuture call (.pending w) r) ↔
      ∃ w r, o' = .externalFuture call (.pending w) r)
    (hpending : s'.pendingExternals = s.pendingExternals) (hnext : s.nextCallId ≤ s'.nextCallId) :
    Registered s' := by
  refine ⟨fun call y => ?_, fun call y hy => (h.call_lt call y (hpending ▸ hy)).trans_le hnext⟩
  rw [hpending, h.externals, hget]
  split_ifs with hy
  · rw [hy, ho]
    simpa using hcall call
  · rfl

/-- The scheduler is the same, but for what the operand stacks of the tasks hold. -/
structure SameScheduler (s s' : Vm) : Prop where
  tasks : ∀ t, (s'.tasks.lookup t).map (fun task => { task with stack := [] }) =
    (s.tasks.lookup t).map fun task => { task with stack := [] }
  readyQueue : s'.readyQueue = s.readyQueue
  currentTask : s'.currentTask = s.currentTask
  nextTaskId : s'.nextTaskId = s.nextTaskId
  coroutineToTask : s'.coroutineToTask = s.coroutineToTask

theorem SameScheduler.of_eq {s s' : Vm} (h : s'.toScheduler = s.toScheduler) :
    SameScheduler s s' := by
  refine ⟨fun t => ?_, ?_, ?_, ?_, ?_⟩ <;> rw [h]

theorem SameScheduler.symm {s s' : Vm} (h : SameScheduler s s') : SameScheduler s' s :=
  ⟨fun t => (h.tasks t).symm, h.readyQueue.symm, h.currentTask.symm, h.nextTaskId.symm,
    h.coroutineToTask.symm⟩

theorem SameScheduler.exists {s s' : Vm} (h : SameScheduler s s')
    (ht : s'.tasks.lookup t = some task') :
    ∃ stack, s.tasks.lookup t = some { task' with stack } := by
  have hsame := h.tasks t
  rw [ht, map_some] at hsame
  obtain ⟨task, htask, heq⟩ := map_eq_some_iff.mp hsame.symm
  refine ⟨task.stack, htask.trans (congrArg some ?_)⟩
  cases task
  cases task'
  simp_all

theorem SameScheduler.sameTasks {s s' : Vm} (h : SameScheduler s s') : SameTasks s s' := by
  refine ⟨fun t => ?_, h.coroutineToTask⟩
  have ht := congrArg (Option.map fun task => (task.awaiter, task.coroutineId, task.frames))
    (h.tasks t)
  rw [map_map, map_map] at ht
  exact ht

/-- What is said of a task but for its stack holds of it before just if it does afterwards. -/
theorem SameScheduler.exists_iff {s s' : Vm} (h : SameScheduler s s') {P : Task → Prop}
    (hP : ∀ task stack, P { task with stack := stack } ↔ P task) (t : TaskId) :
    (∃ task, s'.tasks.lookup t = some task ∧ P task) ↔ ∃ task,
    s.tasks.lookup t = some task ∧ P task := by
  constructor
  · rintro ⟨task, ht, hp⟩
    obtain ⟨stack, ht0⟩ := h.exists ht
    exact ⟨_, ht0, (hP task stack).mpr hp⟩
  · rintro ⟨task, ht, hp⟩
    obtain ⟨stack, ht0⟩ := h.symm.exists ht
    exact ⟨_, ht0, (hP task stack).mpr hp⟩

theorem Scheduled.congr (h : Scheduled s run) (hs : SameScheduler s s') : Scheduled s' run := by
  constructor
  case nodup => exact hs.readyQueue ▸ h.nodup
  case mem_queue =>
    intro t
    rw [hs.readyQueue, h.mem_queue]
    exact (hs.exists_iff (fun _ _ => .rfl) t).symm
  case run_ready => exact fun t ht => (hs.exists_iff (fun _ _ => .rfl) t).mpr (h.run_ready t ht)
  case lt_next =>
    intro t task ht
    obtain ⟨_, ht0⟩ := hs.exists ht
    exact hs.nextTaskId ▸ h.lt_next t _ ht0
  case driven =>
    intro c t
    rw [hs.coroutineToTask, h.driven]
    exact (hs.exists_iff (fun _ _ => .rfl) t).symm
  case main => exact (hs.exists_iff (fun _ _ => .rfl) 0).mpr h.main
  case spawned =>
    intro t task ht hne
    obtain ⟨stack, ht0⟩ := hs.exists ht
    exact h.spawned t { task with stack } ht0 hne
  case context =>
    intro t task ht hor hcur
    obtain ⟨stack, ht0⟩ := hs.exists ht
    exact h.context t { task with stack } ht0 hor (hs.currentTask ▸ hcur)
  case awaiter_slot =>
    intro t task w ht hw
    obtain ⟨stack, ht0⟩ := hs.exists ht
    exact h.awaiter_slot t { task with stack } w ht0 hw
  case current =>
    intro t ht
    obtain ⟨task, htask⟩ := h.current t (hs.currentTask ▸ ht)
    obtain ⟨_, ht0⟩ := hs.symm.exists htask
    exact ⟨_, ht0⟩

section

variable (h : Scheduled s run) (ht : s.tasks.lookup t = some task) (hlookup : s.PutTask s' t task')
  (hcoroutine : task'.coroutineId = task.coroutineId)
  (hawaiter : ∀ w, task'.awaiter = some w → task.awaiter = some w)

include ht hlookup hcoroutine hawaiter

omit h in
/-- A task afterwards is the one before, or `t`. -/
theorem task_before (t' : TaskId) (task1 : Task) (ht' : s'.tasks.lookup t' = some task1) :
    ∃ task0, s.tasks.lookup t' = some task0 ∧ task0.coroutineId = task1.coroutineId ∧
      ∀ w, task1.awaiter = some w → task0.awaiter = some w := by
  rw [hlookup] at ht'
  split_ifs at ht' with heq
  · obtain rfl := some.inj ht'
    exact ⟨task, heq ▸ ht, hcoroutine.symm, hawaiter⟩
  · exact ⟨task1, ht', rfl, fun _ hw => hw⟩

include h

/-- One task changes, and the queue with it. -/
theorem Scheduled.insert
    (hnext : s'.nextTaskId = s.nextTaskId) (hdriven : s'.coroutineToTask = s.coroutineToTask)
    (hcurrent : ∀ t', s'.currentTask = some t' → ∃ task, s.tasks.lookup t' = some task)
    (nodup : s'.readyQueue.Nodup)
    (mem_queue : ∀ t', t' ∈ s'.readyQueue ↔
      ∃ task, s'.tasks.lookup t' = some task ∧ task.Ready ∧ run' ≠ some t')
    (run_ready : ∀ t', run' = some t' → ∃ task, s'.tasks.lookup t' = some task ∧ task.Ready)
    (context : ∀ t' task, s'.tasks.lookup t' = some task → (t' = 0 ∨ ¬ task.Ready) →
      s'.currentTask ≠ some t' → task.frames ≠ 0) : Scheduled s' run' := by
  have hfrom := task_before ht hlookup hcoroutine hawaiter
  constructor
  case nodup => exact nodup
  case mem_queue => exact mem_queue
  case run_ready => exact run_ready
  case context => exact context
  case lt_next =>
    intro t' task1 ht'
    obtain ⟨task0, ht0, -⟩ := hfrom t' task1 ht'
    exact hnext ▸ h.lt_next t' task0 ht0
  case driven =>
    intro c t'
    rw [hdriven, h.driven, hlookup]
    split_ifs with ht'
    · rw [ht', ht]
      simp [hcoroutine]
    · rfl
  case main =>
    obtain ⟨task0, ht0, hc, hw⟩ := h.main
    rw [hlookup]
    split_ifs with ht'
    · obtain rfl := some.inj ((ht' ▸ ht).symm.trans ht0)
      refine ⟨task', rfl, hcoroutine.trans hc, ?_⟩
      cases hw' : task'.awaiter with
      | none => rfl
      | some w => exact nomatch hw.symm.trans (hawaiter w hw')
    · exact ⟨task0, ht0, hc, hw⟩
  case spawned =>
    intro t' task1 ht' hne
    obtain ⟨task0, ht0, hc, -⟩ := hfrom t' task1 ht'
    exact hc ▸ h.spawned t' task0 ht0 hne
  case awaiter_slot =>
    intro t' task1 w ht' hw
    obtain ⟨task0, ht0, hc, hw0⟩ := hfrom t' task1 ht'
    exact hc ▸ h.awaiter_slot t' task0 w ht0 (hw0 w hw)
  case current =>
    intro t' ht'
    rw [hlookup]
    split_ifs with heq
    · exact ⟨task', rfl⟩
    · exact hcurrent t' ht'

theorem Scheduled.touch (hready : task'.Ready ↔ task.Ready) (hnext : s'.nextTaskId = s.nextTaskId)
    (hdriven : s'.coroutineToTask = s.coroutineToTask) (hqueue : s'.readyQueue = s.readyQueue)
    (hcurrent : ∀ t', s'.currentTask = some t' → ∃ task, s.tasks.lookup t' = some task)
    (hstay : ∀ t' ≠ t, s.currentTask = some t' → s'.currentTask = some t')
    (hcontext : (t = 0 ∨ ¬ task.Ready) → s'.currentTask ≠ some t → task'.frames ≠ 0) :
    Scheduled s' run := by
  have hsame : ∀ t', (∃ task, s'.tasks.lookup t' = some task ∧ task.Ready) ↔
      ∃ task, s.tasks.lookup t' = some task ∧ task.Ready := by
    intro t'
    rw [hlookup]
    split_ifs with heq
    · rw [heq, ht]
      simp [hready]
    · rfl
  refine h.insert ht hlookup hcoroutine hawaiter hnext hdriven hcurrent (hqueue ▸ h.nodup) ?_
    (fun t' ht' => (hsame t').mpr (h.run_ready t' ht')) ?_
  · intro t'
    rw [hqueue, h.mem_queue]
    grind
  intro t' task1 ht' hor hne
  rw [hlookup] at ht'
  split_ifs at ht' with heq
  · obtain rfl := some.inj ht'
    rw [hready] at hor
    exact hcontext (heq ▸ hor) (heq ▸ hne)
  · exact h.context t' task1 ht' hor (mt (hstay t' heq) hne)

end

theorem knows_task_congr (hs : SameScheduler s s') (stack : List GatherCommit) (t : TaskId)
    (y : HeapId) : s'.knows stack (.task t) y ↔ s.knows stack (.task t) y :=
  hs.exists_iff (fun _ _ => .rfl) t

end Put

variable {prompt : Prop} {stack : List GatherCommit} {loose : Option (Awaiter × HeapId)}

section

variable (hheap : s'.heap = s.heap)

include hheap

theorem value_congr (x : HeapId) : s'.value returned x = s.value returned x := by
  rw [Vm.value, Vm.value, hheap]

theorem done_congr (w : Awaiter) : s'.done w ↔ s.done w := by
  cases w with
  | task t => rfl
  | gatherSlot g y => rw [Vm.done, Vm.done, hheap]

theorem knows_congr (htask : ∀ t y, s'.knows stack (.task t) y ↔ s.knows stack (.task t) y)
    (w : Awaiter) (y : HeapId) : s'.knows stack w y ↔ s.knows stack w y := by
  cases w with
  | task t => exact htask t y
  | gatherSlot g z => rw [Vm.knows, Vm.knows, hheap]

theorem waiter_congr (htasks : SameTasks s s') (x : HeapId) : s'.waiter x = s.waiter x := by
  rw [Vm.waiter, Vm.waiter, hheap]
  exact congrArg _ (funext (objWaiter_congr htasks x))

end

theorem links_congr (hwaiter : ∀ x, s'.waiter x = s.waiter x)
    (hknows : ∀ w x, s'.knows stack w x ↔ s.knows stack w x) (hdone : ∀ w, s'.done w ↔ s.done w) :
    s'.links stack = s.links stack := by
  rw [Vm.links, Vm.links, funext hwaiter, funext fun w => propext (hdone w),
    funext fun w => funext fun y => propext (hknows w y)]

variable {loose' : Option (Awaiter × HeapId)}

section

variable (h : Consistent returned prompt s run stack loose)

include h

variable {stack' : List GatherCommit}

/-- The tasks that have not started later on have new coroutines now. -/
abbrev Unstarted (s s' : Vm) : Prop :=
  ∀ t task c, s'.tasks.lookup t = some task → task.frames = 0 → s'.currentTask ≠ some t →
    task.coroutineId = some c → s.heap.get? c = some (.coroutine .new)

/-- Tasks come, go and change, and no object does. -/
theorem Consistent.reschedule
    (hheap : s'.heap = s.heap) (hpending : s'.pendingExternals = s.pendingExternals)
    (hnext : s.nextCallId ≤ s'.nextCallId)
    (hcoroutine : ∀ t task c, s'.tasks.lookup t = some task → task.coroutineId = some c →
      ∃ state, s.heap.get? c = some (.coroutine state) ∧ state ≠ .completed)
    (hslot : ∀ x g y, s'.waiter x = some (.gatherSlot g y) → s.SlotIn x g y)
    (hscheduled : Scheduled s' run') (hlinked : (s'.links stack').Agree loose')
    (hordered : ∃ rank owner, Ordered s' rank owner ∧
      ∀ f ∈ stack', ∃ t, run' = some t ∧ owner f.gather = t)
    (hcommitting : ∀ f ∈ stack', Committing returned s f) (hdistinct : (stack'.map gather).Nodup)
    (hunstarted : prompt → Unstarted s s') :
    Consistent returned prompt s' run' stack' loose' := by
  have hvalue : s'.value returned = s.value returned := funext (value_congr hheap)
  refine ⟨hscheduled, ⟨fun call x => ?_, fun call x hx => ?_⟩,
    ⟨hheap ▸ hcoroutine, hheap ▸ h.shaped.item, hheap ▸ hslot, ?_⟩, hlinked, hordered,
    fun f hf => ?_, hdistinct, hheap ▸ hunstarted⟩
  · rw [hpending, hheap]
    exact h.registered.externals call x
  · exact (h.registered.call_lt call x (hpending ▸ hx)).trans_le hnext
  · rw [hvalue, hheap]
    exact h.shaped.awaited
  · obtain ⟨items, hitems, hslots⟩ := (hcommitting f hf).frame
    exact ⟨items, hheap ▸ hitems, hvalue ▸ hslots⟩

theorem Consistent.retask (hheap : s'.heap = s.heap)
    (hpending : s'.pendingExternals = s.pendingExternals) (hnext : s.nextCallId ≤ s'.nextCallId)
    (htasks : ∀ t task', s'.tasks.lookup t = some task' → ∃ task, s.tasks.lookup t = some task ∧
      task.coroutineId = task'.coroutineId ∧ ∀ w, task'.awaiter = some w → task.awaiter = some w)
    (hwaiter : ∀ x w, s'.waiter x = some w → s.waiter x = some w) (hscheduled : Scheduled s' run')
    (hlinked : (s'.links stack).Agree loose') (hrun : stack ≠ [] → run' = run)
    (hunstarted : prompt → Unstarted s s') :
    Consistent returned prompt s' run' stack loose' := by
  refine h.reschedule hheap hpending hnext (fun t task c ht hc => ?_)
    (fun x g y hx => h.shaped.slot x g y (hwaiter x _ hx)) hscheduled hlinked ?_
      h.committing h.distinct
    hunstarted
  · obtain ⟨task0, ht0, hc0, -⟩ := htasks t task ht
    exact h.shaped.coroutine t task0 c ht0 (hc0.trans hc)
  obtain ⟨rank, owner, ho, hstack⟩ := h.ordered
  refine ⟨rank, owner, ⟨hheap ▸ ho.item_lt, fun x w hx => ?_, fun t task w ht hw => ?_⟩,
    fun f hf => ?_⟩
  · rw [done_congr hheap]
    exact ho.owner_eq x w (hwaiter x w hx)
  · obtain ⟨task0, ht0, -, hw0⟩ := htasks t task ht
    rw [done_congr hheap]
    exact ho.lt_task t task0 w ht0 (hw0 w hw)
  · rw [hrun (List.ne_nil_of_mem hf)]
    exact hstack f hf

/-- What is on the operand stacks, and how many frames there are, does not matter. -/
theorem Consistent.congr (hheap : s'.heap = s.heap) (hs : SameScheduler s s')
    (hpending : s'.pendingExternals = s.pendingExternals)
    (hnext : s.nextCallId ≤ s'.nextCallId) : Consistent returned prompt s' run stack loose := by
  have hwaiter := waiter_congr hheap hs.sameTasks
  have hlinks : s'.links stack = s.links stack :=
    links_congr hwaiter (knows_congr hheap (knows_task_congr hs stack)) (done_congr hheap)
  refine h.retask hheap hpending hnext ?_ (fun x w hx => (hwaiter x).symm.trans hx)
    (h.scheduled.congr hs) (hlinks ▸ h.linked) (fun _ => rfl) ?_
  · intro t task ht
    obtain ⟨_, ht0⟩ := hs.sameTasks.exists ht
    exact ⟨_, ht0, rfl, fun _ => id⟩
  · intro hp t task c ht hframes hcur hc
    obtain ⟨_, ht0⟩ := hs.sameTasks.exists ht
    exact h.unstarted hp t _ c ht0 hframes (hs.currentTask ▸ hcur) hc

/-- An object that is not final goes into another state. -/
theorem Consistent.put {o' : Obj} (ho : s.heap.get? x = some o) (hget : s.Put s' x o')
    (hfinal : ¬ o.isFinal) (hkind : o.SameKind o')
    (hnew : o = .coroutine .new → ∀ t task, s.tasks.lookup t = some task →
      task.coroutineId = some x → prompt → task.frames = 0 → s.currentTask = some t)
    (hcompleted : o' = .coroutine .completed → ∀ t task, s.tasks.lookup t = some task →
      task.coroutineId ≠ some x)
    (hcomplete : ∀ items v, o' = .gatherFuture items (.completed v) → Complete returned s items v)
    (htasks : SameTasks s s') (hcurrent : s'.currentTask = s.currentTask)
    (hscheduled : Scheduled s' run') (hregistered : Registered s')
    (hslot : ∀ g z, s.objWaiter x o' = some (.gatherSlot g z) → s.SlotIn x g z)
    (hawaited : ∀ items a, o' = .gatherFuture items (.awaited a) → Awaits returned s items a)
    (hlinked : (s'.links stack').Agree loose')
    (hordered : ∃ rank owner, Ordered s' rank owner ∧
      ∀ f ∈ stack', ∃ t, run' = some t ∧ owner f.gather = t)
    (hcommitting : Later returned s s' → ∀ f ∈ stack', Committing returned s' f)
    (hdistinct : (stack'.map gather).Nodup) :
    Consistent returned prompt s' run' stack' loose' ∧ Later returned s s' := by
  have hvalue : ∀ y v, s.value returned y = some v → s'.value returned y = some v := by
    intro y v hy
    obtain ⟨oy, hoy, hv⟩ := bind_eq_some_iff.mp hy
    rw [Vm.value, hget, if_neg]
    · exact hy
    · rintro rfl
      obtain rfl := mem_unique ho hoy
      exact hfinal (isFinal_of_value hv)
  have hl : Later returned s s' := by
    refine .of_put hget ?_ ?_
    · intro o0 ho0
      obtain rfl := mem_unique ho ho0
      exact ⟨hfinal, hkind⟩
    intro items v hv
    obtain ⟨list, values, rfl, hlist, hvalues⟩ := hcomplete items v hv
    refine ⟨list, values, rfl, ?_, hvalues.imp fun _ _ => hvalue _ _⟩
    rw [hget, if_neg]
    · exact hlist
    · rintro rfl
      obtain rfl := mem_unique ho hlist
      exact hfinal trivial
  refine ⟨⟨hscheduled, hregistered, ?_, hlinked, hordered, hcommitting hl, hdistinct, ?_⟩, hl⟩
  · refine h.shaped.put hl hget htasks ?_ ?_ hslot hawaited
    · intro t task ht hc
      obtain ⟨state, hstate, -⟩ := h.shaped.coroutine t task x ht hc
      obtain rfl := mem_unique ho hstate
      cases o' with
      | coroutine state' => exact ⟨state', rfl, fun heq => hcompleted (by rw [heq]) t task ht hc⟩
      | _ => exact hkind.elim
    rintro items state rfl
    obtain ⟨state', rfl⟩ := hkind.gather
    exact h.shaped.item x items state' ho
  · intro hp t task c ht hframes hcur hc
    obtain ⟨task0, ht0⟩ := htasks.exists ht
    rw [hcurrent] at hcur
    have hold := h.unstarted hp t _ c ht0 hframes hcur hc
    rw [hget, if_neg]
    · exact hold
    · rintro rfl
      obtain rfl := mem_unique ho hold
      exact hcur (hnew rfl t _ ht0 hc hp hframes)

/-- A place for a new object above its items. -/
def Obj.above (rank : HeapId → Nat) : Obj → Nat
  | .gatherFuture items _ => (items.map rank).sum + 1
  | _ => 0

/-- An object is made that nothing waits for and that waits for nothing yet. -/
theorem Consistent.make (hx : s.heap.get? x = none) (hget : s.Put s' x o)
    (hs : SameScheduler s s') (hregistered : Registered s')
    (hwaiter : s.objWaiter x o = none) (hsettled : ¬ o.isSettled)
    (hitem : ∀ items state, o = .gatherFuture items state → ∀ y ∈ items,
      ∃ o, s.heap.get? y = some o ∧ o.isAwaitable = true) :
    Consistent returned prompt s' run stack loose ∧ Later returned s s' := by
  have hl : Later returned s s' := by
    refine .of_put hget ?_ ?_
    · intro o0 ho0
      rw [hx] at ho0
      cases ho0
    · rintro items v rfl
      exact absurd trivial hsettled
  have hne : ∀ {y o0}, s.heap.get? y = some o0 → y ≠ x := by
    rintro y o0 hy rfl
    rw [hx] at hy
    cases hy
  have hold : s.waiter x = none := by rw [Vm.waiter, hx]; rfl
  have hknows : ∀ y, ¬ o.knows y := by
    intro y hy
    obtain ⟨items, a, rfl, -⟩ := Obj.knows_iff.mp hy
    cases hwaiter
  have hwaiters : ∀ y, s'.waiter y = s.waiter y := by
    intro y
    rw [waiter_put hget hs.sameTasks]
    split_ifs with hy
    · rw [hy, hwaiter, hold]
    · rfl
  have hknows' : ∀ w y, s'.knows stack w y ↔ s.knows stack w y :=
    knows_put_iff hget (knows_task_congr hs stack) (by simp [hknows, hx])
  have hdone : ∀ w, s'.done w ↔ s.done w := done_put_iff hget (by simp [hsettled, hx])
  have hlinks : s'.links stack = s.links stack := links_congr hwaiters hknows' hdone
  refine ⟨⟨h.scheduled.congr hs, hregistered, ?_, hlinks ▸ h.linked, ?_, ?_, h.distinct, ?_⟩, hl⟩
  · refine h.shaped.put hl hget hs.sameTasks ?_ hitem ?_ ?_
    · intro t task ht hc
      obtain ⟨state, hstate, -⟩ := h.shaped.coroutine t task x ht hc
      exact absurd rfl (hne hstate)
    · rw [hwaiter]
      rintro g z ⟨⟩
    · rintro items a rfl
      cases hwaiter
  · obtain ⟨rank, owner, ho, hstack⟩ := h.ordered
    refine ⟨update rank x (o.above rank), owner, ⟨fun g items state hg y hy => ?_, fun y w => ?_,
      fun t task w ht hw => ?_⟩, hstack⟩
    · have hyx : y ≠ x := by
        rw [hget] at hg
        split_ifs at hg
        · obtain ⟨_, hy', -⟩ := hitem items state (some.inj hg) y hy
          exact hne hy'
        · obtain ⟨_, hy', -⟩ := h.shaped.item g items state hg y hy
          exact hne hy'
      rw [update_of_ne hyx]
      rw [hget] at hg
      split_ifs at hg with hgx
      · obtain rfl := some.inj hg
        rw [hgx, update_self]
        exact Nat.lt_succ_of_le (List.single_le_sum (by simp) _ (List.mem_map_of_mem hy))
      · rw [update_of_ne hgx]
        exact ho.item_lt g items state hg y hy
    · rw [hwaiters, hdone]
      exact ho.owner_eq y w
    · obtain ⟨_, ht0⟩ := hs.sameTasks.exists ht
      rw [hdone]
      exact ho.lt_task t _ w ht0 hw
  · intro f hf
    have hc := h.committing f hf
    obtain ⟨items, hitems, -⟩ := hc.frame
    refine hc.later hl ?_
    rw [hget, if_neg (hne hitems)]
  · intro hp t task c ht hframes hcur hc
    obtain ⟨_, ht0⟩ := hs.sameTasks.exists ht
    have hold := h.unstarted hp t _ c ht0 hframes (hs.currentTask ▸ hcur) hc
    rw [hget, if_neg (hne hold)]
    exact hold

end

/-- The objects that the machine makes, other than futures that are pending. -/
def Obj.isFresh : Obj → Prop
  | .coroutine .new => True
  | .externalFuture _ (.resolved _) _ => True
  | .gatherFuture _ .pending => True
  | .list _ => True
  | .other => True
  | _ => False

theorem Consistent.allocate (h : Consistent returned prompt s run stack loose) (ho : o.isFresh)
    (hitem : ∀ items state, o = .gatherFuture items state → ∀ y ∈ items,
      ∃ o, s.heap.get? y = some o ∧ o.isAwaitable = true)
    (hheap : s'.heap = (s.heap.allocate o).2) (hs : SameScheduler s s')
    (hpending : s'.pendingExternals = s.pendingExternals) (hnext : s.nextCallId ≤ s'.nextCallId) :
    Consistent returned prompt s' run stack loose ∧ Later returned s s' := by
  have hfree := StableHeap.get?_allocate_fst s.heap o
  have hget : s.Put s' (s.heap.allocate o).1 o := by
    rw [Vm.Put, hheap]
    exact StableHeap.get?_allocate s.heap o
  refine h.make hfree hget hs ⟨fun call y => ?_, fun call y hy => ?_⟩ ?_ ?_ hitem
  · rw [hget, hpending, h.registered.externals]
    split_ifs with hy
    · rw [hy, hfree]
      refine ⟨by rintro ⟨w, r, ⟨⟩⟩, ?_⟩
      rintro ⟨w, r, heq⟩
      obtain rfl := some.inj heq
      exact ho.elim
    · rfl
  · exact lt_of_lt_of_le (h.registered.call_lt call y (hpending ▸ hy)) hnext
  · -- no task drives a coroutine that is not there yet
    cases o with
    | coroutine state =>
      change (s.driver _).bind Task.awaiter = none
      rw [Vm.driver]
      cases hc : s.coroutineToTask.lookup (s.heap.allocate (.coroutine state)).1 with
      | none => rfl
      | some t =>
        obtain ⟨task, ht, hx⟩ := (h.scheduled.driven _ t).mp hc
        obtain ⟨state', hcor, -⟩ := h.shaped.coroutine t task _ ht hx
        exact nomatch hfree.symm.trans hcor
    | externalFuture call state r =>
      cases state with
      | pending w => exact ho.elim
      | _ => rfl
    | gatherFuture items state =>
      cases state with
      | awaited a => exact ho.elim
      | _ => rfl
    | list _ => rfl
    | other => rfl
  · cases o with
    | gatherFuture items state =>
      cases state with
      | pending => exact id
      | _ => exact ho.elim
    | _ => exact id

theorem Later.of_eq (hheap : s'.heap = s.heap) : Later returned s s' := by
  refine ⟨fun x o ho => ⟨o, hheap ▸ ho, .inl rfl⟩, fun g items v hg => .inl ?_⟩
  rw [hheap] at hg
  exact hg

/-- Only the objects matter. -/
theorem Later.congr {s1 s2 : Vm} (h : Later returned s1 s2) (h1 : s1.heap = s.heap)
    (h2 : s'.heap = s2.heap) : Later returned s s' :=
  (Later.of_eq h1).trans (h.trans (.of_eq h2))

end Monty.Async
