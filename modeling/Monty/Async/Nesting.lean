import Monty.Async.Reachable

/-!
# How deep activations nest

A task that fails when it is activated has its successor activated from within, on the native stack.
So the machine is looked at with a native stack that has room for so many nested activations only.

If coroutines are awaited promptly no task fails when it is activated, and room for one activation
is enough (`perform_nests_once`). Otherwise no fixed room is: a program can fill the queue with as
many tasks whose coroutines have been awaited as there are numbers for tasks, and the next `await`
that blocks goes through all of them, each activation within the one before (`await_nests_deeper`).
-/

namespace Monty.Async

open Fallible List StableHeap Machine

/-! ## More room -/

section

variable {act act' : TaskId → Run (Except RunError Unit)}

section

variable (hact : ∀ t, Implements (act' t) (act t))

include hact

theorem resumeAfterTaskExit_implements (woken : Option TaskId) :
    Implements (resumeAfterTaskExit act' woken) (resumeAfterTaskExit act woken) := by
  cases woken with
  | some t => exact .rest fun _ => (hact t).bind fun _ => .refl _
  | none =>
    refine .rest fun next => ?_
    cases next with
    | none => exact .refl _
    | some t => exact (hact t).bind fun _ => .refl _

theorem handleTaskFailure_implements (error : RunError) :
    Implements (handleTaskFailure act' error) (handleTaskFailure act error) := by
  refine .rest fun s => ?_
  cases s.currentTask with
  | none => exact .refl _
  | some t =>
    refine .rest fun _ => .rest fun _ => .rest fun delivery => .rest fun _ => .rest fun _ => ?_
    exact (resumeAfterTaskExit_implements hact delivery).bind fun _ => .refl _

theorem loadOrInitTask_implements (t : TaskId) :
    Implements (loadOrInitTask act' t) (loadOrInitTask act t) := by
  refine .rest fun task => .rest fun _ => ?_
  match task.frames, task.coroutineId with
  | frames + 1, _ => exact .refl _
  | 0, none => exact .refl _
  | 0, some c =>
    refine .rest fun o => ?_
    cases o with
    | coroutine state =>
      cases state with
      | new => exact .refl _
      | running | completed => exact handleTaskFailure_implements hact _
    | _ => exact .refl _

theorem switchTask_implements (t : TaskId) : Implements (switchTask act' t) (switchTask act t) := by
  refine .rest fun s => ?_
  cases s.currentTask with
  | none => exact .rest fun _ => loadOrInitTask_implements hact t
  | some current =>
    dsimp only
    split_ifs
    · exact .refl _
    · exact .rest fun _ => .rest fun _ =>
        loadOrInitTask_implements hact t

end

/-- What succeeds with little room does the same with more. -/
theorem activateTask_implements {n n' : Nat} (h : n ≤ n') (t : TaskId) :
    Implements (activateTask n' t) (activateTask n t) := by
  induction n generalizing n' t with
  | zero => exact .throw
  | succ n ih =>
    obtain ⟨n', rfl⟩ := Nat.exists_eq_succ_of_ne_zero (Nat.ne_zero_of_lt h)
    refine .rest fun _ => ?_
    exact (switchTask_implements (ih (Nat.le_of_succ_le_succ h)) t).bind fun _ => .refl _

variable {room room' : Vm → Nat}

section

variable (h : ∀ s, room s ≤ room' s)

include h

theorem activate_implements (t : TaskId) :
    Implements (activate room' t) (activate room t) :=
  .rest fun s => activateTask_implements (h s) t

theorem finishAwait_implements (id : HeapId) (poll : Except RunError Poll) :
    Implements (finishAwait room' id poll) (finishAwait room id poll) := by
  match poll with
  | .error error => exact .refl _
  | .ok (.ready value) => exact .refl _
  | .ok .pending =>
    refine .rest fun _ => .rest fun next => ?_
    cases next with
    | none => exact .refl _
    | some t => exact (activate_implements h t).bind fun _ => .refl _

theorem execGetAwaitable_implements (limits : Limits) (v : Value) :
    Implements (execGetAwaitable room' limits v) (execGetAwaitable room limits v) := by
  refine .rest fun s => ?_
  cases s.currentTask with
  | none => exact .refl _
  | some t =>
    cases v with
    | host n => exact .refl _
    | ref id =>
      refine .rest fun o => ?_
      cases o with
      | gatherFuture items state | externalFuture call state r =>
        exact .rest fun poll => finishAwait_implements h id poll
      | _ => exact .refl _

theorem handleTaskCompletion_implements (v : Value) :
    Implements (handleTaskCompletion room' v) (handleTaskCompletion room v) := by
  refine .rest fun s => ?_
  cases s.currentTask with
  | none => exact .refl _
  | some t =>
    refine .rest fun task => ?_
    cases task.coroutineId with
    | none => exact .refl _
    | some c =>
      refine .rest fun delivery => .rest fun _ => ?_
      exact (resumeAfterTaskExit_implements (activate_implements h) delivery).bind fun _ => .refl _

theorem performRunning_implements (op : Op) :
    Implements (performRunning room' op) (performRunning room op) := by
  cases op with
  | returnValue v =>
    refine .rest fun s => ?_
    match s.suspendedFrames, s.currentTask with
    | frames + 1, _ => exact .refl _
    | 0, none => exact .refl _
    | 0, some 0 => exact .refl _
    | 0, some (t + 1) => exact (handleTaskCompletion_implements h v).bind fun _ => .refl _
  | await limits v => exact (execGetAwaitable_implements h limits v).bind fun _ => .refl _
  | _ => exact .refl _

theorem handleUncaught_implements (error : RunError) :
    Implements (handleUncaught room' error) (handleUncaught room error) := by
  refine .rest fun s => ?_
  match s.currentTask with
  | none => exact .refl _
  | some 0 => exact .refl _
  | some (t + 1) =>
    refine .rest fun _ => ?_
    exact (handleTaskFailure_implements (activateTask_implements (h s)) error).bind fun _ => .refl _

theorem perform_implements (op : Op) (control : Control) :
    Implements (perform room' op control) (perform room op control) := by
  unfold perform
  split
  case h_1 => exact .refl _
  case h_2 => exact performRunning_implements h _
  case h_3 popped error =>
    unfold handleException
    split
    · exact .refl _
    · exact .refl _
    · exact handleUncaught_implements h error
  case h_4 results calls =>
    refine .rest fun out => ?_
    cases out with
    | error error => exact .refl _
    | ok _ =>
      refine .rest fun next => ?_
      cases next with
      | none => exact .refl _
      | some t => exact (activate_implements h t).bind fun _ => .refl _
  case h_5 => exact .refl _

end

end

/-! ## Room for one -/

section

variable {m : Machine}

/-- If coroutines are awaited promptly, activations do not nest. -/
theorem perform_nests_once (h : m.Reached fun s op => s.Roomy ∧ op.Prompt s) (hroomy : m.vm.Roomy)
    (op : Op) (hop : op.Enabled m.vm) (hprompt : op.Prompt m.vm) :
    ∃ control s, perform (fun _ => 1) op m.control m.vm = .ok control s ∧
      perform Vm.queued op m.control m.vm = .ok control s := by
  obtain ⟨returned, hinv⟩ : ∃ returned, m.Inv returned True :=
    h.inv fun _ _ ⟨hroomy, hop⟩ => ⟨hroomy, fun _ => hop⟩
  have hmore : ∀ s : Vm, 1 ≤ s.queued := fun s => Nat.succ_le_succ (Nat.zero_le _)
  have hsuffices : Suffices True fun _ => 1 :=
    ⟨fun _ => Nat.one_pos, fun hnot => absurd trivial hnot⟩
  have hrun : ∃ control s, perform (fun _ => 1) op m.control m.vm = .ok control s := by
    by_cases hcollect : ∃ garbage, op = .collect garbage
    · obtain ⟨garbage, rfl⟩ := hcollect
      exact ⟨_, _, rfl⟩
    · obtain ⟨control, s, hrun, -⟩ := perform_spec hsuffices hinv hroomy hop (fun _ => hprompt)
        (hinv.not_lost op) fun garbage heq => hcollect ⟨garbage, heq⟩
      exact ⟨control, s, hrun⟩
  obtain ⟨control, s, hrun⟩ := hrun
  refine ⟨control, s, hrun, ?_⟩
  exact perform_implements hmore op m.control m.vm control s hrun

end

/-- A coroutine is started by the gather that has spawned it. -/
theorem perform_nests_once_gather : ∃ (m : Machine) (control : Control) (s : Vm),
    m.Reached (fun s op => s.Roomy ∧ op.Prompt s) ∧
      perform (fun _ => 1) (.await .unlimited (.ref 1)) m.control m.vm = .ok control s := by
  obtain ⟨m, hm, hp⟩ := exists_reached true (fun s op => s.roomy && op.prompt s)
    (fun s op => s.Roomy ∧ op.Prompt s)
    (fun _ _ h => (Bool.and_eq_true_iff.mp h).imp .of_test .of_test)
    [.makeCoroutine, .makeGather [0]]
    (p := fun m => m.vm.roomy && ((Op.await .unlimited (.ref 1)).enabled m.vm &&
      (Op.await .unlimited (.ref 1)).prompt m.vm)) (by decide +kernel)
  obtain ⟨hroomy, hp⟩ := Bool.and_eq_true_iff.mp hp
  obtain ⟨henabled, hprompt⟩ := Bool.and_eq_true_iff.mp hp
  obtain ⟨control, s, hrun, -⟩ :=
    perform_nests_once hm (.of_test hroomy) _ (.of_test henabled) (.of_test hprompt)
  exact ⟨m, control, s, hm, hrun⟩

/-! ## Any number of activations -/

/-- A task that has not started, though its coroutine has, and that reports to a gather that has
failed. -/
structure Stale (s : Vm) (t : TaskId) : Prop where
  ne_main : t ≠ 0
  task : ∃ stack c g items error, s.tasks.lookup t =
      some ⟨0, stack, some c, some (.gatherSlot g c), .ready (.ok ())⟩ ∧
    s.heap.get? c = some (.coroutine .running) ∧
    s.heap.get? g = some (.gatherFuture items (.failed error))

section Deep

variable {s s' : Vm} {t : TaskId}

theorem Stale.congr (h : Stale s t) (htask : s'.tasks.lookup t = s.tasks.lookup t)
    (hheap : ∀ {x o}, s.heap.get? x = some o → s'.heap.get? x = some o) : Stale s' t := by
  obtain ⟨hne, stack, c, g, items, error, ht, hc, hg⟩ := h
  exact ⟨hne, stack, c, g, items, error, htask.trans ht, hheap hc, hheap hg⟩

theorem deliverFailure?_failed {g c : HeapId} {items : List HeapId} {error : RunError}
    (hg : s.heap.get? g = some (.gatherFuture items (.failed error))) (raised : RunError) :
    deliverFailure? (some (.gatherSlot g c)) raised s = .ok none s := by
  have hfail : failGather g raised s = .ok none s := by
    rw [failGather, bind_of_ok (readGather_eq hg)]
    rfl
  exact bind_of_ok hfail

variable {rest : List TaskId}

theorem nextReadyTask_cons (hqueue : s.readyQueue = t :: rest) :
    nextReadyTask s = .ok (some t) { s with readyQueue := rest } := by
  rw [nextReadyTask, get_bind_apply, hqueue]
  rfl

/-- A stale task that is loaded fails, nobody is told, and the next one is activated. -/
theorem loadOrInitTask_stale {act : TaskId → Run (Except RunError Unit)} {t' : TaskId}
    (h : Stale s t) (hcur : s.currentTask = some t)
    (hqueue : s.readyQueue = t' :: rest) (hmem : t ∉ s.readyQueue)
    (hact : ∀ s' : Vm, s'.readyQueue = rest → s'.currentTask = none → s'.heap = s.heap →
      (∀ u, u ≠ t → s'.tasks.lookup u = s.tasks.lookup u) →
      Ensures (act t') s' (fun _ _ => False) fun panic _ => panic = .outOfFuel) :
    Ensures (loadOrInitTask act t) s (fun _ _ => False) fun panic _ => panic = .outOfFuel := by
  obtain ⟨hne, stack, c, g, items, error, ht, hc, hg⟩ := h
  obtain ⟨t, rfl⟩ := Nat.exists_eq_succ_of_ne_zero hne
  refine .bind_of_eq (getTask_eq ht) (.bind_of_eq (setTask_eq ..) ?_)
  refine .bind_of_eq (read_eq hc) (.get_bind ?_)
  set s1 : Vm := { s with
    tasks := s.tasks.insert (t + 1) ⟨0, [], some c, some (.gatherSlot g c), .ready (.ok ())⟩ }
  rw [show s1.currentTask = some (t + 1) from hcur]
  have hassert : debugAssert (t + 1 != 0) s1 = .ok () s1 := rfl
  refine .bind_of_eq hassert (.bind_of_eq (getTask_eq (AList.lookup_insert _)) ?_)
  set s2 : Vm := { s1 with
    tasks := s1.tasks.insert (t + 1) ⟨0, [], some c, none, .ready (.ok ())⟩ }
  have hdeliver : deliverRaised (t + 1) ⟨0, [], some c, some (.gatherSlot g c), .ready (.ok ())⟩
      .cannotReuseCoroutine s1 = .ok none s2 :=
    (bind_of_ok (setTask_eq ..)).trans (deliverFailure?_failed (s := s2) hg _)
  refine .bind_of_eq hdeliver (.modify_bind _ ?_)
  refine .bind_of_eq (cancelTask_eq (AList.lookup_insert _) rfl rfl hcur) ?_
  have hfilter : s.readyQueue.filter (· ≠ t + 1) = t' :: rest := by
    rw [← hqueue, filter_eq_self]
    intro u hu
    simp only [decide_eq_true_eq]
    rintro rfl
    exact hmem hu
  refine Ensures.bind (.bind_of_eq (nextReadyTask_cons hfilter) ?_) fun _ _ => False.elim
  refine Ensures.bind (hact _ rfl rfl rfl fun u hu => ?_) fun _ _ => False.elim
  simp only [Vm.cancelled, s2, s1, Keyed.lookup_erase_eq, Keyed.lookup_insert_eq, if_neg hu]

/-- **Stale tasks are activated one within the other**, all those that are queued. -/
theorem activateTask_stale (room : Nat) : ∀ {s : Vm} {t : TaskId}, Stale s t →
    (∀ u ∈ s.readyQueue, Stale s u) → (t :: s.readyQueue).Nodup → (∀ u ∈ t :: s.readyQueue,
    s.currentTask ≠ some u) → (∀ u, s.currentTask = some u → ∃ task, s.tasks.lookup u = some task) →
    room ≤ s.readyQueue.length →
    Ensures (activateTask room t) s (fun _ _ => False) fun panic _ => panic = .outOfFuel := by
  induction room with
  | zero => exact fun _ _ _ _ _ _ => rfl
  | succ room ih =>
    intro s t ht hqueued hnodup hcurrent hlive hroom
    obtain ⟨t', rest, hqueue⟩ : ∃ t' rest, s.readyQueue = t' :: rest :=
      exists_cons_of_length_pos (Nat.lt_of_lt_of_le room.succ_pos hroom)
    obtain ⟨-, stack, c, g, items, error, htask, -⟩ := id ht
    refine .bind_of_eq (takeResumeResult_eq htask rfl) ?_
    refine Ensures.bind ?_ fun _ _ => False.elim
    set s1 : Vm := { s with
      tasks := s.tasks.insert t ⟨0, stack, some c, some (.gatherSlot g c), .ready (.ok ())⟩ }
    have hlook1 : ∀ u, s1.tasks.lookup u = s.tasks.lookup u := by
      intro u
      rw [Keyed.lookup_insert_eq]
      split_ifs with hu
      · rw [hu, htask]
      · rfl
    -- what is saved of the current task, if there is one, does not matter to those that are queued
    have hload : ∀ s2 : Vm, s2.currentTask = some t → s2.readyQueue = s.readyQueue →
        s2.heap = s.heap → (∀ u ∈ t :: s.readyQueue, s2.tasks.lookup u = s.tasks.lookup u) →
        Ensures (loadOrInitTask (activateTask room) t) s2 (fun _ _ => False)
          fun panic _ => panic = .outOfFuel := by
      intro s2 hcur2 hqueue2 hheap2 hlook2
      have hstale : ∀ u ∈ t :: s.readyQueue, Stale s u := forall_mem_cons.mpr ⟨ht, hqueued⟩
      refine loadOrInitTask_stale ((hstale t mem_cons_self).congr (hlook2 t mem_cons_self)
        fun hx => by rwa [hheap2]) hcur2 (hqueue2.trans hqueue) ?_ ?_
      · rw [hqueue2]
        exact (nodup_cons.mp hnodup).1
      intro s3 hqueue3 hcur3 hheap3 hlook3
      have hstale3 : ∀ u ∈ s.readyQueue, Stale s3 u := by
        intro u hu
        have hne : u ≠ t := by
          rintro rfl
          exact (nodup_cons.mp hnodup).1 hu
        refine (hqueued u hu).congr ((hlook3 u hne).trans (hlook2 u (mem_cons_of_mem t hu)))
          fun hx => by rwa [hheap3, hheap2]
      rw [hqueue] at hstale3 hnodup hroom
      refine ih (hstale3 t' mem_cons_self) ?_ ?_ ?_ ?_ ?_
      · rw [hqueue3]
        exact fun u hu => hstale3 u (mem_cons_of_mem t' hu)
      · rw [hqueue3]
        exact (nodup_cons.mp hnodup).2
      · rw [hcur3]
        exact fun _ _ => nofun
      · rw [hcur3]
        exact nofun
      · rw [hqueue3]
        exact Nat.le_of_succ_le_succ hroom
    refine .get_bind ?_
    cases hcur : s1.currentTask with
    | none =>
      exact .modify_bind _ (hload _ rfl rfl rfl fun u _ => hlook1 u)
    | some current =>
      have hne : current ≠ t := by
        rintro rfl
        exact hcurrent current mem_cons_self hcur
      obtain ⟨task, hlook⟩ := hlive current hcur
      dsimp only
      rw [if_neg hne]
      refine .bind_of_eq (saveTaskContext_eq ((hlook1 current).trans hlook))
        (.modify_bind _ (hload _ rfl rfl rfl fun u hu => ?_))
      have hu' : u ≠ current := by
        rintro rfl
        exact hcurrent u hu hcur
      exact ((Keyed.lookup_insert_eq ..).trans (if_neg hu')).trans (hlook1 u)

end Deep

/-! ### A queue of stale tasks -/

variable {s : Vm} {x y g : HeapId}

/-- The gather has a task for the coroutine, and has failed. -/
def Vm.litter (s : Vm) (x y g : HeapId) : Vm := { s with
    nextTaskId := s.nextTaskId + 1
    tasks := s.tasks.insert s.nextTaskId (Task.new (some x) (some (.gatherSlot g x)))
    coroutineToTask := s.coroutineToTask.insert x s.nextTaskId
    readyQueue := s.readyQueue ++ [s.nextTaskId]
    heap := s.heap.set g (.gatherFuture [x, y] (.failed .cannotReuseCoroutine)) }

/-- A gather of a new coroutine and of one that has been awaited: the first is spawned, then the
commit fails. -/
theorem awaitGatherFuture_used (w : Awaiter)
    (hg : s.heap.get? g = some (.gatherFuture [x, y] .pending))
    (hx : s.heap.get? x = some (.coroutine .new)) (hy : s.heap.get? y = some (.coroutine .running))
    (hfree : s.coroutineToTask.lookup x = none) (hroom : s.nextTaskId + 1 < 2 ^ 32) :
    awaitGatherFuture .unlimited g w s = .ok (.error .cannotReuseCoroutine) (s.litter x y g) := by
  set s1 : Vm := s.withChild g x
  set frame : GatherCommit := ⟨g, w, none, 0, [none, none], ∅⟩
  have hfirst : pollItem frame x s = .ok (.ok (.inl .pending)) s1 := by
    rw [pollItem, bind_of_ok (read_eq hx)]
    exact bind_of_ok (spawn_eq hfree hroom)
  have hsecond (frame : GatherCommit) :
      pollItem frame y s1 = .ok (.error .cannotReuseCoroutine) s1 := by
    rw [pollItem, bind_of_ok (read_eq (s := s1) hy)]
    rfl
  have hne : y ≠ x := by
    rintro rfl
    cases hx.symm.trans hy
  have hlook : (frame.resumeAfterChild x 0 .pending).pendingChildren.lookup y = none :=
    (Keyed.lookup_insert_eq ..).trans (if_neg hne)
  have hstep : stepGatherCommit frame s =
      .ok (frame.resumeAfterChild x 0 .pending, .error .cannotReuseCoroutine) s1 := by
    rw [stepGatherCommit, bind_of_ok (readGather_eq hg)]
    refine (bind_of_ok hfirst).trans ?_
    change stepItems [x, y] 1 (frame.resumeAfterChild x 0 .pending) s1 = _
    rw [stepItems]
    simp only [show [x, y][(frame.resumeAfterChild x 0 .pending).next]? = some y from rfl, hlook]
    exact bind_of_ok (hsecond _)
  rw [awaitGatherFuture, bind_of_ok (readGather_eq hg)]
  refine (bind_of_ok (show openGatherCommit g w none s = .ok frame s from ?_)).trans ?_
  · rw [openGatherCommit, bind_of_ok (readGather_eq hg)]
    rfl
  refine (bind_of_ok hstep).trans ?_
  have hunwind : unwindGatherCommits .cannotReuseCoroutine
      [frame.resumeAfterChild x 0 .pending] s1 = .ok () (s.litter x y g) := by
    exact bind_of_ok (readGather_eq (s := s1) hg)
  exact bind_of_ok hunwind

/-- The main task runs, the coroutine has been awaited, as all of them have, and all the tasks that
are queued are stale. -/
structure Littered (y : HeapId) (s : Vm) : Prop where
  current : s.currentTask = some 0
  frames : s.suspendedFrames = 0
  used : s.heap.get? y = some (.coroutine .running)
  stale : ∀ t ∈ s.readyQueue, Stale s t
  started : ∀ z, s.heap.get? z ≠ some (.coroutine .new)
  tasks : s.nextTaskId = s.readyQueue.length + 1
  calls : s.nextCallId = 0

/-- All coroutines have started, but one. -/
def StartedBut (x : HeapId) (heap : StableHeap Obj) : Prop :=
  ∀ z, heap.get? z = some (.coroutine .new) → z = x

variable {heap heap' : StableHeap Obj} {o : Obj}

theorem StartedBut.put {z : HeapId} (h : StartedBut x heap)
    (hget : ∀ u, heap'.get? u = if u = z then some o else heap.get? u)
    (ho : o = .coroutine .new → z = x) : StartedBut x heap' := by
  intro u hu
  rw [hget] at hu
  split_ifs at hu with huz
  · exact huz.trans (ho (Option.some.inj hu))
  · exact h u hu

theorem Littered.startedBut (h : Littered y s) : StartedBut x s.heap :=
  fun z hz => absurd hz (h.started z)

/-- There is room for a task and for a call more. -/
theorem Littered.roomy {s' : Vm} (h : Littered y s) (hroom : s.readyQueue.length + 3 < 2 ^ 32)
    (hnew : StartedBut x s'.heap) (htasks : s'.nextTaskId ≤ s.nextTaskId + 1)
    (hcalls : s'.nextCallId ≤ s.nextCallId + 1) : s'.Roomy := by
  rw [h.tasks] at htasks
  rw [h.calls] at hcalls
  exact ⟨⟨{x}, fun z hz _ => Finset.mem_singleton.mpr (hnew z hz),
    Nat.lt_of_le_of_lt (Nat.succ_le_succ htasks) hroom⟩,
    Nat.lt_of_le_of_lt (Nat.succ_le_succ hcalls) (by decide)⟩

abbrev Machine.Reachable (m : Machine) : Prop := m.Reached fun s _ => s.Roomy

theorem Machine.Reachable.step {m m' : Machine} (h : m.Reachable) (hroomy : m.vm.Roomy) (op : Op)
    (hop : op.Enabled m.vm) (hrun : perform Vm.queued op m.control m.vm = .ok m'.control m'.vm) :
    m'.Reachable :=
  Reached.step h hroomy ⟨hop, hrun⟩

theorem Machine.Reachable.running (h : Reachable ⟨s, .running⟩) :
    ∃ returned, Running returned False s := h.inv_of_roomy

/-- The object is at a place that was free. -/
structure Allocated (heap : StableHeap Obj) (o : Obj) (x : HeapId) (heap' : StableHeap Obj) :
    Prop where
  ne : ∀ {z p}, heap.get? z = some p → z ≠ x
  get? : ∀ z, heap'.get? z = if z = x then some o else heap.get? z

theorem exists_allocate (heap : StableHeap Obj) (o : Obj) :
    ∃ x heap', heap.allocate o = (x, heap') ∧ Allocated heap o x heap' := by
  refine ⟨_, _, rfl, ?_, StableHeap.get?_allocate heap o⟩
  rintro z p hz rfl
  cases (StableHeap.get?_allocate_fst heap o).symm.trans hz

theorem Allocated.new (h : Allocated heap o x heap') : heap'.get? x = some o :=
  (h.get? x).trans (if_pos rfl)

theorem Allocated.kept (h : Allocated heap o x heap') {z : HeapId} {p : Obj}
    (hz : heap.get? z = some p) : heap'.get? z = some p :=
  ((h.get? z).trans (if_neg (h.ne hz))).trans hz

theorem perform_awaitCoroutine {t : TaskId} (hcur : s.currentTask = some t)
    (hx : s.heap.get? x = some (.coroutine .new)) :
    perform Vm.queued (.await .unlimited (.ref x)) .running s = .ok .running { s with
      heap := s.heap.set x (.coroutine .running)
      suspendedFrames := s.suspendedFrames + 1 } := by
  have hawait : execGetAwaitable Vm.queued .unlimited (.ref x) s = .ok (.ok .framePushed) { s with
      heap := s.heap.set x (.coroutine .running)
      suspendedFrames := s.suspendedFrames + 1 } := by
    rw [execGetAwaitable, get_bind_apply, hcur]
    exact (bind_of_ok (read_eq hx)).trans rfl
  exact bind_of_ok hawait

theorem perform_awaitUsed {t : TaskId} (hcur : s.currentTask = some t)
    (hg : s.heap.get? g = some (.gatherFuture [x, y] .pending))
    (hx : s.heap.get? x = some (.coroutine .new)) (hy : s.heap.get? y = some (.coroutine .running))
    (hfree : s.coroutineToTask.lookup x = none) (hroom : s.nextTaskId + 1 < 2 ^ 32) :
    perform Vm.queued (.await .unlimited (.ref g)) .running s =
      .ok (.raising .cannotReuseCoroutine) (s.litter x y g) := by
  have hawait : execGetAwaitable Vm.queued .unlimited (.ref g) s =
      .ok (.error .cannotReuseCoroutine) (s.litter x y g) := by
    rw [execGetAwaitable, get_bind_apply, hcur]
    exact (bind_of_ok (read_eq hg)).trans
      ((bind_of_ok (awaitGatherFuture_used (.task t) hg hx hy hfree hroom)).trans rfl)
  exact bind_of_ok hawait

theorem perform_makeGather {p : Obj} (hx : s.heap.get? x = some o) (hy : s.heap.get? y = some p)
    (ho : o.isAwaitable) (hp : p.isAwaitable)
    (halloc : s.heap.allocate (.gatherFuture [x, y] .pending) = (g, heap)) :
    perform Vm.queued (.makeGather [x, y]) .running s =
      .ok .running { s with heap := heap, stack := .ref g :: s.stack } := by
  have hall : [x, y].all (fun id => (s.heap.get? id).elim false Obj.isAwaitable) = true := by
    simp [hx, hy, ho, hp]
  change makeGather [x, y] s = _
  rw [makeGather, get_bind_apply, if_pos hall]
  refine (bind_of_ok (allocate_eq _)).trans ?_
  rw [halloc]
  rfl

/-- A stale task more. -/
theorem Littered.litter {run : Option TaskId} (h : Littered y s) (hs : Scheduled s run)
    (hkept : ∀ {z p}, s.heap.get? z = some p → heap.get? z = some p)
    (hx : heap.get? x = some (.coroutine .running))
    (hg : heap.get? g = some (.gatherFuture [x, y] (.failed .cannotReuseCoroutine)))
    (hstarted : ∀ z, heap.get? z ≠ some (.coroutine .new)) (stack : List Value) :
    Littered y { s.litter x y g with heap := heap, stack := stack } := by
  refine ⟨h.current, h.frames, hkept h.used, fun t ht => ?_, hstarted, ?_, h.calls⟩
  · have hlook : ∀ u, (s.litter x y g).tasks.lookup u = if u = s.nextTaskId then
        some (.new (some x) (some (.gatherSlot g x))) else s.tasks.lookup u :=
      fun u => Keyed.lookup_insert_eq ..
    rcases mem_append.mp (show t ∈ s.readyQueue ++ [s.nextTaskId] from ht) with hmem | hmem
    · obtain ⟨task, htask, -⟩ := (hs.mem_queue t).mp hmem
      exact (h.stale t hmem).congr ((hlook t).trans (if_neg (hs.lt_next t task htask).ne)) hkept
    obtain rfl := mem_singleton.mp hmem
    obtain ⟨main, hmain, -⟩ := hs.main
    exact ⟨(Nat.zero_lt_of_lt (hs.lt_next 0 main hmain)).ne', [], x, g, [x, y],
      .cannotReuseCoroutine, (hlook _).trans (if_pos rfl), hx, hg⟩
  · have hlength : (s.readyQueue ++ [s.nextTaskId]).length = s.readyQueue.length + 1 :=
      length_append
    exact congrArg Nat.succ (h.tasks.trans hlength.symm)

/-- There can always be one more: a coroutine is spawned by a gather that fails, and then
awaited. -/
theorem Littered.grow (hm : Reachable ⟨s, .running⟩) (h : Littered y s)
    (hroom : s.readyQueue.length + 3 < 2 ^ 32) : ∃ s', Reachable ⟨s', .running⟩ ∧ Littered y s' ∧
    s'.readyQueue.length = s.readyQueue.length + 1 := by
  obtain ⟨returned, hrunning⟩ := hm.running
  have hscheduled := hrunning.consistent.scheduled
  obtain ⟨x, heap1, halloc1, h1⟩ := exists_allocate s.heap (.coroutine .new)
  obtain ⟨g, heap2, halloc2, h2⟩ := exists_allocate heap1 (.gatherFuture [x, y] .pending)
  have hfree : s.coroutineToTask.lookup x = none := by
    refine Option.eq_none_iff_forall_ne_some.mpr fun t ht => ?_
    obtain ⟨task, htask, hcor⟩ := (hscheduled.driven x t).mp ht
    obtain ⟨state, hx, -⟩ := hrunning.consistent.shaped.coroutine t task x htask hcor
    exact h1.ne hx rfl
  have hnew1 : StartedBut x heap1 := h.startedBut.put h1.get? fun _ => rfl
  have hnew2 : StartedBut x heap2 := hnew1.put h2.get? (by rintro ⟨⟩)
  have hroomy : ∀ {s' : Vm}, StartedBut x s'.heap → s'.nextTaskId ≤ s.nextTaskId + 1 →
      s'.nextCallId = s.nextCallId → s'.Roomy :=
    fun hnew htasks hcalls => h.roomy hroom hnew htasks (hcalls ▸ Nat.le_succ _)
  set s1 : Vm := { s with heap := heap1, stack := .ref x :: s.stack }
  have hm1 : Reachable ⟨s1, .running⟩ := by
    refine hm.step (hroomy h.startedBut (Nat.le_succ _) rfl) .makeCoroutine trivial
      ((bind_of_ok (allocate_eq _)).trans ?_)
    rw [halloc1]
    rfl
  set s2 : Vm := { s1 with heap := heap2, stack := .ref g :: s1.stack }
  have hm2 : Reachable ⟨s2, .running⟩ := by
    refine hm1.step (hroomy hnew1 (Nat.le_succ _) rfl) (.makeGather [x, y]) ?_
      (perform_makeGather h1.new (h1.kept h.used) rfl rfl halloc2)
    intro id hid
    rw [mem_pair] at hid
    rcases hid with rfl | rfl
    · exact mem_live.mpr ⟨_, h1.new⟩
    · exact mem_live.mpr ⟨_, h1.kept h.used⟩
  have hx2 : heap2.get? x = some (.coroutine .new) := h2.kept h1.new
  set s3 : Vm := s2.litter x y g
  have hnext : s.nextTaskId + 1 < 2 ^ 32 := by
    rw [h.tasks]
    omega
  have hm3 : Reachable ⟨s3, .raising .cannotReuseCoroutine⟩ :=
    hm2.step (hroomy hnew2 (Nat.le_succ _) rfl) (.await .unlimited (.ref g))
      (mem_live.mpr ⟨_, h2.new⟩)
      (perform_awaitUsed h.current h2.new hx2 (h2.kept (h1.kept h.used)) hfree hnext)
  have hget3 : ∀ z, s3.heap.get? z = if z = g then
      some (.gatherFuture [x, y] (.failed .cannotReuseCoroutine)) else heap2.get? z :=
    fun z => StableHeap.get?_set h2.new _ z
  have hnew3 : StartedBut x s3.heap := hnew2.put hget3 (by rintro ⟨⟩)
  have hroomy3 : s3.Roomy := hroomy hnew3 le_rfl rfl
  have hm4 : Reachable ⟨s3, .running⟩ := by
    refine hm3.step hroomy3 (.handle (some 0)) (Nat.zero_le _) ?_
    change yieldIfParked s3 = _
    rw [yieldIfParked, get_bind_apply, Vm.isParked,
      show s3.rootParked = false from (hrunning.loaded h.current).rootParked]
    rfl
  have hx3 : s3.heap.get? x = some (.coroutine .new) :=
    ((hget3 x).trans (if_neg (h2.ne h1.new))).trans hx2
  have hm5 : Reachable ⟨_, .running⟩ := hm4.step hroomy3 (.await .unlimited (.ref x))
    (mem_live.mpr ⟨_, hx3⟩) (perform_awaitCoroutine h.current hx3)
  set heap := s3.heap.set x (.coroutine .running)
  have hget : ∀ z, heap.get? z = if z = x then some (.coroutine .running) else s3.heap.get? z :=
    fun z => StableHeap.get?_set hx3 _ z
  have hnew : StartedBut x heap := hnew3.put hget (by rintro ⟨⟩)
  refine ⟨_, hm5.step (hroomy hnew le_rfl rfl) (.returnValue (.host 0)) trivial rfl,
    h.litter hscheduled ?_ ((hget x).trans (if_pos rfl)) ?_ ?_ _, length_append⟩
  · intro z p hz
    have hz1 := h1.kept hz
    rw [hget, if_neg (h1.ne hz), hget3, if_neg (h2.ne hz1)]
    exact h2.kept hz1
  · rw [hget, if_neg (h2.ne h1.new).symm, hget3, if_pos rfl]
  · intro z hz
    obtain rfl := hnew z hz
    cases Option.mem_unique hz ((hget z).trans (if_pos rfl))

theorem exists_littered (n : Nat) (hn : n + 2 < 2 ^ 32) :
    ∃ y s, Reachable ⟨s, .running⟩ ∧ Littered y s ∧ s.readyQueue.length = n := by
  induction n with
  | zero =>
    have hm1 : Reachable ⟨_, .running⟩ :=
      .step (.new true) (.of_test (by decide +kernel)) .makeCoroutine trivial rfl
    have hm2 : Reachable ⟨_, .running⟩ := hm1.step (.of_test (by decide +kernel))
      (.await .unlimited (.ref 0)) (mem_live.mpr ⟨.coroutine .new, rfl⟩) rfl
    have hm3 : Reachable ⟨_, .running⟩ :=
      hm2.step (.of_test (by decide +kernel)) (.returnValue (.host 0)) trivial rfl
    refine ⟨0, _, hm3, ⟨rfl, rfl, rfl, nofun, fun z => ?_, rfl, rfl⟩, rfl⟩
    match z with
    | 0 => exact nofun
    | z + 1 => exact nofun
  | succ n ih =>
    obtain ⟨y, s, hm, h, hlength⟩ := ih (by omega)
    obtain ⟨s', hm', h', hlength'⟩ := h.grow hm (by omega)
    exact ⟨y, s', hm', h', hlength'.trans (congrArg Nat.succ hlength)⟩

/-- The main task awaits a new call, and all the stale tasks are activated. -/
theorem Littered.await_deeper {returned : HeapId → Option Value} {room : Nat} {s1 : Vm} {f : HeapId}
    {call : CallId} (h : Littered y s) (hrunning : Running returned False s)
    (hlength : s.readyQueue.length = room + 1)
    (hf : s1.heap.get? f = some (.externalFuture call (.pending none) none))
    (hnew : ∀ {z o}, s.heap.get? z = some o → z ≠ f)
    (hget : ∀ {z o}, s.heap.get? z = some o → s1.heap.get? z = some o)
    (hs1 : s1 = { s with
      heap := s1.heap, stack := s1.stack, nextCallId := s1.nextCallId
      pendingExternals := s1.pendingExternals }) :
    Ensures (perform (fun _ => room) (.await .unlimited (.ref f)) .running) s1
      (fun _ _ => False) fun panic _ => panic = .outOfFuel := by
  have hcur : s1.currentTask = some 0 := by rw [hs1]; exact h.current
  obtain ⟨task, htask, hstate⟩ := (hrunning.loaded h.current).running
  obtain ⟨t, rest, hqueue⟩ : ∃ t rest, s.readyQueue = t :: rest :=
    exists_cons_of_length_pos (hlength ▸ room.succ_pos)
  have hnodup := hrunning.consistent.scheduled.nodup
  set s2 : Vm := { s1 with
    heap := s1.heap.set f (.externalFuture call (.pending (some (.task 0))) none) } with hs2
  have hawait : awaitExternalFuture f (.task 0) s1 = .ok (.ok .pending) s2 := by
    rw [awaitExternalFuture, bind_of_ok (read_eq hf)]
    rfl
  refine Ensures.bind (.get_bind ?_) fun _ _ => False.elim
  rw [hcur]
  refine .bind_of_eq (read_eq hf) (.bind_of_eq hawait ?_)
  have htask2 : s2.tasks.lookup 0 = some task := by rw [hs2, hs1]; exact htask
  refine .bind_of_eq (blockCurrentOn_eq hcur htask2 hstate) ?_
  set s3 : Vm := { s2 with tasks := s2.tasks.insert 0 { task with state := .blocked f } } with hs3
  have hqueue3 : s3.readyQueue = t :: rest := by rw [hs3, hs2, hs1]; exact hqueue
  refine .bind_of_eq (nextReadyTask_cons hqueue3) ?_
  refine Ensures.bind (.get_bind ?_) fun _ _ => False.elim
  have hstale : ∀ u ∈ t :: rest, Stale { s3 with readyQueue := rest } u := by
    intro u hu
    have hu' := h.stale u (hqueue ▸ hu)
    refine hu'.congr ?_ fun hz => ?_
    · refine (Keyed.lookup_insert_eq ..).trans ((if_neg hu'.ne_main).trans ?_)
      rw [hs2, hs1]
    · exact ((StableHeap.get?_set hf _ _).trans (if_neg (hnew hz))).trans (hget hz)
  refine activateTask_stale room (hstale t mem_cons_self)
    (fun u hu => hstale u (mem_cons_of_mem t hu)) (hqueue ▸ hnodup) ?_ ?_ ?_
  · intro u hu hzero
    exact (hstale u hu).ne_main (Option.mem_unique hcur hzero).symm
  · intro u hu
    obtain rfl := Option.mem_unique hcur hu
    exact ⟨_, AList.lookup_insert _⟩
  · rw [hqueue] at hlength
    exact (Nat.succ.inj hlength).ge

/-- There is a run after which one `await` nests activations deeper. -/
theorem exists_nests_deeper (room : Nat) (hroom : room < 2 ^ 31) : ∃ (m : Machine) (op : Op),
    m.Reached (fun s _ => s.Roomy) ∧ op.Enabled m.vm ∧
    (∃ control s, perform Vm.queued op m.control m.vm = .ok control s) ∧
    ∃ s, perform (fun _ => room) op m.control m.vm = .error .outOfFuel s := by
  obtain ⟨y, s, hm, h, hlength⟩ := exists_littered (room + 1) (by omega)
  obtain ⟨returned, hrunning⟩ := hm.running
  obtain ⟨f, heap, halloc, ha⟩ :=
    exists_allocate s.heap (.externalFuture s.nextCallId (.pending none) none)
  set s1 : Vm := { s with
    nextCallId := s.nextCallId + 1
    heap := heap
    pendingExternals := s.pendingExternals.insert s.nextCallId f
    stack := .ref f :: s.stack } with hs1
  have hf : s1.heap.get? f = some (.externalFuture s.nextCallId (.pending none) none) := ha.new
  have hnew : StartedBut y s.heap := h.startedBut
  have hroomy : s.Roomy := h.roomy (by omega) hnew (Nat.le_succ _) (Nat.le_succ _)
  have hroomy1 : s1.Roomy := h.roomy (by omega) (hnew.put ha.get? nofun) (Nat.le_succ _) le_rfl
  have hm1 : Reachable ⟨s1, .running⟩ := by
    refine hm.step hroomy (.hostCall (.future none)) trivial ?_
    refine (bind_of_ok (allocateCallId_eq hroomy)).trans ?_
    have hcall : s.pendingExternals.lookup s.nextCallId = none := by
      refine Option.eq_none_iff_forall_ne_some.mpr fun x hx => ?_
      exact lt_irrefl _ (hrunning.consistent.registered.call_lt _ x hx)
    set s' : Vm := { s with nextCallId := s.nextCallId + 1 }
    have hadd : addPendingExternal s.nextCallId f { s' with heap := heap } = .ok () { s' with
        heap := heap, pendingExternals := s.pendingExternals.insert s.nextCallId f } := by
      rw [addPendingExternal, get_bind_apply, show AList.lookup s.nextCallId
        ({ s' with heap := heap } : Vm).pendingExternals = none from hcall]
      rfl
    have hpush : pushPendingFuture s.nextCallId none s' = .ok () s1 := by
      refine (bind_of_ok (allocate_eq _)).trans ?_
      rw [show s'.heap = s.heap from rfl, halloc]
      exact bind_of_ok hadd
    exact bind_of_ok hpush
  refine ⟨⟨s1, .running⟩, .await .unlimited (.ref f), hm1, mem_live.mpr ⟨_, hf⟩, ?_, ?_⟩
  · obtain ⟨returned, hinv⟩ := hm1.inv_of_roomy
    have hlost : ¬ (Op.await .unlimited (.ref f)).Lost s1 := by
      intro hlost
      cases h.current.symm.trans hlost
    have henabled : (Op.await .unlimited (.ref f)).Enabled s1 := mem_live.mpr ⟨_, hf⟩
    obtain ⟨control, s', hrun, -⟩ := perform_spec (.all False) hinv hroomy1 henabled False.elim
      (fun _ => hlost) (by simp)
    exact ⟨control, s', hrun⟩
  obtain ⟨panic, s', hrun, rfl⟩ :=
    (h.await_deeper hrunning hlength hf ha.ne ha.kept rfl).exists_error
  exact ⟨s', hrun⟩

/-- **No room is enough.** For each, up to the number of tasks that there may be, there is a state
and an operation that succeeds, but not within it. -/
theorem await_nests_deeper : ∃ (machine : Fin (2 ^ 31) → Machine) (op : Fin (2 ^ 31) → Op), ∀ room,
    (machine room).Reached (fun s _ => s.Roomy) ∧ (op room).Enabled (machine room).vm ∧
      (∃ control s, perform Vm.queued (op room) (machine room).control (machine room).vm =
        .ok control s) ∧
      ∃ s, perform (fun _ => room) (op room) (machine room).control (machine room).vm =
        .error .outOfFuel s := by
  choose machine op h using fun room : Fin (2 ^ 31) => exists_nests_deeper room room.isLt
  exact ⟨machine, op, h⟩

end Monty.Async
