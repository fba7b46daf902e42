import Monty.Async.Delivery

/-!
# Tasks end, and others are activated

When a task ends, its awaiter is told, the task is removed, and another one is activated: the one
that was woken, or the next in the queue. A task that is activated has a context or starts its
coroutine. If the coroutine has been started elsewhere the task fails at once, and the search for
one that can run goes on; it may find none.
-/

namespace Monty.Async

open Fallible Option Function AList List

/-! ## One task changes -/

section

variable {returned : HeapId → Option Value} {prompt : Prop} {s s' : Vm} {run run' : Option TaskId}
  {loose : Option (Awaiter × HeapId)} {t : TaskId} {task task' : Task}

theorem waiter_of_driver (hheap : s'.heap = s.heap) {x : HeapId}
    (hdriver : (s'.driver x).bind Task.awaiter = (s.driver x).bind Task.awaiter) :
    s'.waiter x = s.waiter x := by
  rw [Vm.waiter, Vm.waiter, hheap]
  refine congrArg _ (funext fun o => ?_)
  unfold Vm.objWaiter
  rw [hdriver]

variable {c : HeapId}

theorem waiter_coroutine {state : CoroutineState} (hc : s.heap.get? c = some (.coroutine state)) :
    s.waiter c = (s.driver c).bind Task.awaiter := by
  rw [Vm.waiter, hc]
  rfl

section

variable (h : Scheduled s run) (ht : s.tasks.lookup t = some task) (hc : task.coroutineId = some c)

include h ht hc

theorem Scheduled.driver_eq : s.driver c = some task := by
  rw [Vm.driver, (h.driven c t).mpr ⟨task, ht, hc⟩]
  exact ht

theorem Scheduled.task_unique {t' : TaskId}
    (ht' : s.tasks.lookup t' = some task') (hc' : task'.coroutineId = some c) : t = t' := by
  have h1 := (h.driven c t).mpr ⟨task, ht, hc⟩
  have h2 := (h.driven c t').mpr ⟨task', ht', hc'⟩
  exact mem_unique h1 h2

theorem Scheduled.driven_by {t' : TaskId} {y : HeapId}
    (hy : s.coroutineToTask.lookup y = some t') : y = c ↔ t' = t := by
  obtain ⟨task0, ht0, hc0⟩ := (h.driven y t').mp hy
  constructor
  · rintro rfl
    exact h.task_unique ht0 hc0 ht hc
  · rintro rfl
    obtain rfl := mem_unique ht ht0
    exact mem_unique hc0 hc

end

theorem driver_insert (ht : s.tasks.lookup t = some task) (hlookup : s.PutTask s' t task')
    (hdriven : s'.coroutineToTask = s.coroutineToTask) (hawaiter : task'.awaiter = task.awaiter)
    (x : HeapId) : (s'.driver x).bind Task.awaiter = (s.driver x).bind Task.awaiter := by
  rw [Vm.driver, Vm.driver, hdriven]
  cases s.coroutineToTask.lookup x with
  | none => rfl
  | some t' =>
    rw [bind_some, bind_some, hlookup]
    split_ifs with h
    · rw [h, ht]
      exact hawaiter
    · rfl

section

variable (h : Consistent returned prompt s run [] loose) (ht : s.tasks.lookup t = some task)
  (hlookup : s.PutTask s' t task')

include ht hlookup

omit h in
/-- A task that changes waits for what it did. -/
theorem knows_task_putTask (hblocked : ∀ x, task'.state = .blocked x ↔ task.state = .blocked x)
    (t' : TaskId) (y : HeapId) : s'.knows [] (.task t') y ↔ s.knows [] (.task t') y := by
  rw [Vm.knows, Vm.knows, hlookup]
  split_ifs with heq
  · rw [heq, ht]
    simp [hblocked]
  · rfl

include h

/-- A task that does not run has started if it had before. -/
theorem Consistent.unstarted_insert (hcoroutine : task'.coroutineId = task.coroutineId)
    (hstay : ∀ t' ≠ t, s.currentTask = some t' → s'.currentTask = some t')
    (hframes : task'.frames = 0 → s'.currentTask ≠ some t → task.frames = 0 ∧
      s.currentTask ≠ some t)
    (hp : prompt) : Unstarted s s' := by
  intro t' task1 c ht' hzero hne hc
  rw [hlookup] at ht'
  split_ifs at ht' with heq
  · obtain rfl := Option.some.inj ht'
    obtain ⟨hzero', hne'⟩ := hframes hzero (heq ▸ hne)
    exact h.unstarted hp t task c ht hzero' hne' (hcoroutine ▸ hc)
  · exact h.unstarted hp t' task1 c ht' hzero (mt (hstay t' heq) hne) hc

/-- A task changes without blocking or waking up. -/
theorem Consistent.updateTask
    (hheap : s'.heap = s.heap) (hpending : s'.pendingExternals = s.pendingExternals)
    (hnext : s'.nextCallId = s.nextCallId) (hdriven : s'.coroutineToTask = s.coroutineToTask)
    (hcoroutine : task'.coroutineId = task.coroutineId) (hawaiter : task'.awaiter = task.awaiter)
    (hblocked : ∀ x, task'.state = .blocked x ↔ task.state = .blocked x)
    (hready : task'.Ready ↔ task.Ready) (hid : s'.nextTaskId = s.nextTaskId)
    (hqueue : s'.readyQueue = s.readyQueue)
    (hcurrent : ∀ t', s'.currentTask = some t' → ∃ task, s.tasks.lookup t' = some task)
    (hstay : ∀ t' ≠ t, s.currentTask = some t' → s'.currentTask = some t')
    (hcontext : (t = 0 ∨ ¬ task.Ready) → s'.currentTask ≠ some t → task'.frames ≠ 0)
    (hframes : task'.frames = 0 → s'.currentTask ≠ some t → task.frames = 0 ∧
    s.currentTask ≠ some t) : Consistent returned prompt s' run [] loose := by
  have hwaiter : ∀ x, s'.waiter x = s.waiter x := fun x =>
    waiter_of_driver hheap (driver_insert ht hlookup hdriven hawaiter x)
  have hknows := knows_congr hheap (knows_task_putTask ht hlookup hblocked)
  have hlinks : s'.links [] = s.links [] := links_congr hwaiter hknows (done_congr hheap)
  have hsame : ∀ w, task'.awaiter = some w → task.awaiter = some w := fun w hw => hawaiter ▸ hw
  exact h.retask hheap hpending hnext.ge (task_before ht hlookup hcoroutine hsame)
    (fun x w hx => (hwaiter x).symm.trans hx)
    (h.scheduled.touch ht hlookup hcoroutine hsame hready hid hdriven hqueue hcurrent
      hstay hcontext)
    (hlinks ▸ h.linked) (fun hne => absurd rfl hne)
    (h.unstarted_insert ht hlookup hcoroutine hstay hframes)

end

/-- A task leaves the queue, to run. -/
theorem Consistent.dequeue (h : Consistent returned prompt s none [] none) (ht : t ∈ s.readyQueue) :
    Consistent returned prompt { s with readyQueue := s.readyQueue.filter (· ≠ t) }
      (some t) [] none := by
  refine h.retask rfl rfl le_rfl
    (fun _ task ht => ⟨task, ht, rfl, fun _ hw => hw⟩) (fun _ _ hw => hw) ?_
    h.linked (fun hne => absurd rfl hne) h.unstarted
  have hs := h.scheduled
  refine ⟨hs.nodup.filter _, fun t' => ?_, ?_, hs.lt_next, hs.driven, hs.main,
    hs.spawned, hs.context, hs.awaiter_slot, hs.current⟩
  · rw [mem_filter, hs.mem_queue]
    simp only [decide_eq_true_eq]
    constructor
    · rintro ⟨⟨task, hlook, hready, -⟩, hne⟩
      exact ⟨task, hlook, hready, fun heq => hne (Option.some.inj heq).symm⟩
    · rintro ⟨task, hlook, hready, hne⟩
      refine ⟨⟨task, hlook, hready, by simp⟩, ?_⟩
      rintro rfl
      exact hne rfl
  · rintro t' ⟨⟩
    obtain ⟨task, hlook, hready, -⟩ := (hs.mem_queue t).mp ht
    exact ⟨task, hlook, hready⟩

/-- Whoever waits for the coroutine of a task is to be told. -/
theorem Consistent.takeAwaiter (h : Consistent returned prompt s run [] none)
    (ht : s.tasks.lookup t = some task) (hc : task.coroutineId = some c) :
    Consistent returned prompt (s.putTask t { task with awaiter := none }) run []
      (task.awaiter.map fun w => (w, c)) := by
  set s' := s.putTask t { task with awaiter := none }
  have hlookup : s.PutTask s' t { task with awaiter := none } := s.putTask_putTask t _
  have hheap : s'.heap = s.heap := rfl
  have hdriven : s'.coroutineToTask = s.coroutineToTask := rfl
  obtain ⟨state, hcor, -⟩ := h.shaped.coroutine t task c ht hc
  have hold : s.waiter c = task.awaiter := by
    rw [waiter_coroutine hcor, h.scheduled.driver_eq ht hc]
    rfl
  have hwaiter : ∀ y, s'.waiter y = if y = c then none else s.waiter y := by
    intro y
    split_ifs with hy
    · rw [hy, waiter_coroutine (hheap ▸ hcor), Vm.driver, hdriven,
        (h.scheduled.driven c t).mpr ⟨task, ht, hc⟩, bind_some, hlookup, if_pos rfl]
      rfl
    refine waiter_of_driver hheap ?_
    rw [Vm.driver, Vm.driver, hdriven]
    cases hy' : s.coroutineToTask.lookup y with
    | none => rfl
    | some t' =>
      rw [bind_some, bind_some, hlookup, if_neg (mt (h.scheduled.driven_by ht hc hy').mpr hy)]
  have hknows := knows_congr hheap (knows_task_putTask ht hlookup fun _ => .rfl)
  refine h.retask rfl rfl le_rfl (task_before ht hlookup rfl (by simp)) ?_ ?_ ?_
    (fun hne => absurd rfl hne) ?_
  · intro y w hy
    rw [hwaiter] at hy
    split_ifs at hy
    exact hy
  · exact h.scheduled.touch ht hlookup rfl (by simp) .rfl rfl rfl rfl h.scheduled.current
      (fun _ _ ht' => ht') (h.scheduled.context t task ht)
  · exact h.linked.settle hold (by simp) (fun w y => (hknows w y).mp)
      (fun w y hk _ => .inr ((hknows w y).mpr hk)) (fun w => (done_congr hheap w).mpr) hwaiter
  · exact h.unstarted_insert ht hlookup rfl (fun _ _ ht' => ht') fun hzero hne => ⟨hzero, hne⟩

/-- The current task is gone. -/
def Vm.cancelled (s : Vm) (t : TaskId) (c : HeapId) : Vm := { s with
    tasks := s.tasks.erase t
    currentTask := none
    coroutineToTask := s.coroutineToTask.erase c
    readyQueue := s.readyQueue.filter (· ≠ t) }

theorem lookup_cancelled (t' : TaskId) : (s.cancelled t c).tasks.lookup t' =
    if t' = t then none else s.tasks.lookup t' := Keyed.lookup_erase_eq ..

theorem driven_cancelled (y : HeapId) : (s.cancelled t c).coroutineToTask.lookup y =
    if y = c then none else s.coroutineToTask.lookup y := Keyed.lookup_erase_eq ..

theorem lookup_of_cancelled {t' : TaskId} (ht' : (s.cancelled t c).tasks.lookup t' = some task') :
    t' ≠ t ∧ s.tasks.lookup t' = some task' := by
  rw [lookup_cancelled] at ht'
  split_ifs at ht' with heq
  exact ⟨heq, ht'⟩

theorem Scheduled.cancel (h : Scheduled s (some t)) (ht : s.tasks.lookup t = some task)
    (hzero : t ≠ 0) (hc : task.coroutineId = some c) (hcur : s.currentTask = some t) :
    Scheduled (s.cancelled t c) none := by
  constructor
  case nodup => exact h.nodup.filter _
  case mem_queue =>
    intro t'
    have hq : (s.cancelled t c).readyQueue = s.readyQueue.filter (· ≠ t) := rfl
    rw [hq, mem_filter, h.mem_queue, lookup_cancelled]
    split_ifs with heq
    · simp [heq]
    · simp [heq, Ne.symm heq]
  case run_ready => simp
  case lt_next => exact fun t' task' ht' => h.lt_next t' task' (lookup_of_cancelled ht').2
  case driven =>
    intro y t'
    rw [driven_cancelled, lookup_cancelled]
    split_ifs with hy heq heq
    · simp
    · refine ⟨by simp, ?_⟩
      rintro ⟨task', ht', hc'⟩
      exact absurd (h.task_unique ht' (hy ▸ hc') ht hc) heq
    · refine ⟨fun hlook => absurd ((h.driven_by ht hc hlook).mpr heq) hy, ?_⟩
      rintro ⟨_, h, -⟩
      cases h
    · exact h.driven y t'
  case main =>
    obtain ⟨task0, ht0, hm⟩ := h.main
    exact ⟨task0, by rw [lookup_cancelled, if_neg (Ne.symm hzero)]; exact ht0, hm⟩
  case spawned => exact fun t' task' ht' => h.spawned t' task' (lookup_of_cancelled ht').2
  case context =>
    intro t' task' ht' hor _
    obtain ⟨hne, ht'⟩ := lookup_of_cancelled ht'
    exact h.context t' task' ht' hor (hcur ▸ fun heq => hne (Option.some.inj heq).symm)
  case awaiter_slot =>
    exact fun t' task' w ht' => h.awaiter_slot t' task' w (lookup_of_cancelled ht').2
  case current => rintro _ ⟨⟩

/-- The current task, which nobody waits for any more, is removed. -/
theorem Consistent.removeTask (h : Consistent returned prompt s (some t) [] loose)
    (ht : s.tasks.lookup t = some task) (hzero : t ≠ 0) (hc : task.coroutineId = some c)
    (hawaiter : task.awaiter = none) (hcur : s.currentTask = some t) :
    Consistent returned prompt (s.cancelled t c) none [] loose := by
  set s' := s.cancelled t c
  have hheap : s'.heap = s.heap := rfl
  have hwaiter : ∀ y, s'.waiter y = s.waiter y := by
    intro y
    refine waiter_of_driver hheap ?_
    rw [Vm.driver, Vm.driver, driven_cancelled]
    cases hy : s.coroutineToTask.lookup y with
    | none => simp
    | some t' =>
      have hctask := h.scheduled.driven_by ht hc hy
      split_ifs with hyc
      · obtain rfl := hctask.mp hyc
        simp [ht, hawaiter]
      · rw [bind_some, bind_some, lookup_cancelled, if_neg (mt hctask.mpr hyc)]
  have htask : ∀ t' y, s'.knows [] (.task t') y ↔ s.knows [] (.task t') y := by
    intro t' y
    rw [Vm.knows, Vm.knows, lookup_cancelled]
    split_ifs with heq
    · obtain ⟨task0, ht0, r, hr⟩ := h.scheduled.run_ready t rfl
      obtain rfl := mem_unique ht ht0
      rw [heq, ht]
      simp [hr]
    · rfl
  have hlinks : s'.links [] = s.links [] :=
    links_congr hwaiter (knows_congr hheap htask) (done_congr hheap)
  refine h.retask rfl rfl le_rfl ?_ (fun x w hx => (hwaiter x).symm.trans hx)
    (h.scheduled.cancel ht hzero hc hcur) (hlinks ▸ h.linked) (fun hne => absurd rfl hne) ?_
  · exact fun t' task' ht' => ⟨task', (lookup_of_cancelled ht').2, rfl, fun _ hw => hw⟩
  · intro hp t' task' c' ht' hframes _ hc'
    obtain ⟨hne, ht'⟩ := lookup_of_cancelled ht'
    exact h.unstarted hp t' task' c' ht' hframes
      (hcur ▸ fun heq => hne (Option.some.inj heq).symm) hc'

end

/-! ## Switching -/

variable {result : Except RunError Unit}

section Switch

variable {returned : HeapId → Option Value} {prompt : Prop} {s s' : Vm} {run : Option TaskId}
  {t c : TaskId} {task task' : Task}

theorem Consistent.takeResult
    (h : Consistent returned prompt s run [] none) (ht : s.tasks.lookup t = some task)
    (hready : task.state = .ready result) :
    Consistent returned prompt (s.putTask t { task with state := .ready (.ok ()) })
      run [] none := by
  exact h.updateTask ht (s.putTask_putTask t _) rfl rfl rfl rfl rfl rfl (by simp [hready])
    (by simp [Task.Ready, hready]) rfl rfl h.scheduled.current (fun _ _ ht' => ht')
    (h.scheduled.context t task ht) fun hzero hne => ⟨hzero, hne⟩

theorem Consistent.setCurrent (h : Consistent returned prompt s (some t) [] none)
    (hcur : s.currentTask = none) :
    Consistent returned prompt { s with currentTask := some t } (some t) [] none := by
  have hs := h.scheduled
  refine h.retask rfl rfl le_rfl (fun _ task ht => ⟨task, ht, rfl, fun _ hw => hw⟩)
    (fun _ _ hw => hw) ?_
    h.linked (fun hne => absurd rfl hne) ?_
  · refine ⟨hs.nodup, hs.mem_queue, hs.run_ready, hs.lt_next, hs.driven, hs.main, hs.spawned, ?_,
      hs.awaiter_slot, ?_⟩
    · exact fun t' task ht' hor _ => hs.context t' task ht' hor (by rw [hcur]; rintro ⟨⟩)
    · rintro t' ⟨⟩
      obtain ⟨task, ht, -⟩ := hs.run_ready t rfl
      exact ⟨task, ht⟩
  · exact fun hp t' task c' ht' hframes _ =>
      h.unstarted hp t' task c' ht' hframes (by rw [hcur]; rintro ⟨⟩)

theorem Consistent.saveCurrent {frames : Nat} {stack : List Value}
    (h : Consistent returned prompt s (some t) [] none) (hcur : s.currentTask = some c)
    (hc : s.tasks.lookup c = some task) :
    Consistent returned prompt { s.putTask c { task with frames := frames + 1, stack := stack } with
      stack := [], suspendedFrames := 0, currentTask := some t } (some t) [] none := by
  refine h.updateTask hc (s.putTask_putTask c _) rfl rfl rfl rfl rfl rfl (by simp) .rfl rfl rfl ?_
    (fun t' hne ht' => absurd (mem_unique ht' hcur) hne)
    (fun _ _ => Nat.succ_ne_zero _) nofun
  rintro t' ⟨⟩
  obtain ⟨task, ht, -⟩ := h.scheduled.run_ready t rfl
  exact ⟨task, ht⟩

theorem Consistent.takeContext (h : Consistent returned prompt s run [] none)
    (hcur : s.currentTask = some t) (ht : s.tasks.lookup t = some task) :
    Consistent returned prompt (s.putTask t { task with frames := 0, stack := [] }) run [] none :=
  h.updateTask ht (s.putTask_putTask t _) rfl rfl rfl rfl rfl rfl (by simp) .rfl rfl rfl
    h.scheduled.current (fun _ _ ht' => ht') (fun _ hne => absurd hcur hne) fun _ hne =>
      absurd hcur hne

variable {loose : Option (Awaiter × HeapId)}

/-- A coroutine starts or completes. -/
theorem Consistent.putCoroutine {x : HeapId} {state state' : CoroutineState}
    (h : Consistent returned prompt s run [] loose)
    (hx : s.heap.get? x = some (.coroutine state)) (hstate : state ≠ .completed)
    (hnew : ∀ t task, s.tasks.lookup t = some task → task.coroutineId = some x → prompt →
      s.currentTask = some t)
    (hcompleted : state' = .completed → ∀ t task, s.tasks.lookup t = some task →
      task.coroutineId ≠ some x) :
    let s' := s.put x (.coroutine state')
    Consistent returned prompt s' run [] loose ∧ Later returned s s' := by
  intro s'
  have hs : SameScheduler s s' := .of_eq rfl
  have hget : s.Put s' x (.coroutine state') := Vm.put_put hx _
  have hfinal : ¬ (Obj.coroutine state).isFinal := by
    cases state with
    | completed => exact absurd rfl hstate
    | _ => exact id
  have hobj : s.objWaiter x (.coroutine state') = s.waiter x := by
    rw [Vm.waiter, hx]
    rfl
  have hwaiter : ∀ y, s'.waiter y = s.waiter y := by
    intro y
    rw [waiter_put hget hs.sameTasks]
    split_ifs with hy
    · rw [hobj, hy]
    · rfl
  have hknows : ∀ w y, s'.knows [] w y ↔ s.knows [] w y :=
    knows_put_iff hget (knows_task_congr hs []) (by simp [hx, Obj.knows])
  have hdone : ∀ w, s'.done w ↔ s.done w := done_put_iff hget (by simp [hx, Obj.isSettled])
  refine h.put hx hget hfinal trivial (fun _ t task ht hc hp _ => hnew t task ht hc hp)
    (fun heq => hcompleted (by cases heq; rfl)) (by simp) hs.sameTasks hs.currentTask
    (h.scheduled.congr hs) (h.registered.put hx hget (by simp) rfl le_rfl)
    (fun g z hw => h.shaped.slot x g z (hobj ▸ hw)) (by simp)
    (links_congr hwaiter hknows hdone ▸ h.linked) ?_ (by simp) nodup_nil
  · obtain ⟨rank, owner, ho, -⟩ := h.ordered
    refine ⟨rank, owner, ho.put hx hget trivial hs.sameTasks (fun w => (hdone w).mpr) ?_, (by simp)⟩
    intro w hw hnot
    exact ho.owner_eq x w (hobj ▸ hw) fun hd => hnot ((hdone w).mpr hd)

/-- What a coroutine returned matters once it has completed. -/
theorem Consistent.withReturned {returned' : HeapId → Option Value} {stack : List GatherCommit}
    (h : Consistent returned prompt s run stack loose)
    (hreturned : ∀ x, s.heap.get? x = some (.coroutine .completed) → returned' x = returned x) :
    Consistent returned' prompt s run stack loose := by
  have hvalue : s.value returned' = s.value returned := by
    funext x
    rw [Vm.value, Vm.value]
    cases hx : s.heap.get? x with
    | none => rfl
    | some o =>
      rw [bind_some, bind_some]
      unfold Obj.value
      split
      · rfl
      · rfl
      · exact hreturned x hx
      · rfl
  refine { h with shaped := ?_, committing := fun f hf => ?_ }
  · refine ⟨h.shaped.coroutine, h.shaped.item, h.shaped.slot, fun g items a hg => ?_⟩
    rw [hvalue]
    exact h.shaped.awaited g items a hg
  · obtain ⟨items, hitems, hslots⟩ := (h.committing f hf).frame
    exact ⟨items, hitems, hvalue ▸ hslots⟩

end Switch

/-! ## The programs -/

/-- A task runs: its context is loaded. -/
structure Vm.Loaded (s : Vm) (t : TaskId) : Prop where
  current : s.currentTask = some t
  rootParked : s.rootParked = false
  running : ∃ task, s.tasks.lookup t = some task ∧ task.state = .ready (.ok ())

/-- No task can run: the frame that is loaded is the placeholder. -/
structure Vm.Idle (s : Vm) : Prop where
  current : s.currentTask = none
  queue : s.readyQueue = []
  parked : s.rootParked = true

/-- What the search for a task to run ends with. It finds one if `must` holds. -/
structure Resumed (returned : HeapId → Option Value) (prompt must : Prop) (s s' : Vm) : Prop where
  consistent : Consistent returned prompt s' s'.currentTask [] none
  later : Later returned s s'
  active : (∃ t, s'.Loaded t) ∨ (s'.Idle ∧ s'.suspendedFrames = 0) ∧ ¬ must
  pendingExternals : s'.pendingExternals = s.pendingExternals
  nextCallId : s'.nextCallId = s.nextCallId

variable {returned : HeapId → Option Value} {prompt must : Prop} {s s' s'' : Vm} {t c : TaskId}
  {task : Task} {x : HeapId}

theorem Resumed.mono {must' : Prop} (h : Resumed returned prompt must s s') (hmust : must' → must) :
    Resumed returned prompt must' s s' :=
  { h with active := h.active.imp_right fun ⟨hidle, hnot⟩ => ⟨hidle, mt hmust hnot⟩ }

/-- The search goes on from a later state. -/
theorem Resumed.after (h : Resumed returned prompt must s' s'') (hl : Later returned s s')
    (hpending : s'.pendingExternals = s.pendingExternals) (hnext : s'.nextCallId = s.nextCallId) :
    Resumed returned prompt must s s'' :=
  { h with
    later := hl.trans h.later
    pendingExternals := h.pendingExternals.trans hpending
    nextCallId := h.nextCallId.trans hnext }

theorem cancelLoop_nil (fuel : Nat) : cancelLoop fuel [] = pure () := by
  cases fuel <;> rfl

section

variable (ht : s.tasks.lookup t = some task)

include ht

theorem cancelTask_eq (hstate : task.state = .ready result) (hx : task.coroutineId = some x)
    (hcur : s.currentTask = some t) : cancelTask t s = .ok () (s.cancelled t x) := by
  have hone : cancelOne t [] s = .ok [] (s.cancelled t x) := by
    rw [cancelOne, get_bind_apply, ht]
    simp only [hstate, hx, hcur, if_pos]
    rfl
  rw [cancelTask, get_bind_apply, cancelLoop, bind_of_ok hone, cancelLoop_nil]
  rfl

theorem takeResumeResult_eq (hstate : task.state = .ready result) :
    takeResumeResult t s = .ok result (s.putTask t { task with state := .ready (.ok ()) }) := by
  rw [takeResumeResult, bind_of_ok (getTask_eq ht), hstate]
  rfl

theorem saveTaskContext_eq : saveTaskContext t s = .ok ()
      { s.putTask t { task with frames := s.suspendedFrames + 1, stack := s.stack } with
        stack := [], suspendedFrames := 0 } := by
  rw [saveTaskContext, get_bind_apply, bind_of_ok (getTask_eq ht)]
  rfl

end

theorem nextReadyTask_spec (h : Consistent returned prompt s none [] none) :
    (nextReadyTask s = .ok none s ∧ s.readyQueue = []) ∨
      ∃ t rest, nextReadyTask s = .ok (some t) { s with readyQueue := rest } ∧
        s.readyQueue = t :: rest ∧
        Consistent returned prompt { s with readyQueue := rest } (some t) [] none := by
  cases hqueue : s.readyQueue with
  | nil =>
    refine .inl ⟨?_, rfl⟩
    rw [nextReadyTask, get_bind_apply, hqueue]
    rfl
  | cons t rest =>
    have hmem : t ∈ s.readyQueue := by rw [hqueue]; exact mem_cons_self
    have hrest : rest = s.readyQueue.filter (· ≠ t) := by
      have hnodup := h.scheduled.nodup
      rw [hqueue, nodup_cons] at hnodup
      rw [hqueue, filter_cons_of_neg (by simp), List.filter_eq_self.mpr]
      intro t' ht'
      simp only [decide_eq_true_eq]
      rintro rfl
      exact hnodup.1 ht'
    refine .inr ⟨t, rest, ?_, rfl, hrest ▸ h.dequeue hmem⟩
    rw [nextReadyTask, get_bind_apply, hqueue]
    rfl

def ActivatesNext (returned : HeapId → Option Value) (prompt : Prop) (s : Vm)
    (act : TaskId → Run (Except RunError Unit)) (woken : Option TaskId) : Prop :=
  ∀ {s' : Vm} {t : TaskId} {task : Task}, Consistent returned prompt s' (some t) [] none →
    s'.currentTask = none → s'.tasks.lookup t = some task →
    (task.frames = 0 → woken = none ∧ s'.readyQueue.length < s.readyQueue.length) →
    Succeeds (act t) s' fun _ s'' => Resumed returned prompt prompt s' s''

theorem resumeAfterTaskExit_spec {act : TaskId → Run (Except RunError Unit)} {woken : Option TaskId}
    (hact : ActivatesNext returned prompt s act woken)
    (h : Consistent returned prompt s none [] none) (hcur : s.currentTask = none)
    (hwoken : ∀ t, woken = some t → t ∈ s.readyQueue ∧
      ∃ task, s.tasks.lookup t = some task ∧ task.frames ≠ 0) :
    Succeeds (resumeAfterTaskExit act woken) s fun out s' =>
      (out = .ok false ∧ s' = s ∧ s.readyQueue = []) ∨
        ((out = .ok true ∨ ∃ error, out = .error error) ∧ Resumed returned prompt prompt s s') := by
  cases woken with
  | some t =>
    obtain ⟨hmem, task, ht, hframes⟩ := hwoken t rfl
    have hdequeue : removeFromReadyQueue t s =
        .ok () { s with readyQueue := s.readyQueue.filter (· ≠ t) } := rfl
    refine .bind_of_eq hdequeue ?_
    refine (hact (h.dequeue hmem) hcur ht fun hzero => absurd hzero hframes).bind
      fun out s' h' => ?_
    have h'' : Resumed returned prompt prompt s s' := h'.after (.of_eq rfl) rfl rfl
    cases out <;> exact .pure (.inr ⟨by simp, h''⟩)
  | none =>
    obtain ⟨hnext, hempty⟩ | ⟨t, rest, hnext, hqueue, h1⟩ := nextReadyTask_spec h
    · exact .bind_of_eq hnext (.pure (.inl ⟨rfl, rfl, hempty⟩))
    obtain ⟨task, ht, -⟩ := h1.scheduled.run_ready t rfl
    have hless : rest.length < s.readyQueue.length := by
      rw [hqueue]
      exact Nat.lt_succ_self _
    refine .bind_of_eq hnext ((hact h1 hcur ht fun _ => ⟨rfl, hless⟩).bind fun out s' h' => ?_)
    have h'' : Resumed returned prompt prompt s s' := h'.after (.of_eq rfl) rfl rfl
    cases out <;> exact .pure (.inr ⟨by simp, h''⟩)

/-- Every task can be activated if there is fuel for those in the queue. -/
def Activates (returned : HeapId → Option Value) (prompt : Prop) (fuel : Nat) : Prop :=
  ∀ {s : Vm} {t : TaskId} {task : Task}, Consistent returned prompt s (some t) [] none →
    s.tasks.lookup t = some task → (s.currentTask = some t → s.rootParked = false) → 0 < fuel →
    (¬ prompt → task.frames = 0 → s.currentTask ≠ some t → s.readyQueue.length + 1 < fuel) →
    Succeeds (activateTask fuel t) s fun _ s' => Resumed returned prompt prompt s s'

section Fuel

variable {fuel : Nat} (hactivate : Activates returned prompt fuel)

include hactivate in
theorem handleTaskFailure_spec {error : RunError}
    (h : Consistent returned prompt s (some (t + 1)) [] none) (hcur : s.currentTask = some (t + 1))
    (hpos : 0 < fuel) (hfuel : ¬ prompt → s.readyQueue.length < fuel) :
    Succeeds (handleTaskFailure (activateTask fuel) error) s fun out s' =>
      Resumed returned prompt (prompt ∧ out ≠ .ok ()) s s' := by
  obtain ⟨task, ht, result, hstate⟩ := h.scheduled.run_ready (t + 1) rfl
  obtain ⟨x, hx⟩ := h.scheduled.spawned (t + 1) task ht (Nat.succ_ne_zero t)
  refine .get_bind ?_
  rw [hcur]
  have hassert : debugAssert (t + 1 != 0) s = .ok () s := rfl
  refine .bind_of_eq hassert (.bind_of_eq (getTask_eq ht) ?_)
  set s1 : Vm := s.putTask (t + 1) { task with awaiter := none }
  have ht1 : s1.tasks.lookup (t + 1) = some { task with awaiter := none } := lookup_insert _
  have h1 : Consistent returned prompt s1 (some (t + 1)) [] (task.awaiter.map fun w => (w, x)) :=
    h.takeAwaiter ht hx
  refine .bind (.bind_of_eq (setTask_eq ..) (deliverFailure?_spec h1)) ?_
  rintro woken s2 ⟨h2, hl2, hd⟩
  -- the task that fails is not the one that is woken
  have ht2 : s2.tasks.lookup (t + 1) = some { task with awaiter := none } :=
    hd.quiet.ready _ _ ht1 ⟨result, hstate⟩
  refine .modify_bind _ ?_
  set s3 : Vm := { s2 with stack := [], suspendedFrames := 0, rootParked := true }
  have h3 : Consistent returned prompt s3 (some (t + 1)) [] none :=
    h2.congr rfl (.of_eq rfl) rfl le_rfl
  have hcur3 : s3.currentTask = some (t + 1) := hd.currentTask.trans hcur
  refine .bind_of_eq (cancelTask_eq ht2 hstate hx hcur3) ?_
  set s4 : Vm := s3.cancelled (t + 1) x
  have h4 : Consistent returned prompt s4 none [] none :=
    h3.removeTask ht2 (Nat.succ_ne_zero t) hx rfl hcur3
  have hl : Later returned s s4 := hl2.congr rfl rfl
  have hqueue : s4.readyQueue = (s.readyQueue ++ woken.toList).filter (· ≠ t + 1) :=
    congrArg (filter (· ≠ t + 1)) hd.readyQueue
  have hwoken : ∀ t', woken = some t' → t' ∈ s4.readyQueue ∧
      ∃ task, s4.tasks.lookup t' = some task ∧ task.frames ≠ 0 := by
    rintro t' rfl
    obtain ⟨task', y, stack, ht', hblocked, ht''⟩ := hd.wakes t' rfl
    have hne : t' ≠ t + 1 := by
      rintro rfl
      obtain rfl := mem_unique ht1 ht'
      exact nomatch hstate.symm.trans hblocked
    refine ⟨?_, _, (lookup_erase_ne hne).trans ht'', ?_⟩
    · rw [hqueue]
      simp [hne]
    refine h.scheduled.context t' task' ((lookup_insert_ne hne).symm.trans ht') (.inr ?_) ?_
    · rintro ⟨r, hr⟩
      exact nomatch hblocked.symm.trans hr
    · rw [hcur]
      exact fun heq => hne (Option.some.inj heq).symm
  have hshort : ¬ prompt → woken = none → s4.readyQueue.length < fuel := by
    rintro hnot rfl
    refine lt_of_le_of_lt ?_ (hfuel hnot)
    rw [hqueue, toList_none, append_nil]
    exact length_filter_le ..
  have hpending : s4.pendingExternals = s.pendingExternals := hd.pendingExternals
  have hnext : s4.nextCallId = s.nextCallId := hd.nextCallId
  have hact : ActivatesNext returned prompt s4 (activateTask fuel) woken := by
    intro s' t' task' h' hcur' ht' hzero
    refine hactivate h' ht' (fun heq => nomatch hcur'.symm.trans heq) hpos ?_
    intro hnot hframes _
    obtain ⟨hnone, hless⟩ := hzero hframes
    exact lt_of_le_of_lt hless (hshort hnot hnone)
  refine (resumeAfterTaskExit_spec hact h4 rfl hwoken).bind fun out s' h' => ?_
  rcases h' with ⟨rfl, rfl, hempty⟩ | ⟨-, h'⟩
  · exact .pure ⟨h4, hl, .inr ⟨⟨⟨rfl, hempty, rfl⟩, rfl⟩, fun h => h.2 rfl⟩, hpending, hnext⟩
  · have h'' := h'.after hl hpending hnext
    cases out <;> exact .pure (h''.mono And.left)

variable (h : Consistent returned prompt s (some t) [] none)

include hactivate h in
/-- The context of the task is there, or the task starts; it fails if it cannot. -/
theorem loadOrInitTask_spec (hcur : s.currentTask = some t) (ht : s.tasks.lookup t = some task)
    (hstate : task.state = .ready (.ok ())) (hmain : t = 0 → task.frames ≠ 0)
    (hnew : prompt → task.frames = 0 → ∀ c, task.coroutineId = some c →
      s.heap.get? c = some (.coroutine .new))
    (hfuel : ¬ prompt → task.frames = 0 → s.readyQueue.length < fuel) :
    Succeeds (loadOrInitTask (activateTask fuel) t) s fun _ s' =>
      Resumed returned prompt prompt s s' := by
  refine .bind_of_eq (getTask_eq ht) (.bind_of_eq (setTask_eq ..) ?_)
  set s1 : Vm := s.putTask t { task with frames := 0, stack := [] }
  have h1 : Consistent returned prompt s1 (some t) [] none := h.takeContext hcur ht
  have ht1 : s1.tasks.lookup t = some { task with frames := 0, stack := [] } := lookup_insert _
  cases hframes : task.frames with
  | succ frames =>
    refine .modify_bind _ (.pure ?_)
    refine ⟨?_, .of_eq rfl, .inl ⟨t, hcur, rfl, _, ht1, hstate⟩, rfl, rfl⟩
    rw [hcur]
    exact h1.congr rfl (.of_eq rfl) rfl le_rfl
  | zero =>
    obtain ⟨c, hc⟩ := h.scheduled.spawned t task ht fun hzero => hmain hzero hframes
    obtain ⟨state, hcor, -⟩ := h.shaped.coroutine t task c ht hc
    rw [hc]
    refine .bind_of_eq (read_eq hcor) ?_
    have hfail : ¬ prompt →
        Succeeds (handleTaskFailure (activateTask fuel) .cannotReuseCoroutine) s1
          fun _ s' => Resumed returned prompt prompt s s' := by
      intro hnot
      cases t with
      | zero => exact absurd hframes (hmain rfl)
      | succ t =>
        have hless := hfuel hnot hframes
        refine (handleTaskFailure_spec hactivate h1 hcur (Nat.zero_lt_of_lt hless)
          fun _ => hless).mono fun _ s' h' => ?_
        exact (h'.mono fun hp => absurd hp hnot).after (.of_eq rfl) rfl rfl
    have hnot : state ≠ .new → ¬ prompt := by
      rintro hstate hp
      have := hnew hp hframes c hc
      rw [hcor] at this
      cases this
      exact hstate rfl
    cases state with
    | new =>
      have honly : ∀ t' task', s1.tasks.lookup t' = some task' → task'.coroutineId = some c →
          prompt → s1.currentTask = some t' := by
        intro t' task' ht' hc' _
        exact hcur.trans (congrArg some (h1.scheduled.task_unique ht1 hc ht' hc'))
      set s2 : Vm := s1.put c (.coroutine .running)
      obtain ⟨h2, hl2⟩ : Consistent returned prompt s2 (some t) [] none ∧ Later returned s1 s2 :=
        h1.putCoroutine hcor nofun honly (by rintro ⟨⟩)
      refine .bind_of_eq (read_eq hcor) (.bind_of_eq (setObj_eq ..) ?_)
      refine .modify_bind _ (.pure ?_)
      refine ⟨?_, hl2.congr rfl rfl, .inl ⟨t, hcur, rfl, _, ht1, hstate⟩, rfl, rfl⟩
      rw [hcur]
      exact h2.congr rfl (.of_eq rfl) rfl le_rfl
    | running => exact hfail (hnot nofun)
    | completed => exact hfail (hnot nofun)

include hactivate h in
theorem switchTask_spec (ht : s.tasks.lookup t = some task) (hstate : task.state = .ready (.ok ()))
    (hloaded : s.currentTask = some t → s.rootParked = false)
    (hfuel : ¬ prompt → task.frames = 0 → s.currentTask ≠ some t → s.readyQueue.length < fuel) :
    Succeeds (switchTask (activateTask fuel) t) s fun _ s' =>
      Resumed returned prompt prompt s s' := by
  refine .get_bind ?_
  cases hcur : s.currentTask with
  | none =>
    have hne : s.currentTask ≠ some t := by rw [hcur]; rintro ⟨⟩
    refine .modify_bind _ ?_
    refine (loadOrInitTask_spec hactivate (h.setCurrent hcur) rfl ht hstate ?_ ?_
      fun hnot hframes => hfuel hnot hframes hne).mono fun _ s' h' => h'.after (.of_eq rfl) rfl rfl
    · exact fun hzero => h.scheduled.context t task ht (.inl hzero) hne
    · exact fun hp hframes c hc => h.unstarted hp t task c ht hframes hne hc
  | some c =>
    dsimp only
    split_ifs with hct
    · subst hct
      refine .pure ⟨?_, .refl s, .inl ⟨c, hcur, hloaded hcur, task, ht, hstate⟩, rfl, rfl⟩
      rw [hcur]
      exact h
    have hne : s.currentTask ≠ some t := by
      rw [hcur]
      exact fun heq => hct (Option.some.inj heq)
    obtain ⟨task', hc⟩ := h.scheduled.current c hcur
    refine .bind_of_eq (saveTaskContext_eq hc) (.modify_bind _ ?_)
    have ht' := (Keyed.lookup_insert_eq s.tasks c t
      { task' with frames := s.suspendedFrames + 1, stack := s.stack }).trans
        ((if_neg (Ne.symm hct)).trans ht)
    refine (loadOrInitTask_spec hactivate (h.saveCurrent hcur hc) rfl ht' hstate ?_ ?_
      fun hnot hframes => hfuel hnot hframes hne).mono fun _ s' h' => h'.after (.of_eq rfl) rfl rfl
    · exact fun hzero => h.scheduled.context t task ht (.inl hzero) hne
    · exact fun hp hframes c hc => h.unstarted hp t task c ht hframes hne hc

end Fuel

/-- A task that has a context can always be activated. Each one that fails comes from the queue,
apart from the first; if coroutines are awaited promptly, none fails. -/
theorem activateTask_spec (fuel : Nat) : Activates returned prompt fuel := by
  induction fuel with
  | zero => exact fun _ _ _ hpos => absurd hpos (Nat.lt_irrefl 0)
  | succ fuel ih =>
    intro s t task h ht hloaded _ hfuel
    obtain ⟨task', ht', result, hstate⟩ := h.scheduled.run_ready t rfl
    obtain rfl := mem_unique ht ht'
    refine .bind_of_eq (takeResumeResult_eq ht hstate) ?_
    set s1 : Vm := s.putTask t { task with state := .ready (.ok ()) }
    have h1 : Consistent returned prompt s1 (some t) [] none := h.takeResult ht hstate
    have ht1 : s1.tasks.lookup t = some { task with state := .ready (.ok ()) } := lookup_insert _
    refine (switchTask_spec ih h1 ht1 rfl hloaded fun hnot hframes hne => ?_).bind
      fun out s' h' => ?_
    · exact Nat.lt_of_succ_lt_succ (hfuel hnot hframes hne)
    · have h'' : Resumed returned prompt prompt s s' := h'.after (.of_eq rfl) rfl rfl
      cases out <;> exact .pure h''

/-- There is room for all the activations that may nest. -/
structure Suffices (prompt : Prop) (room : Vm → Nat) : Prop where
  pos : ∀ s, 0 < room s
  queued : ¬ prompt → ∀ s, s.queued ≤ room s

theorem Suffices.all (prompt : Prop) : Suffices prompt Vm.queued :=
  ⟨fun _ => Nat.succ_pos _, fun _ _ => le_rfl⟩

variable {room : Vm → Nat}

theorem activate_spec (hroom : Suffices prompt room)
    (h : Consistent returned prompt s (some t) [] none)
    (hloaded : s.currentTask = some t → s.rootParked = false) :
    Succeeds (activate room t) s fun _ s' => Resumed returned prompt prompt s s' := by
  obtain ⟨task, ht, -⟩ := h.scheduled.run_ready t rfl
  exact .get_bind (activateTask_spec _ h ht hloaded (hroom.pos s) fun hnot _ _ =>
    hroom.queued hnot s)

/-- The current task blocks or has ended: another one goes on, or the host is asked. -/
theorem switchOrYield_spec (hroom : Suffices prompt room)
    (h : Consistent returned prompt s none [] none)
    (hloaded : ∀ t, s.currentTask = some t → s.rootParked = false) :
    Succeeds (switchOrYield room) s fun out s' =>
      (out = .ok (.yield s.pendingExternals.keys) ∧ s' = s ∧ s.readyQueue = []) ∨
        ((out = .ok .framePushed ∨ ∃ error, out = .error error) ∧
          Resumed returned prompt prompt s s') := by
  obtain ⟨hnext, hempty⟩ | ⟨t, rest, hnext, -, h1⟩ := nextReadyTask_spec h
  · exact .bind_of_eq hnext (.get_bind (.pure (.inl ⟨rfl, rfl, hempty⟩)))
  refine .bind_of_eq hnext ?_
  refine (activate_spec hroom h1 (hloaded t)).bind fun out s' h' => ?_
  have h'' : Resumed returned prompt prompt s s' := h'.after (.of_eq rfl) rfl rfl
  cases out <;> exact .pure (.inr ⟨by simp, h''⟩)

/-- The state in which the value of a task is delivered. -/
def Vm.withoutTask (s : Vm) (t : TaskId) (task : Task) (c : HeapId) : Vm := { s with
    tasks := (s.tasks.insert t { task with awaiter := none }).erase t
    currentTask := none
    coroutineToTask := s.coroutineToTask.erase c
    readyQueue := s.readyQueue.filter (· ≠ t)
    heap := s.heap.set c (.coroutine .completed) }

/-- The current task is gone, and its coroutine has a value. -/
theorem Consistent.completeTask (h : Consistent returned prompt s (some t) [] none)
    (hcur : s.currentTask = some t) (ht : s.tasks.lookup t = some task) (hzero : t ≠ 0)
    (hx : task.coroutineId = some x) (v : Value) :
    Consistent (update returned x (some v)) prompt (s.withoutTask t task x) none []
        (task.awaiter.map fun w => (w, x)) ∧
      Later (update returned x (some v)) s (s.withoutTask t task x) ∧
      (s.withoutTask t task x).value (update returned x (some v)) x = some v := by
  obtain ⟨state, hcor, hrunning⟩ := h.shaped.coroutine t task x ht hx
  set s1 : Vm := s.putTask t { task with awaiter := none }
  have h1 : Consistent returned prompt s1 (some t) [] (task.awaiter.map fun w => (w, x)) :=
    h.takeAwaiter ht hx
  have ht1 : s1.tasks.lookup t = some { task with awaiter := none } := lookup_insert _
  -- the task is removed before its coroutine completes: the order does not matter
  set s2 : Vm := s1.cancelled t x
  have h2 : Consistent returned prompt s2 none [] (task.awaiter.map fun w => (w, x)) :=
    h1.removeTask ht1 hzero hx rfl hcur
  set returned' := update returned x (some v)
  have h2' : Consistent returned' prompt s2 none [] (task.awaiter.map fun w => (w, x)) := by
    refine h2.withReturned fun y hy => update_of_ne ?_ _ _
    rintro rfl
    cases mem_unique hcor hy
    exact hrunning rfl
  have hundriven : ∀ t' task', s2.tasks.lookup t' = some task' → task'.coroutineId ≠ some x := by
    intro t' task' ht' hc'
    have hne : t' ≠ t := by
      rintro rfl
      cases (lookup_erase _ _).symm.trans ht'
    refine hne (h1.scheduled.task_unique ?_ hc' ht1 hx)
    exact (lookup_erase_ne hne).symm.trans ht'
  obtain ⟨h3, hl3⟩ := h2'.putCoroutine hcor hrunning
    (fun t' task' ht' hc' => absurd hc' (hundriven t' task' ht')) fun _ => hundriven
  refine ⟨h3, hl3.congr rfl rfl, ?_⟩
  have hget : (s.withoutTask t task x).heap.get? x = some (.coroutine .completed) :=
    (StableHeap.get?_set hcor _ x).trans (if_pos rfl)
  rw [Vm.value, hget]
  exact update_self ..

/-- A task that has returned is removed before its value is delivered. -/
theorem deliverReturned_eq (h : Consistent returned prompt s (some t) [] none)
    (hcur : s.currentTask = some t) (ht : s.tasks.lookup t = some task)
    (hx : task.coroutineId = some x) (v : Value) :
    deliverReturned t task x v s = deliverSuccess? task.awaiter v (s.withoutTask t task x) := by
  obtain ⟨task', ht', result, hstate⟩ := h.scheduled.run_ready t rfl
  obtain rfl := mem_unique ht ht'
  obtain ⟨state, hcor, -⟩ := h.shaped.coroutine t task x ht hx
  set s1 : Vm := s.putTask t { task with awaiter := none }
  have ht1 : s1.tasks.lookup t = some { task with awaiter := none } := lookup_insert _
  have hcancel := cancelTask_eq (s := s1.put x (.coroutine .completed)) ht1 hstate hx hcur
  refine (bind_of_ok (setTask_eq t _)).trans ((bind_of_ok (read_eq (s := s1) hcor)).trans ?_)
  exact (bind_of_ok (setObj_eq ..)).trans (bind_of_ok hcancel)

theorem handleTaskCompletion_spec {v : Value} (hroom : Suffices prompt room)
    (h : Consistent returned prompt s (some t) [] none) (hcur : s.currentTask = some t)
    (ht : s.tasks.lookup t = some task) (hzero : t ≠ 0) (hx : task.coroutineId = some x) :
    Succeeds (handleTaskCompletion room v) s fun out s' =>
      (out = .ok (.yield s'.pendingExternals.keys) ∧ s'.Idle ∧ s'.suspendedFrames = 0 ∧
        Resumed (update returned x (some v)) prompt False s s') ∨
        ((out = .ok .framePushed ∨ ∃ error, out = .error error) ∧
          Resumed (update returned x (some v)) prompt prompt s s') := by
  refine .get_bind ?_
  rw [hcur]
  refine .bind_of_eq (getTask_eq ht) ?_
  rw [hx]
  set returned' := update returned x (some v)
  set s3 : Vm := s.withoutTask t task x
  obtain ⟨h3, hl3, hv⟩ : Consistent returned' prompt s3 none [] (task.awaiter.map fun w => (w, x)) ∧
      Later returned' s s3 ∧ s3.value returned' x = some v := h.completeTask hcur ht hzero hx v
  have hdeliver := Succeeds.of_run_eq (deliverReturned_eq h hcur ht hx v)
    (deliverSuccess?_spec h3 hv)
  refine hdeliver.bind fun woken s4 ⟨h4, hl4, hd, _⟩ => .modify_bind _ ?_
  set s5 : Vm := { s4 with stack := [], suspendedFrames := 0, rootParked := true }
  have h5 : Consistent returned' prompt s5 none [] none := h4.congr rfl (.of_eq rfl) rfl le_rfl
  have hcur5 : s5.currentTask = none := hd.currentTask
  have hl : Later returned' s s5 := (hl3.trans hl4).congr rfl rfl
  have hpending : s5.pendingExternals = s.pendingExternals := hd.pendingExternals
  have hnext : s5.nextCallId = s.nextCallId := hd.nextCallId
  have hwoken : ∀ t', woken = some t' → t' ∈ s5.readyQueue ∧
      ∃ task, s5.tasks.lookup t' = some task ∧ task.frames ≠ 0 := by
    rintro t' rfl
    obtain ⟨task', y, stack, ht', hblocked, ht''⟩ := hd.wakes t' rfl
    refine ⟨?_, _, ht'', ?_⟩
    · rw [hd.readyQueue]
      simp
    · refine h3.scheduled.context t' task' ht' (.inr ?_) nofun
      rintro ⟨r, hr⟩
      exact nomatch hblocked.symm.trans hr
  have hact : ActivatesNext returned' prompt s5 (activate room) woken :=
    fun h' hcur' _ _ => activate_spec hroom h' fun heq => nomatch hcur'.symm.trans heq
  refine (resumeAfterTaskExit_spec hact h5 hcur5 hwoken).bind fun out s' h' => ?_
  rcases h' with ⟨rfl, rfl, hempty⟩ | ⟨⟨rfl⟩ | ⟨error, rfl⟩, h'⟩
  · have hidle : s5.Idle := ⟨hcur5, hempty, rfl⟩
    refine .get_bind (.pure (.inl ⟨rfl, hidle, rfl, ?_⟩))
    exact ⟨hcur5 ▸ h5, hl, .inr ⟨⟨hidle, rfl⟩, id⟩, hpending, hnext⟩
  · exact .pure (.inr ⟨.inl rfl, h'.after hl hpending hnext⟩)
  · exact .pure (.inr ⟨.inr ⟨error, rfl⟩, h'.after hl hpending hnext⟩)

end Monty.Async
