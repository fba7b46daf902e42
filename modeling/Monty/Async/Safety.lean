import Monty.Async.Progress

/-!
# Every operation keeps the invariant

What holds between two operations of the machine depends on where it stands: while a frame runs or
an exception is handled a task is loaded, or no task can run and the placeholder is; while the host
is asked no task can run, and the calls that it is asked for are all that are pending. No operation
panics in such a state, apart from an `await` without a task.
-/

namespace Monty.Async

open Fallible List Option StableHeap Machine

variable {returned : HeapId → Option Value} {prompt : Prop} {s s' : Vm}

/-! ## Freeing garbage -/

section

variable {run : Option TaskId} {garbage : List HeapId} {x : HeapId}

theorem get?_foldl_free (garbage : List HeapId) (h : StableHeap Obj) (y : HeapId) :
    (garbage.foldl free h).get? y = if y ∈ garbage then none else h.get? y := by
  induction garbage generalizing h with
  | nil => simp
  | cons g garbage ih =>
    rw [foldl_cons, ih, get?_free]
    by_cases hy : y ∈ garbage
    · simp [hy]
    · by_cases hg : y = g <;> simp [hy, hg]

section

variable (hgarbage : s.Garbage garbage)

include hgarbage in
theorem Vm.Garbage.notMem_of_task {t : TaskId} {task : Task} (ht : s.tasks.lookup t = some task)
    (hx : x ∈ task.owned) : x ∉ garbage := by
  intro hmem
  refine (hgarbage x hmem).1 ?_
  rw [Vm.roots, mem_append, mem_append]
  refine .inl (.inl (mem_flatMap.mpr ⟨⟨t, task⟩, ?_, hx⟩))
  exact AList.mem_lookup_iff.mp ht

include hgarbage in
theorem Vm.Garbage.notMem_of_call {call : CallId}
    (hcall : s.pendingExternals.lookup call = some x) : x ∉ garbage := by
  intro hmem
  refine (hgarbage x hmem).1 ?_
  rw [Vm.roots, mem_append, mem_append]
  exact .inl (.inr (mem_map.mpr ⟨⟨call, x⟩, AList.mem_lookup_iff.mp hcall, rfl⟩))

include hgarbage in
theorem Vm.Garbage.notMem_of_owner {y : HeapId} {o : Obj} (hy : s.heap.get? y = some o)
    (hx : x ∈ o.owned) (hkeep : y ∉ garbage) : x ∉ garbage :=
  fun hmem => hkeep ((hgarbage x hmem).2 y o hy hx)

theorem Vm.Garbage.notMem_of_waiter (hgarbage : s.Garbage garbage) {w : Awaiter}
    (hx : s.waiter x = some w) (hkeep : x ∉ garbage) : ∀ g ∈ w.owned, g ∉ garbage := by
  intro g hg
  obtain ⟨o, ho, hw⟩ := bind_eq_some_iff.mp hx
  cases o with
  | externalFuture call state r =>
    cases state with
    | pending w =>
      cases hw
      exact hgarbage.notMem_of_owner ho (by simp [Obj.owned, hg]) hkeep
    | _ => cases hw
  | gatherFuture items state =>
    cases state with
    | awaited a =>
      cases hw
      exact hgarbage.notMem_of_owner ho (by simp [Obj.owned, GatherState.owned, hg]) hkeep
    | _ => cases hw
  | coroutine state =>
    obtain ⟨task, hdriver, hawaiter⟩ := bind_eq_some_iff.mp hw
    obtain ⟨t, -, ht⟩ := bind_eq_some_iff.mp hdriver
    exact hgarbage.notMem_of_task ht (by simp [Task.owned, hawaiter, hg])
  | list _ => cases hw
  | other => cases hw

end

/-- Garbage is not part of what the tasks and the awaitables know. -/
theorem Consistent.collect (h : Consistent returned prompt s run [] none)
    (hgarbage : s.Garbage garbage) :
    Consistent returned prompt { s with heap := garbage.foldl free s.heap } run [] none := by
  set s' : Vm := { s with heap := garbage.foldl free s.heap }
  have hget : ∀ y, s'.heap.get? y = if y ∈ garbage then none else s.heap.get? y :=
    get?_foldl_free garbage s.heap
  have hfrom : ∀ {y o}, s'.heap.get? y = some o → y ∉ garbage ∧ s.heap.get? y = some o := by
    intro y o hy
    rw [hget] at hy
    split_ifs at hy with hmem
    exact ⟨hmem, hy⟩
  have hto : ∀ {y}, y ∉ garbage → s'.heap.get? y = s.heap.get? y := fun hy => by
    rw [hget, if_neg hy]
  have hsame : SameScheduler s s' := .of_eq rfl
  have hobj : ∀ y o, s'.objWaiter y o = s.objWaiter y o := objWaiter_congr hsame.sameTasks
  have hwaiter : ∀ {y w}, s'.waiter y = some w → y ∉ garbage ∧ s.waiter y = some w := by
    intro y w hy
    obtain ⟨o, ho, hw⟩ := bind_eq_some_iff.mp hy
    obtain ⟨hmem, ho⟩ := hfrom ho
    exact ⟨hmem, bind_eq_some_iff.mpr ⟨o, ho, hobj y o ▸ hw⟩⟩
  have hwaiter' : ∀ {y}, y ∉ garbage → s'.waiter y = s.waiter y := by
    intro y hy
    rw [Vm.waiter, Vm.waiter, hto hy]
    exact congrArg _ (funext (hobj y))
  have hdone : ∀ {w}, (∀ g ∈ w.owned, g ∉ garbage) → s.done w → s'.done w := by
    intro w hw hd
    cases w with
    | task t => exact hd
    | gatherSlot g z => rwa [Vm.done, hto (hw g mem_cons_self)]
  have hitems : ∀ {g items state}, s.heap.get? g = some (.gatherFuture items state) → g ∉ garbage →
      ∀ y ∈ items, y ∉ garbage := fun hg hkeep y hy =>
    hgarbage.notMem_of_owner hg (mem_append_left _ hy) hkeep
  have hcoroutine : ∀ {t task c}, s.tasks.lookup t = some task → task.coroutineId = some c →
      c ∉ garbage := fun ht hc => hgarbage.notMem_of_task ht (by simp [Task.owned, hc])
  constructor
  case scheduled => exact h.scheduled.congr hsame
  case registered =>
    refine ⟨fun call y => ⟨fun hcall => ?_, ?_⟩, h.registered.call_lt⟩
    · rw [hto (hgarbage.notMem_of_call hcall)]
      exact (h.registered.externals call y).mp hcall
    · rintro ⟨w, r, hy⟩
      exact (h.registered.externals call y).mpr ⟨w, r, (hfrom hy).2⟩
  case shaped =>
    refine ⟨fun t task c ht hc => ?_, fun g items state hg y hy => ?_, fun y g z hy => ?_,
      fun g items a hg => ?_⟩
    · rw [hto (hcoroutine ht hc)]
      exact h.shaped.coroutine t task c ht hc
    · obtain ⟨hkeep, hg⟩ := hfrom hg
      rw [hto (hitems hg hkeep y hy)]
      exact h.shaped.item g items state hg y hy
    · obtain ⟨hkeep, hy⟩ := hwaiter hy
      rw [hto (hgarbage.notMem_of_waiter hy hkeep g mem_cons_self)]
      exact h.shaped.slot y g z hy
    obtain ⟨hkeep, hg⟩ := hfrom hg
    obtain ⟨hslots, hne⟩ := h.shaped.awaited g items a hg
    refine ⟨hslots.mono fun y hy v hv => ?_, hne⟩
    rw [Vm.value, hto (hitems hg hkeep y hy)]
    exact hv
  case linked =>
    refine ⟨fun {w y} hk _ => ?_, fun {w y} hy => ?_, by simp⟩
    · -- what is known is owned by what knows it
      have hk' : s.knows [] w y ∧ y ∉ garbage := by
        cases w with
        | task t =>
          obtain ⟨task, ht, hb⟩ := hk
          exact ⟨⟨task, ht, hb⟩, hgarbage.notMem_of_task ht
            (by simp [Task.owned, hb, TaskState.owned])⟩
        | gatherSlot g z =>
          obtain ⟨hz, ⟨f, hf, -⟩ | ⟨o, ho, hk⟩⟩ := hk
          · cases hf
          · obtain ⟨hkeep, ho⟩ := hfrom ho
            refine ⟨⟨hz, .inr ⟨o, ho, hk⟩⟩, ?_⟩
            obtain ⟨items, a, rfl, hk⟩ := Obj.knows_iff.mp hk
            exact hitems ho hkeep y ((h.shaped.awaited g items a ho).1.mem_items hk)
      refine (hwaiter' hk'.2).trans (h.linked.waiter_of_knows hk'.1 ?_)
      rintro ⟨⟩
    · obtain ⟨hkeep, hy⟩ := hwaiter hy
      have hw := hgarbage.notMem_of_waiter hy hkeep
      refine (h.linked.knows_of_waiter hy).imp (hdone hw) fun hk => ?_
      cases w with
      | task t => exact hk
      | gatherSlot g z =>
        change s'.knows [] (.gatherSlot g z) y
        rwa [Vm.knows, hto (hw g mem_cons_self)]
  case ordered =>
    obtain ⟨rank, owner, ho, -⟩ := h.ordered
    refine ⟨rank, owner, ⟨fun g items state hg => ?_, fun y w hy hnot => ?_,
      fun t task w ht hw hnot => ?_⟩, by simp⟩
    · exact ho.item_lt g items state (hfrom hg).2
    · obtain ⟨hkeep, hy⟩ := hwaiter hy
      exact ho.owner_eq y w hy fun hd => hnot (hdone (hgarbage.notMem_of_waiter hy hkeep) hd)
    refine ho.lt_task t task w ht hw fun hd => hnot (hdone (fun g hg => ?_) hd)
    exact hgarbage.notMem_of_task ht (by simp [Task.owned, hw, hg])
  case committing => simp
  case distinct => exact nodup_nil
  case unstarted =>
    intro hp t task c ht hframes hne hc
    rw [hto (hcoroutine ht hc)]
    exact h.unstarted hp t task c ht hframes hne hc

end

/-! ## Between two operations -/

/-- A frame runs, or an exception is handled. -/
structure Running (returned : HeapId → Option Value) (prompt : Prop) (s : Vm) : Prop where
  consistent : Consistent returned prompt s s.currentTask [] none
  active : (∃ t, s.Loaded t) ∨ s.Idle ∧ ¬ prompt

/-- The invariant of the machine. -/
def Machine.Inv (returned : HeapId → Option Value) (prompt : Prop) (m : Machine) : Prop :=
  match m.control with
  | .running => Running returned prompt m.vm
  | .raising _ => Running returned prompt m.vm
  | .yielded calls => Waiting returned prompt m.vm ∧ calls = m.vm.pendingExternals.keys
  | .finished _ => True
  | .stalled => False

/-- An operation ends with the invariant, and with later objects. -/
structure Goes (returned : HeapId → Option Value) (prompt : Prop) (s : Vm) (control : Control)
    (s' : Vm) : Prop where
  inv : Inv returned prompt ⟨s', control⟩
  later : Later returned s s'

variable {must : Prop} {s'' : Vm} {t : TaskId} {room : Vm → Nat}

variable {control : Control}

theorem Goes.after (h : Goes returned prompt s' control s'')
    (hl : Later returned s s') : Goes returned prompt s control s'' := ⟨h.inv, hl.trans h.later⟩

section

variable (h : Resumed returned prompt prompt s s')

include h

theorem Resumed.running : Running returned prompt s' :=
  ⟨h.consistent, h.active.imp_right fun ⟨⟨hidle, _⟩, hnot⟩ => ⟨hidle, hnot⟩⟩

theorem Resumed.goes_running : Goes returned prompt s .running s' := ⟨h.running, h.later⟩

theorem Resumed.goes_raising (error : RunError) :
    Goes returned prompt s (.raising error) s' := ⟨h.running, h.later⟩

end

section

variable (h : Running returned prompt s)

include h

theorem Running.of_consistent (h' : Consistent returned prompt s' s.currentTask [] none)
    (hs : s' = { s with
      heap := s'.heap, stack := s'.stack, suspendedFrames := s'.suspendedFrames
      nextCallId := s'.nextCallId, pendingExternals := s'.pendingExternals }) :
    Running returned prompt s' := by
  refine ⟨?_, h.active.imp (fun ⟨t, ht⟩ => ⟨t, ?_⟩) fun ⟨hidle, hnot⟩ => ⟨?_, hnot⟩⟩
  · rw [hs] at h' ⊢
    exact h'
  · rw [hs]
    exact ⟨ht.current, ht.rootParked, ht.running⟩
  · rw [hs]
    exact ⟨hidle.current, hidle.queue, hidle.parked⟩

theorem Running.congr (stack : List Value) (frames : Nat) :
    Running returned prompt { s with stack := stack, suspendedFrames := frames } :=
  h.of_consistent (h.consistent.congr rfl (.of_eq rfl) rfl le_rfl) rfl

theorem Running.goes (stack : List Value) (frames : Nat) :
    Goes returned prompt s .running { s with stack := stack, suspendedFrames := frames } :=
  ⟨h.congr stack frames, .of_eq rfl⟩

theorem Running.loaded (ht : s.currentTask = some t) : s.Loaded t := by
  obtain ⟨t', ht'⟩ | ⟨hidle, -⟩ := h.active
  · obtain rfl := mem_unique ht'.current ht
    exact ht'
  · exact nomatch hidle.current.symm.trans ht

/-- An object is allocated and pushed on the stack. -/
theorem Running.allocate {o : Obj} (ho : o.isFresh)
    (hitem : ∀ items state, o = .gatherFuture items state → ∀ y ∈ items,
      ∃ o, s.heap.get? y = some o ∧ o.isAwaitable = true)
    {stack : List Value} {next : CallId} (hnext : s.nextCallId ≤ next) :
    Goes returned prompt s .running { s with
      heap := (s.heap.allocate o).2, stack := stack, nextCallId := next } := by
  set s' : Vm := { s with heap := (s.heap.allocate o).2, stack := stack, nextCallId := next }
  obtain ⟨h', hl⟩ : Consistent returned prompt s' s.currentTask [] none ∧ Later returned s s' :=
    h.consistent.allocate ho hitem rfl ⟨fun _ => rfl, rfl, rfl, rfl, rfl⟩ rfl hnext
  exact ⟨h.of_consistent h' rfl, hl⟩

end

theorem continueAwait_spec {out : Except RunError AwaitResult}
    (h : Awaited returned prompt s out s') :
    Succeeds (continueAwait out) s' (Goes returned prompt s) := by
  cases h with
  | yield hw hl _ _ => exact .pure ⟨⟨hw, rfl⟩, hl⟩
  | goOn hnot h =>
    cases out with
    | error error => exact .pure (h.goes_raising error)
    | ok out =>
      cases out with
      | yield calls => exact absurd rfl (hnot calls)
      | framePushed => exact .pure h.goes_running
      | valueReady v =>
        refine .modify_bind _ (.pure ?_)
        exact (h.running.goes _ _).after h.later

/-- No frame is left to run: the host is asked, and there is something to ask for. -/
theorem pendingFuturesExit_spec (h : Waiting returned prompt s') (hl : Later returned s s') :
    Succeeds pendingFuturesExit s' (Goes returned prompt s) := by
  have hpending : pendingCallIds s' = .ok s'.pendingExternals.keys s' := rfl
  refine .bind_of_eq hpending ?_
  have hne := h.consistent.pending_ne_nil h.queue
  cases hkeys : s'.pendingExternals.keys with
  | nil => exact absurd hkeys hne
  | cons call calls => exact .pure ⟨⟨h, hkeys.symm⟩, hl⟩

/-- An exception was handled, or ended a task. -/
theorem yieldIfParked_spec (h : Consistent returned prompt s' s'.currentTask [] none)
    (hactive : (∃ t, s'.Loaded t) ∨ s'.Idle ∧ (s'.suspendedFrames = 0 ∨ ¬ prompt))
    (hl : Later returned s s') : Succeeds yieldIfParked s' (Goes returned prompt s) := by
  refine .get_bind ?_
  obtain ⟨t, ht⟩ | ⟨hidle, hframes⟩ := hactive
  · have hnot : s'.isParked = false := by rw [Vm.isParked, ht.rootParked, Bool.false_and]
    rw [hnot]
    exact .pure ⟨⟨h, .inl ⟨t, ht⟩⟩, hl⟩
  cases hparked : s'.isParked with
  | true =>
    rw [hidle.current] at h
    exact pendingFuturesExit_spec
      ⟨h, hidle.queue, fun t ht => nomatch hidle.current.symm.trans ht⟩ hl
  | false =>
    have hnot : ¬ prompt := by
      refine hframes.resolve_left fun hzero => ?_
      rw [Vm.isParked, hidle.parked, hzero] at hparked
      cases hparked
    exact .pure ⟨⟨h, .inr ⟨hidle, hnot⟩⟩, hl⟩

variable (hroom : Suffices prompt room) (h : Running returned prompt s)

include hroom h in
theorem handleUncaught_spec
    (error : RunError) : Succeeds (handleUncaught room error) s (Goes returned prompt s) := by
  refine .get_bind ?_
  match hcur : s.currentTask with
  | none => exact .pure ⟨trivial, .refl s⟩
  | some 0 => exact .pure ⟨trivial, .refl s⟩
  | some (t + 1) =>
    set s1 : Vm := { s with suspendedFrames := 0 }
    have h1 : Running returned prompt s1 := h.congr _ _
    have hcur1 : s1.currentTask = some (t + 1) := hcur
    have hc1 := h1.consistent
    rw [hcur1] at hc1
    refine .set_bind ?_
    have hfuel (hnot : ¬ prompt) : s1.readyQueue.length < room s :=
      lt_of_lt_of_le (Nat.lt_add_of_pos_right (Nat.succ_pos 1)) (hroom.queued hnot s)
    refine (handleTaskFailure_spec (activateTask_spec _) hc1 hcur1 (hroom.pos s) hfuel).bind
      fun out s' h' => ?_
    have hl : Later returned s s' := h'.later.congr rfl rfl
    cases out with
    | error next =>
      have hmust : Resumed returned prompt prompt s1 s' := h'.mono fun hp => ⟨hp, nofun⟩
      exact .pure ⟨hmust.running, hl⟩
    | ok _ =>
      refine yieldIfParked_spec h'.consistent (h'.active.imp_right ?_) hl
      exact fun ⟨⟨hidle, hframes⟩, _⟩ => ⟨hidle, .inl hframes⟩

include hroom h in
theorem handleException_spec (error : RunError) (popped : Option Nat) :
    Succeeds (handleException room error popped) s (Goes returned prompt s) := by
  have hpopped : ∀ n : Nat, Succeeds
      (do modify fun s : Vm => { s with suspendedFrames := s.suspendedFrames - n }; yieldIfParked) s
      (Goes returned prompt s) := by
    intro n
    refine .modify_bind _ ?_
    have h1 : Running returned prompt { s with suspendedFrames := s.suspendedFrames - n } :=
      h.congr _ _
    exact yieldIfParked_spec h1.consistent
      (h1.active.imp_right fun ⟨hidle, hnot⟩ => ⟨hidle, .inr hnot⟩)
      (.of_eq rfl)
  unfold handleException
  split
  · exact .pure ⟨trivial, .refl s⟩
  · exact hpopped _
  · exact handleUncaught_spec hroom h error

include hroom in
/-- The host answers calls that the tasks wait for. -/
theorem resumeWithResolvedFutures_spec
    (h : Waiting returned prompt s) (results : List (CallId × ExtResult)) :
    Succeeds (resumeWithResolvedFutures room results) s (Goes returned prompt s) := by
  refine (applyFutureResults_spec results h.consistent).bind fun out s1 ⟨⟨calls, h1⟩, _⟩ => ?_
  cases out with
  | error error => exact .pure ⟨trivial, h1.later⟩
  | ok _ =>
    have hloaded : ∀ t, s1.currentTask = some t → s1.rootParked = false := fun t ht =>
      h1.quiet.rootParked.trans (h.loaded t (h1.quiet.currentTask.symm.trans ht))
    obtain ⟨hnext, hempty⟩ | ⟨t, rest, hnext, -, h2⟩ := nextReadyTask_spec h1.consistent
    · refine .bind_of_eq hnext ?_
      exact pendingFuturesExit_spec ⟨h1.consistent, hempty, hloaded⟩ h1.later
    refine .bind_of_eq hnext ?_
    refine (activate_spec hroom h2 (hloaded t)).bind fun out s' h' => ?_
    have hl : Later returned s s' := h1.later.trans (h'.later.congr rfl rfl)
    cases out with
    | error error => exact .pure ⟨h'.running, hl⟩
    | ok _ => exact .pure ⟨h'.running, hl⟩

/-! ### Calls of the host -/

include h in
theorem Running.register (r : Option Value) (stack : List Value) :
    let o : Obj := .externalFuture s.nextCallId (.pending none) r
    Goes returned prompt s .running { s with
      heap := (s.heap.allocate o).2
      stack := stack
      nextCallId := s.nextCallId + 1
      pendingExternals := s.pendingExternals.insert s.nextCallId (s.heap.allocate o).1 } := by
  intro o
  set s' : Vm := { s with
    heap := (s.heap.allocate o).2
    stack := stack
    nextCallId := s.nextCallId + 1
    pendingExternals := s.pendingExternals.insert s.nextCallId (s.heap.allocate o).1 }
  have hfree := get?_allocate_fst s.heap o
  have hget : s.Put s' (s.heap.allocate o).1 o := get?_allocate s.heap o
  have hpending : ∀ call, s'.pendingExternals.lookup call =
      if call = s.nextCallId then some (s.heap.allocate o).1 else s.pendingExternals.lookup call :=
    fun _ => Keyed.lookup_insert_eq ..
  have hsame : SameScheduler s s' := ⟨fun _ => rfl, rfl, rfl, rfl, rfl⟩
  have hregistered : Registered s' := by
    refine ⟨fun call x => ?_, fun call x hcall => ?_⟩
    · rw [hpending, hget]
      have hold := h.consistent.registered.externals call x
      split_ifs with hcall hx hx
      · subst hcall hx
        exact ⟨fun _ => ⟨none, r, rfl⟩, fun _ => rfl⟩
      · refine ⟨fun heq => absurd (Option.some.inj heq).symm hx, fun hx' => ?_⟩
        have hlt := h.consistent.registered.call_lt call x (hold.mpr hx')
        exact absurd hcall hlt.ne
      · refine ⟨fun hx' => ?_, ?_⟩
        · obtain ⟨w, r, hget'⟩ := hold.mp hx'
          rw [hx, hfree] at hget'
          cases hget'
        · rintro ⟨w, r, heq⟩
          injection heq with heq
          injection heq with heq
          exact absurd heq.symm hcall
      · exact hold
    · rw [hpending] at hcall
      split_ifs at hcall with heq
      · rw [heq]
        exact Nat.lt_succ_self _
      · exact (h.consistent.registered.call_lt call x hcall).trans (Nat.lt_succ_self _)
  obtain ⟨h', hl⟩ := h.consistent.make hfree hget hsame hregistered rfl not_false nofun
  exact ⟨h.of_consistent h' rfl, hl⟩

/-- Nobody awaits the future of the call yet: nobody is told of the answer. -/
theorem applyFutureResults_unawaited {run : Option TaskId} {call : CallId} {x : HeapId}
    {r : Option Value} (result : ExtResult) (h : Consistent returned prompt s run [] none)
    (hcall : s.pendingExternals.lookup call = some x)
    (hx : s.heap.get? x = some (.externalFuture call (.pending none) r)) :
    Succeeds (applyFutureResults [(call, result)]) s fun _ s' =>
      Consistent returned prompt s' run [] none ∧ Later returned s s' ∧
        s' = { s with heap := s'.heap, pendingExternals := s'.pendingExternals } := by
  cases result with
  | value v =>
    obtain ⟨h', hl, -⟩ := h.withSettled hx (.resolved (r.getD v)) nofun
    have hrun : resolveFuture call v s = .ok () _ := (resolveFuture_eq hx hcall v).trans rfl
    exact .bind_of_eq (bind_of_ok hrun) (.pure ⟨h', hl, rfl⟩)
  | error error =>
    obtain ⟨h', hl, -⟩ := h.withSettled hx (.failed error) nofun
    have hrun : failFuture call error s = .ok () _ := (failFuture_eq hx hcall error).trans rfl
    exact .bind_of_eq (bind_of_ok hrun) (.pure ⟨h', hl, rfl⟩)
  | inconvertible error => exact .of_eq rfl ⟨h, .refl s, rfl⟩
  | future => exact .of_eq rfl ⟨h, .refl s, rfl⟩

theorem allocateCallId_eq (hroomy : s.Roomy) :
    allocateCallId s = .ok s.nextCallId { s with nextCallId := s.nextCallId + 1 } := by
  exact bind_of_ok (succId_eq hroomy.calls)

include h in
theorem hostCall_spec (hroomy : s.Roomy) (reply : HostReply) :
    Succeeds (hostCall reply) s (Goes returned prompt s) := by
  set s1 : Vm := { s with nextCallId := s.nextCallId + 1 } with hs1
  refine .bind_of_eq (allocateCallId_eq hroomy) ?_
  -- the number of the call is new
  have hnew : s.pendingExternals.lookup s.nextCallId = none := by
    cases hlook : s.pendingExternals.lookup s.nextCallId with
    | none => rfl
    | some x => exact absurd (h.consistent.registered.call_lt _ _ hlook) (lt_irrefl _)
  have hpush : ∀ r, ∃ s', pushPendingFuture s.nextCallId r s1 = .ok () s' ∧
      Goes returned prompt s .running s' ∧
      s'.heap.get? (s.heap.allocate (.externalFuture s.nextCallId (.pending none) r)).1 =
        some (.externalFuture s.nextCallId (.pending none) r) ∧
      s'.pendingExternals.lookup s.nextCallId =
        some (s.heap.allocate (.externalFuture s.nextCallId (.pending none) r)).1 := by
    intro r
    set o : Obj := .externalFuture s.nextCallId (.pending none) r
    have hadd : addPendingExternal s.nextCallId (s.heap.allocate o).1
        { s1 with heap := (s.heap.allocate o).2 } = .ok () { s1 with
          heap := (s.heap.allocate o).2
          pendingExternals := s.pendingExternals.insert s.nextCallId (s.heap.allocate o).1 } := by
      have hnew' : ({ s1 with heap := (s.heap.allocate o).2 } : Vm).pendingExternals.lookup
        s.nextCallId = none := hnew
      rw [addPendingExternal, get_bind_apply, hnew']
      rfl
    have hrun : pushPendingFuture s.nextCallId r s1 = .ok () _ :=
      (bind_of_ok (allocate_eq o)).trans ((bind_of_ok hadd).trans rfl)
    refine ⟨_, hrun, h.register r _, ?_, AList.lookup_insert _⟩
    exact (get?_allocate s.heap o _).trans (if_pos rfl)
  have h1 : ∀ stack, Running returned prompt { s1 with stack } := fun stack =>
    h.of_consistent (h.consistent.congr rfl ⟨fun _ => rfl, rfl, rfl, rfl, rfl⟩ rfl
      (Nat.le_succ _)) rfl
  cases reply with
  | value v => exact .modify_bind _ (.pure ⟨h1 _, .of_eq rfl⟩)
  | error e => exact .pure ⟨h1 s.stack, .of_eq rfl⟩
  | future r =>
    obtain ⟨s', hrun, hgoes, -⟩ := hpush r
    exact .bind_of_eq hrun (.pure hgoes)
  | eager r result =>
    obtain ⟨s', hrun, hgoes, hx, hlook⟩ := hpush r
    refine .bind_of_eq hrun ?_
    refine (applyFutureResults_unawaited result hgoes.inv.consistent hlook hx).bind
      fun out s'' ⟨h'', hl, hs''⟩ => ?_
    cases out with
    | error error => exact .pure ⟨trivial, hgoes.later.trans hl⟩
    | ok _ =>
      refine .pure ⟨?_, hgoes.later.trans hl⟩
      exact .of_consistent hgoes.inv h'' (by rw [hs''])

/-! ### Every operation -/

/-- A coroutine is not awaited directly while a gather has a task for it that has not started. -/
def Op.Prompt (s : Vm) : Op → Prop
  | .await _ (.ref id) =>
    s.heap.get? id = some (.coroutine .new) → s.coroutineToTask.lookup id = none
  | _ => True

/-- A task awaits something without being the current one. -/
def Op.Lost (s : Vm) : Op → Prop
  | .await _ _ => s.currentTask = none
  | _ => False

/-- What the coroutines of tasks have returned, after an operation. -/
def Machine.returns (m : Machine) (returned : HeapId → Option Value) : Op → HeapId → Option Value
  | .returnValue v =>
    match m.control, m.vm.suspendedFrames, m.vm.currentTask with
    | .running, 0, some (t + 1) =>
      match (m.vm.tasks.lookup (t + 1)).bind Task.coroutineId with
      | some c => Function.update returned c (some v)
      | none => returned
    | _, _, _ => returned
  | _ => returned

include hroom h in
theorem returnValue_spec (v : Value) : Succeeds (returnValue room v) s
      (Goes (returns ⟨s, .running⟩ returned (.returnValue v)) prompt s) := by
  refine .get_bind ?_
  unfold returns
  match hframes : s.suspendedFrames, hcur : s.currentTask with
  | frames + 1, _ => exact .set_bind (.pure (h.goes _ _))
  | 0, none => exact .pure ⟨trivial, .refl s⟩
  | 0, some 0 => exact .pure ⟨trivial, .refl s⟩
  | 0, some (t + 1) =>
    have hc := h.consistent
    rw [hcur] at hc
    obtain ⟨task, ht, -⟩ := hc.scheduled.run_ready (t + 1) rfl
    obtain ⟨c, hcor⟩ := hc.scheduled.spawned (t + 1) task ht (Nat.succ_ne_zero t)
    have hcor' : (s.tasks.lookup (t + 1)).bind Task.coroutineId = some c := by
      rw [ht, bind_some, hcor]
    simp only [hcor']
    refine (handleTaskCompletion_spec hroom hc hcur ht (Nat.succ_ne_zero t) hcor).bind
      fun out s' hout => ?_
    refine continueAwait_spec ?_
    obtain ⟨rfl, hidle, -, h'⟩ | ⟨hor, h'⟩ := hout
    · have hc' := h'.consistent
      rw [hidle.current] at hc'
      exact .yield ⟨hc', hidle.queue, fun t ht => nomatch hidle.current.symm.trans ht⟩ h'.later
        h'.pendingExternals h'.nextCallId
    · refine .goOn ?_ h'
      rintro calls rfl
      rcases hor with hor | ⟨error, hor⟩ <;> cases hor

include h in
theorem makeGather_spec (items : List HeapId) :
    Succeeds (makeGather items) s (Goes returned prompt s) := by
  refine .get_bind ?_
  split_ifs with hitems
  · refine .bind_of_eq (allocate_eq _) (.modify_bind _ (.pure ?_))
    refine h.allocate (o := .gatherFuture items .pending) trivial ?_ le_rfl
    rintro _ _ ⟨⟩ y hy
    have hy' := all_eq_true.mp hitems y hy
    cases hget : s.heap.get? y with
    | none =>
      rw [hget] at hy'
      cases hy'
    | some o =>
      rw [hget] at hy'
      exact ⟨o, rfl, hy'⟩
  · exact .pure ⟨h, .refl s⟩

include hroom h in
theorem await_spec (limits : Limits) (v : Value) (hroomy : s.Roomy)
    (hop : (Op.await limits v).Enabled s)
    (hprompt : prompt → (Op.await limits v).Prompt s) (hlost : ¬ (Op.await limits v).Lost s) :
    Succeeds (execGetAwaitable room limits v >>= continueAwait) s
      (Goes returned prompt s) := by
  obtain ⟨t, ht⟩ := ne_none_iff_exists'.mp hlost
  have hc := h.consistent
  rw [ht] at hc
  refine (execGetAwaitable_spec hroom limits v hc (h.loaded ht) hroomy ?_ ?_).bind
    fun out s' => continueAwait_spec
  · rintro id rfl
    exact hop
  · rintro hp id rfl
    exact hprompt hp

variable {op : Op}

include hroom h in
theorem performRunning_spec (hroomy : s.Roomy) (hop : op.Enabled s)
    (hprompt : prompt → op.Prompt s) (hlost : ¬ op.Lost s) :
    Succeeds (performRunning room op) s (Goes (returns ⟨s, .running⟩ returned op) prompt s) := by
  cases op with
  | makeCoroutine =>
    refine .bind_of_eq (allocate_eq _) (.modify_bind _ (.pure ?_))
    exact h.allocate (o := .coroutine .new) trivial nofun le_rfl
  | makeGather items => exact makeGather_spec h items
  | makeOther =>
    refine .bind_of_eq (allocate_eq _) (.modify_bind _ (.pure ?_))
    exact h.allocate (o := .other) trivial nofun le_rfl
  | makeSettled v =>
    have hrun : settledAwaitable v s = .ok _ _ :=
      (bind_of_ok (allocateCallId_eq hroomy)).trans (allocate_eq _)
    refine .bind_of_eq hrun (.modify_bind _ (.pure ?_))
    exact h.allocate (o := .externalFuture s.nextCallId (.resolved v) none) trivial nofun
      (Nat.le_succ _)
  | useStack stack => exact .modify_bind _ (.pure (h.goes _ _))
  | call => exact .modify_bind _ (.pure (h.goes _ _))
  | returnValue v => exact returnValue_spec hroom h v
  | raise error => exact .pure ⟨h, .refl s⟩
  | await limits v => exact await_spec hroom h limits v hroomy hop hprompt hlost
  | hostCall reply => exact hostCall_spec h hroomy reply
  | handle popped => exact .pure ⟨h, .refl s⟩
  | resume results => exact .pure ⟨h, .refl s⟩
  | collect garbage => exact .pure ⟨h, .refl s⟩

/-- There is nobody to block. -/
theorem perform_lost (room : Vm → Nat) (h : op.Lost s) :
    perform room op .running s = .error .noCurrentTask s := by
  cases op with
  | await limits v =>
    have hcur : s.currentTask = none := h
    have hrun : execGetAwaitable room limits v s = .error .noCurrentTask s := by
      rw [execGetAwaitable, get_bind_apply, hcur]
      rfl
    exact bind_of_error hrun
  | _ => exact h.elim

theorem Machine.Inv.collect {garbage : List HeapId}
    (h : Inv returned prompt ⟨s, control⟩) (hgarbage : s.Garbage garbage) :
    Inv returned prompt ⟨{ s with heap := garbage.foldl free s.heap }, control⟩ := by
  have hrunning (h : Running returned prompt s) :
      Running returned prompt { s with heap := garbage.foldl free s.heap } :=
    h.of_consistent (h.consistent.collect hgarbage) rfl
  cases control with
  | running => exact hrunning h
  | raising error => exact hrunning h
  | yielded calls =>
    obtain ⟨hw, hcalls⟩ := h
    exact ⟨⟨hw.consistent.collect hgarbage, hw.queue, hw.loaded⟩, hcalls⟩
  | finished result => trivial
  | stalled => exact h

include hroom in
/-- An operation that is enabled does not panic, and keeps the invariant; for how much room there is
on the native stack makes no difference, as long as it suffices. -/
theorem perform_spec (h : Inv returned prompt ⟨s, control⟩) (hroomy : s.Roomy) (hop : op.Enabled s)
    (hprompt : prompt → op.Prompt s) (hlost : control = .running → ¬ op.Lost s)
    (hcollect : ∀ garbage, op ≠ .collect garbage) :
    Succeeds (perform room op control) s
      (Goes (returns ⟨s, control⟩ returned op) prompt s) := by
  unfold perform
  split
  case h_1 => exact absurd rfl (hcollect _)
  case h_2 => exact performRunning_spec hroom h hroomy hop hprompt (hlost rfl)
  case h_3 popped error => exact handleException_spec hroom h error popped
  case h_4 results calls => exact resumeWithResolvedFutures_spec hroom h.1 results
  case h_5 hrunning _ _ =>
    have hreturns : returns ⟨s, control⟩ returned op = returned := by
      cases op with
      | returnValue v =>
        cases control with
        | running => exact (hrunning rfl).elim
        | _ => rfl
      | _ => rfl
    rw [hreturns]
    exact .pure ⟨h, .refl s⟩

end Monty.Async
