import Monty.Async.Reachable

/-!
# What becomes of a gather

While a gather is awaited it waits for an item that has no value. When the last one has, the gather
completes with the list of all of them, in the order of the items, and whoever waits for it has that
list. A failure goes up from what has failed: every gather on the way fails with the same error, up
to one that had settled before or to the task that waits, and nothing else changes. While gathers
are being committed the way is that of the frames on the stack. What has settled stays so.
-/

namespace Monty.Async

open Fallible List AList

/-! ## The way up -/

/-- The gathers that wait, one for the other, for something, and the task that waits for the
last. -/
inductive Vm.Upward (s : Vm) : HeapId → Option Awaiter → List HeapId → Option TaskId → Prop
  | nobody {x : HeapId} : Upward s x none [] none
  | task {x : HeapId} {t : TaskId} {task : Task} : s.tasks.lookup t = some task →
      task.state = .blocked x → Upward s x (some (.task t)) [] (some t)
  | settled {x g y : HeapId} {o : Obj} : s.heap.get? g = some o → o.isSettled →
      Upward s x (some (.gatherSlot g y)) [] none
  | gather {x g : HeapId} {items gathers : List HeapId} {a : AwaitedGather} {woken :
      Option TaskId} : s.heap.get? g = some (.gatherFuture items (.awaited a)) → x ∈ items →
      Upward s g (some a.awaiter) gathers woken → Upward s x (some (.gatherSlot g x))
        (g :: gathers) woken

/-- A failure has gone up: these gathers have failed, the task is woken with the error, and that is
all. -/
structure FailedUp (error : RunError) (s s' : Vm) (gathers : List HeapId) (woken : Option TaskId) :
    Prop where
  failed : ∀ g ∈ gathers, ∃ items a, s.heap.get? g = some (.gatherFuture items (.awaited a)) ∧
    s'.heap.get? g = some (.gatherFuture items (.failed error))
  objects : ∀ y, y ∉ gathers → s'.heap.get? y = s.heap.get? y
  wakes : ∀ t, woken = some t → ∃ task x, s.tasks.lookup t = some task ∧ task.state = .blocked x ∧
    s'.tasks.lookup t = some { task with state := .ready (.error error) }
  tasks : ∀ t, woken ≠ some t → s'.tasks.lookup t = s.tasks.lookup t
  readyQueue : s'.readyQueue = s.readyQueue ++ woken.toList
  rest : s' = { s with heap := s'.heap, tasks := s'.tasks, readyQueue := s'.readyQueue }

variable {returned : HeapId → Option Value} {prompt : Prop} {s s' : Vm} {run woken : Option TaskId}
  {x g : HeapId} {w : Option Awaiter}

section Upward

variable {loose : Option (Awaiter × HeapId)} {gathers : List HeapId} {error : RunError}

/-- The way up is the same after changes off the way. -/
theorem Vm.Upward.congr (h : s.Upward x w gathers woken)
    (hgather : ∀ g items a, s.heap.get? g = some (.gatherFuture items (.awaited a)) → g ∈ gathers →
      s'.heap.get? g = some (.gatherFuture items (.awaited a)))
    (hsettled : ∀ g o, s.heap.get? g = some o → o.isSettled → s'.heap.get? g = some o)
    (htask : ∀ t task y, s.tasks.lookup t = some task → task.state = .blocked y →
      s'.tasks.lookup t = some task) : s'.Upward x w gathers woken := by
  induction h with
  | nobody => exact .nobody
  | task ht hb => exact .task (htask _ _ _ ht hb) hb
  | settled ho hs => exact .settled (hsettled _ _ ho hs) hs
  | gather hg hx _ ih =>
    refine .gather (hgather _ _ _ hg mem_cons_self) hx (ih fun g' items' a' hg' hmem => ?_)
    exact hgather g' items' a' hg' (mem_cons_of_mem _ hmem)

theorem Vm.Upward.awaited (h : s.Upward x w gathers woken) : ∀ g ∈ gathers, s.awaited g := by
  induction h with
  | nobody => simp
  | task => simp
  | settled => simp
  | gather hg _ _ ih => exact forall_mem_cons.mpr ⟨⟨_, _, hg⟩, ih⟩

/-- Items come before the gathers they are in. -/
theorem Vm.Upward.rank_lt {rank : HeapId → Nat} {owner : HeapId → TaskId}
    (ho : Ordered s rank owner) (h : s.Upward x w gathers woken) :
    (∀ g ∈ gathers, rank x < rank g) ∧ gathers.Nodup := by
  induction h with
  | nobody => exact ⟨by simp, .nil⟩
  | task => exact ⟨by simp, .nil⟩
  | settled => exact ⟨by simp, .nil⟩
  | gather hg hx _ ih =>
    obtain ⟨hlt, hnodup⟩ := ih
    have hfirst := ho.item_lt _ _ _ hg _ hx
    exact ⟨forall_mem_cons.mpr ⟨hfirst, fun g' hg' => hfirst.trans (hlt g' hg')⟩,
      nodup_cons.mpr ⟨fun hmem => lt_irrefl _ (hlt _ hmem), hnodup⟩⟩

/-- From whatever is waited for there is a way up. -/
theorem Consistent.exists_upward (h : Consistent returned prompt s run [] loose) {w : Awaiter}
    (hk : s.done w ∨ s.knows [] w x) : ∃ gathers woken, s.Upward x (some w) gathers woken := by
  obtain ⟨rank, owner, ho, -⟩ := h.ordered
  -- there are fewer gathers above each one on the way
  induction hn : (s.heap.live.filter fun g => rank x < rank g).card using Nat.strong_induction_on
    generalizing x w with
  | _ n ih =>
    cases w with
    | task t =>
      obtain ⟨task, ht, hb⟩ := hk.resolve_left id
      exact ⟨[], some t, .task ht hb⟩
    | gatherSlot g y =>
      obtain ⟨o, hg, hsettled⟩ | ⟨rfl, ⟨f, hf, -⟩ | ⟨o, hg, hx⟩⟩ := hk
      · exact ⟨[], none, .settled hg hsettled⟩
      · cases hf
      obtain ⟨items, a, rfl, hx⟩ := Obj.knows_iff.mp hx
      have hitem := (h.shaped.awaited g items a hg).1.mem_items hx
      have hlt := ho.item_lt g items _ hg y hitem
      have hwaiter : s.waiter g = some a.awaiter := by
        rw [Vm.waiter, hg]
        rfl
      have hless : (s.heap.live.filter fun g' => rank g < rank g').card < n := by
        rw [← hn]
        refine Finset.card_lt_card ⟨fun g' hg' => ?_, fun hsub => ?_⟩
        · obtain ⟨hlive, hg'⟩ := Finset.mem_filter.mp hg'
          exact Finset.mem_filter.mpr ⟨hlive, hlt.trans hg'⟩
        · have hmem := hsub (Finset.mem_filter.mpr ⟨StableHeap.mem_live.mpr ⟨_, hg⟩, hlt⟩)
          exact lt_irrefl _ (Finset.mem_filter.mp hmem).2
      obtain ⟨gathers, woken, hup⟩ := ih _ hless (h.linked.knows_of_waiter hwaiter) rfl
      exact ⟨g :: gathers, woken, .gather hg hitem hup⟩

theorem FailedUp.refl (s : Vm) : FailedUp error s s [] none :=
  ⟨by simp, fun _ _ => rfl, by simp, fun _ _ => rfl, by simp, rfl⟩

theorem deliverFailureLoop_upward (gathers : List HeapId) : ∀ {s : Vm} {x : HeapId} {w : Awaiter}
    {fuel : Nat}, s.Upward x (some w) gathers woken → gathers.Nodup → gathers.length < fuel →
    ∃ s', deliverFailureLoop fuel w error s = .ok woken s' ∧ FailedUp error s s' gathers woken := by
  induction gathers with
  | nil =>
    intro s x w fuel hup _ hfuel
    obtain ⟨fuel, rfl⟩ := Nat.exists_eq_succ_of_ne_zero hfuel.ne'
    cases hup with
    | @task _ t task ht hb =>
      set s' := s.woken t { task with state := .ready (.error error) }
      have hrun : deliverErrorToTask t error s = .ok (some t) s' :=
        (bind_of_ok (isBlocked_eq ht hb)).trans (bind_of_ok (makeReady_eq ht hb))
      refine ⟨s', (congrFun (deliverFailureLoop_task ..) s).trans hrun, by simp,
        fun _ _ => rfl, ?_, ?_, rfl, rfl⟩
      · rintro _ ⟨⟩
        exact ⟨task, x, ht, hb, lookup_insert _⟩
      · intro t' hne
        refine lookup_insert_ne ?_
        rintro rfl
        exact hne rfl
    | @settled _ g y o ho hsettled =>
      exact ⟨s, bind_of_ok (failGather_settled ho hsettled), .refl s⟩
  | cons g gathers ih =>
    intro s x w fuel hup hnodup hfuel
    obtain ⟨fuel, rfl⟩ := Nat.exists_eq_succ_of_ne_zero (Nat.ne_zero_of_lt hfuel)
    obtain ⟨hnew, hnodup⟩ := nodup_cons.mp hnodup
    cases hup with
    | @gather _ _ items _ a _ hg _ hup =>
      set s1 := s.put g (.gatherFuture items (.failed error))
      have hget : s.Put s1 g (.gatherFuture items (.failed error)) := Vm.put_put hg _
      have hrun : failGather g error s = .ok (some a.awaiter) s1 := by
        rw [failGather, bind_of_ok (readGather_eq hg)]
        rfl
      have hup1 : s1.Upward g (some a.awaiter) gathers woken := by
        refine hup.congr (fun g' items' a' hg' hmem => ?_) (fun g' o ho hsettled => ?_)
          fun _ _ _ ht _ => ht
        · rw [hget, if_neg]
          · exact hg'
          · rintro rfl
            exact hnew hmem
        rw [hget, if_neg]
        · exact ho
        · rintro rfl
          cases Option.mem_unique hg ho
          exact hsettled
      obtain ⟨s', hrun', hf⟩ := ih hup1 hnodup (Nat.lt_of_succ_lt_succ hfuel)
      refine ⟨s', (bind_of_ok hrun).trans hrun', fun g' hg' => ?_, fun y hy => ?_,
        hf.wakes, hf.tasks, hf.readyQueue, hf.rest⟩
      · rcases mem_cons.mp hg' with rfl | hmem
        · exact ⟨items, a, hg, (hf.objects g' hnew).trans ((hget g').trans (if_pos rfl))⟩
        obtain ⟨items', a', hbefore, hafter⟩ := hf.failed g' hmem
        have hne : g' ≠ g := by
          rintro rfl
          exact hnew hmem
        exact ⟨items', a', ((hget g').trans (if_neg hne)).symm.trans hbefore, hafter⟩
      · rw [mem_cons, not_or] at hy
        exact (hf.objects y hy.2).trans ((hget y).trans (if_neg hy.1))

/-- What has failed is told to whoever waits for it. -/
theorem deliverFailure?_upward (h : Consistent returned prompt s run [] (w.map fun w => (w, x)))
    (error : RunError) :
    ∃ gathers woken s', s.Upward x w gathers woken ∧ deliverFailure? w error s = .ok woken s' ∧
      FailedUp error s s' gathers woken := by
  cases w with
  | none => exact ⟨[], none, s, .nobody, rfl, .refl s⟩
  | some w =>
    obtain ⟨gathers, woken, hup⟩ := h.exists_upward (h.linked.of_loose rfl).2
    obtain ⟨rank, owner, ho, -⟩ := h.ordered
    obtain ⟨-, hnodup⟩ := hup.rank_lt ho
    have hlen : gathers.length ≤ s.heap.len := by
      rw [← toFinset_card_of_nodup hnodup, ← Finset.card_range s.heap.len]
      refine Finset.card_le_card fun g hg => Finset.mem_range.mpr ?_
      obtain ⟨items, a, hg⟩ := hup.awaited g (mem_toFinset.mp hg)
      exact StableHeap.lt_len_of_get? hg
    obtain ⟨s', hrun, hf⟩ := deliverFailureLoop_upward gathers hup hnodup (Nat.lt_succ_of_le hlen)
    exact ⟨gathers, woken, s', hup, hrun, hf⟩

end Upward

/-! ## Values -/

/-- A value has gone up, as far as it completes gathers: nobody is left who waits for something that
has a value. -/
structure SucceededUp (returned : HeapId → Option Value) (s s' : Vm) (woken : Option TaskId) : Prop
    extends Given returned s s' woken where
  wakes : ∀ t, woken = some t → ∃ task, s'.tasks.lookup t = some task ∧ task.state = .ready (.ok ())
  tasks : ∀ t, woken ≠ some t → s'.tasks.lookup t = s.tasks.lookup t
  readyQueue : s'.readyQueue = s.readyQueue ++ woken.toList
  blocked : ∀ t task x, s'.tasks.lookup t = some task → task.state = .blocked x →
    s'.value returned x = none
  awaited : ∀ g items a, s'.heap.get? g = some (.gatherFuture items (.awaited a)) →
    ∃ x ∈ items, s'.value returned x = none

variable {items : List HeapId} {t : TaskId}

section

variable {w : Awaiter}

section

variable (h : Consistent returned prompt s run [] none)

include h

theorem Consistent.value_of_waiter (hx : s.waiter x = some w) : s.value returned x = none := by
  obtain ⟨state, task, hcor, hdriver, -⟩ | ⟨call, r, hext⟩ | ⟨items, a, hg, -⟩ := waiter_cases hx
  · obtain ⟨t, hdriven, ht⟩ := Option.bind_eq_some_iff.mp hdriver
    obtain ⟨task', ht', hc⟩ := (h.scheduled.driven x t).mp hdriven
    obtain ⟨state', hcor', hne⟩ := h.shaped.coroutine t task' x ht' hc
    cases Option.mem_unique hcor hcor'
    rw [Vm.value, hcor]
    cases state with
    | completed => exact absurd rfl hne
    | _ => rfl
  · rw [Vm.value, hext]
    rfl
  · rw [Vm.value, hg]
    rfl

theorem Consistent.value_of_blocked {task : Task} (ht : s.tasks.lookup t = some task)
    (hb : task.state = .blocked x) : s.value returned x = none :=
  h.value_of_waiter (h.waiter_blocked ht hb)

theorem Consistent.exists_value_none {g : HeapId} {a : AwaitedGather}
    (hg : s.heap.get? g = some (.gatherFuture items (.awaited a))) :
    ∃ x ∈ items, s.value returned x = none := by
  obtain ⟨hslots, hne⟩ := h.shaped.awaited g items a hg
  obtain ⟨x, xs, hkeys⟩ := exists_cons_of_ne_nil hne
  have hx : x ∈ a.pendingChildren := by
    refine AList.mem_keys.mpr ?_
    rw [hkeys]
    exact mem_cons_self
  exact ⟨x, hslots.mem_items hx, h.value_of_waiter (h.waiter_child hg hx).1⟩

end

theorem SucceededUp.of_delivered (h : Consistent returned prompt s' run [] none)
    (hd : Delivered (.ok ()) s s' woken) (hgiven : Given returned s s' woken) :
    SucceededUp returned s s' woken where
  toGiven := hgiven
  wakes := fun t ht => by
    obtain ⟨task, x, stack, -, -, ht'⟩ := hd.wakes t ht
    exact ⟨_, ht', rfl⟩
  tasks := hd.others
  readyQueue := hd.readyQueue
  blocked := fun _ _ _ ht hb => h.value_of_blocked ht hb
  awaited := fun _ _ _ hg => h.exists_value_none hg

end

/-! ## What ends a task -/

variable {t : TaskId}

section

variable {task : Task}

theorem deliverReturned_spec (h : Consistent returned prompt s (some t) [] none) (room : Vm → Nat)
    (v : Value) (hcur : s.currentTask = some t) (ht : s.tasks.lookup t = some task) (hzero : t ≠ 0)
    (hx : task.coroutineId = some x) : ∃ woken s', deliverReturned t task x v s = .ok woken s' ∧
      handleTaskCompletion room v s = resumeAfterCompletion room woken s' ∧
      SucceededUp (Function.update returned x (some v)) (s.withoutTask t task x) s' woken := by
  obtain ⟨h1, -, hv⟩ := h.completeTask hcur ht hzero hx v
  obtain ⟨woken, s', hrun, h', -, hd, hgiven⟩ := deliverSuccess?_spec h1 hv
  have hdeliver := (deliverReturned_eq h hcur ht hx v).trans hrun
  refine ⟨woken, s', hdeliver, ?_, .of_delivered h' hd hgiven⟩
  rw [handleTaskCompletion, get_bind_apply, hcur]
  dsimp only
  rw [bind_of_ok (getTask_eq ht), hx]
  exact bind_of_ok hdeliver

theorem deliverRaised_spec (h : Consistent returned prompt s (some (t + 1)) [] none)
    (activate : TaskId → Run (Except RunError Unit)) (error : RunError)
    (hcur : s.currentTask = some (t + 1)) (ht : s.tasks.lookup (t + 1) = some task)
    (hx : task.coroutineId = some x) : ∃ gathers woken s',
      deliverRaised (t + 1) task error s = .ok woken s' ∧
      handleTaskFailure activate error s = resumeAfterFailure activate (t + 1) woken s' ∧
      s.Upward x task.awaiter gathers woken ∧
      FailedUp error { s with tasks := s.tasks.insert (t + 1) { task with awaiter := none } } s'
        gathers woken := by
  set s1 := s.putTask (t + 1) { task with awaiter := none }
  have h1 : Consistent returned prompt s1 (some (t + 1)) [] (task.awaiter.map fun w => (w, x)) :=
    h.takeAwaiter ht hx
  obtain ⟨gathers, woken, s', hup, hrun, hf⟩ := deliverFailure?_upward h1 error
  have hdeliver : deliverRaised (t + 1) task error s = .ok woken s' :=
    (bind_of_ok (setTask_eq (t + 1) _)).trans hrun
  refine ⟨gathers, woken, s', hdeliver, ?_, ?_, hf⟩
  · rw [handleTaskFailure, get_bind_apply, hcur]
    have hassert : debugAssert (t + 1 != 0) s = .ok () s := rfl
    exact (bind_of_ok hassert).trans ((bind_of_ok (getTask_eq ht)).trans (bind_of_ok hdeliver))
  obtain ⟨task', ht', result, hstate⟩ := h.scheduled.run_ready (t + 1) rfl
  obtain rfl := Option.mem_unique ht ht'
  refine hup.congr (fun _ _ _ hg _ => hg) (fun _ _ ho _ => ho) fun t' task' y ht' hb => ?_
  refine (lookup_insert_ne ?_).symm.trans ht'
  rintro rfl
  obtain rfl := Option.some.inj ((lookup_insert _).symm.trans ht')
  exact nomatch hstate.symm.trans hb

end

/-! ## What the host settles -/

section

variable {call : CallId} {r : Option Value}

theorem resolveFuture_succeededUp (h : Consistent returned prompt s run [] none) (v : Value)
    (hx : s.heap.get? x = some (.externalFuture call (.pending w) r)) :
    ∃ woken s', resolveFuture call v s = .ok () s' ∧
      SucceededUp returned (s.withSettled call x (.resolved (r.getD v))) s' woken := by
  have hcall := (h.registered.externals call x).mpr ⟨w, r, hx⟩
  obtain ⟨h1, -, -⟩ := h.withSettled hx (.resolved (r.getD v)) nofun
  obtain ⟨woken, s', hrun, h', -, hd, hgiven⟩ := deliverSuccess?_spec h1 (value_withSettled hx _)
  exact ⟨woken, s', (resolveFuture_eq hx hcall v).trans (bind_of_ok hrun),
    .of_delivered h' hd hgiven⟩

theorem failFuture_failedUp (h : Consistent returned prompt s run [] none) (error : RunError)
    (hx : s.heap.get? x = some (.externalFuture call (.pending w) r)) :
    ∃ gathers woken s', failFuture call error s = .ok () s' ∧ s.Upward x w gathers woken ∧
      FailedUp error (s.withSettled call x (.failed error)) s' gathers woken := by
  have hcall := (h.registered.externals call x).mpr ⟨w, r, hx⟩
  obtain ⟨h1, -, -⟩ := h.withSettled hx (.failed error) nofun
  obtain ⟨gathers, woken, s', hup, hrun, hf⟩ := deliverFailure?_upward h1 error
  have hget := get?_withSettled hx (.failed error)
  refine ⟨gathers, woken, s', (failFuture_eq hx hcall error).trans (bind_of_ok hrun), ?_, hf⟩
  · refine hup.congr (fun g items a hg _ => ?_) (fun g o ho hsettled => ?_) fun _ _ _ ht _ => ht
    · rw [hget] at hg
      split_ifs at hg
      · cases hg
      · exact hg
    rw [hget] at ho
    split_ifs at ho
    · cases ho
      exact hsettled.elim
    · exact ho

end

/-! ## What a commit comes to -/

/-- The gather has its list, or is awaited by the task, or it fails, together with those on the way
to what could not be committed, and nothing else does. -/
def CommitResult (limits : Limits) (returned : HeapId → Option Value) (s s' : Vm) (t : TaskId)
    (g : HeapId) (items : List HeapId) : Except RunError Poll → Prop
  | .ok (.ready v) => s'.heap.get? g = some (.gatherFuture items (.completed v)) ∧
      Complete returned s' items v
  | .ok .pending =>
    ∃ a, s'.heap.get? g = some (.gatherFuture items (.awaited a)) ∧ a.awaiter = .task t
  | .error error => ∃ path, s.Path path ∧ path.getLast? = some g ∧
      CommitFailure limits s s' path error ∧ (∀ y, y ∉ path → s'.failure y = s.failure y) ∧
      ∀ y items' error', s'.heap.get? y = some (.gatherFuture items' (.failed error')) ↔
        s.heap.get? y = some (.gatherFuture items' (.failed error')) ∨
          y ∈ path ∧ error' = error ∧ s.heap.get? y = some (.gatherFuture items' .pending)

variable {out : Except RunError Poll}

section

variable {items : List HeapId}

theorem Committed.path {awaitables : List HeapId} (h : Committed returned s s')
    (hpath : s'.Path awaitables) : s.Path awaitables := by
  refine hpath.imp fun x g ⟨items, i, hg, hx, hnone⟩ => ?_
  refine ⟨items, i, h.pending g items hg, hx, fun y hy => ?_⟩
  rw [← hnone y hy, h.failure_eq]

theorem CommitOutcome.result {limits : Limits}
    (h : CommitOutcome limits returned prompt s t g out s')
    (hg : s.heap.get? g = some (.gatherFuture items .pending)) :
    CommitResult limits returned s s' t g items out ∧
      ∀ t' task, s.tasks.lookup t' = some task → s'.tasks.lookup t' = some task := by
  cases h with
  | @failed error s1 _ path h' hc hpath hlast hab hwhy =>
    have hkept := hc.toKept.trans hab.kept
    refine ⟨⟨path, hc.path hpath, hlast, hwhy.imp_right fun ⟨x, hx, hrefusal⟩ =>
      ⟨x, hc.path hx, hrefusal⟩, fun y hy => ?_, fun y items' error' => ⟨fun hy => ?_, ?_⟩⟩,
      hkept.tasks⟩
    · rw [Vm.failure, hab.others y hy]
      exact hc.failure_eq y
    · by_cases hmem : y ∈ path
      · obtain ⟨items1, hbefore, hafter⟩ := hab.failed y hmem
        cases Option.mem_unique hy hafter
        exact .inr ⟨hmem, rfl, hc.pending y _ hbefore⟩
      · rw [hab.others y hmem] at hy
        have hfailed : s1.failure y = some error' := by
          rw [Vm.failure, hy]
          rfl
        exact .inl ((hc.later.get?_of_failure (hc.failed y error' hfailed)).symm.trans hy)
    rintro (hy | ⟨hmem, rfl, hy⟩)
    · exact hkept.later.get?_of_final hy (show Obj.isFinal _ from trivial)
    · obtain ⟨items1, hbefore, hafter⟩ := hab.failed y hmem
      cases Option.mem_unique hy (hc.pending y _ hbefore)
      exact hafter
  | ready h' hc hroot =>
    obtain ⟨state, hstate⟩ := hc.later.gather hg
    cases Option.mem_unique hroot hstate
    refine ⟨⟨hroot, (hc.later.completed g items _ hroot).resolve_left ?_⟩, hc.tasks⟩
    intro hold
    cases Option.mem_unique hg hold
  | @pending s1 _ f items' h1 hc hf hroot hslots hne hs =>
    obtain ⟨state, hstate⟩ := hc.later.gather hg
    cases Option.mem_unique hroot hstate
    subst hs
    exact ⟨⟨_, (StableHeap.get?_set hroot _ g).trans (if_pos rfl), rfl⟩, hc.tasks⟩

theorem awaitGatherFuture_result (limits : Limits)
    (h : Consistent returned prompt s (some t) [] none) (hroomy : s.Roomy)
    (hg : s.heap.get? g = some (.gatherFuture items .pending)) :
    ∃ out s', awaitGatherFuture limits g (.task t) s = .ok out s' ∧
      CommitResult limits returned s s' t g items out ∧
      ∀ t' task, s.tasks.lookup t' = some task → s'.tasks.lookup t' = some task := by
  obtain ⟨out, s', hrun, ho⟩ := commitGatherTree_spec limits h hroomy hg
  exact ⟨out, s', (bind_of_ok (readGather_eq hg)).trans hrun, ho.result hg⟩

end

/-! ## Along a run -/

/-- A run, with what the coroutines of the tasks that have ended returned. The numbers do not run
out. -/
inductive Machine.Traced : (HeapId → Option Value) → Machine → Prop
  | new (checked : Bool) : Traced (fun _ => none) (.new checked)
  | step {returned : HeapId → Option Value} {m m' : Machine} {op : Op} : Traced returned m →
      m.vm.Roomy → m.Step op m' → Traced (m.returns returned op) m'

/-- What becomes of the gathers. -/
structure Machine.Outcomes (returned : HeapId → Option Value) (m : Machine) : Prop where
  /-- A gather that is awaited has the values that there are, and waits for one that is missing. No
  item has failed. -/
  awaited : ∀ g items a, m.vm.heap.get? g = some (.gatherFuture items (.awaited a)) →
    (∃ x ∈ items, m.vm.value returned x = none) ∧ (∀ x ∈ items, m.vm.failure x = none) ∧
    ∀ (i : Nat) v, a.results[i]? = some (some v) →
      ∃ x, items[i]? = some x ∧ m.vm.value returned x = some v
  blocked : ∀ t task x, m.vm.tasks.lookup t = some task → task.state = .blocked x →
    m.vm.value returned x = none
  /-- A gather is awaited for the first time. -/
  commit : ∀ t limits g items, m.control = .running → m.vm.currentTask = some t →
    m.vm.heap.get? g = some (.gatherFuture items .pending) →
    ∃ out s, awaitGatherFuture limits g (.task t) m.vm = .ok out s ∧
      CommitResult limits returned m.vm s t g items out ∧
      ∀ t' task, m.vm.tasks.lookup t' = some task → s.tasks.lookup t' = some task
  /-- A leaf succeeds: a call of the host, or a task. -/
  resolved : ∀ call x w r v, m.vm.heap.get? x = some (.externalFuture call (.pending w) r) →
    ∃ woken s, resolveFuture call v m.vm = .ok () s ∧
      SucceededUp returned (m.vm.withSettled call x (.resolved (r.getD v))) s woken
  returns : ∀ t task c v room, m.control = .running → m.vm.currentTask = some t → t ≠ 0 →
    m.vm.tasks.lookup t = some task → task.coroutineId = some c →
    ∃ woken s, deliverReturned t task c v m.vm = .ok woken s ∧
      handleTaskCompletion room v m.vm = resumeAfterCompletion room woken s ∧
      SucceededUp (Function.update returned c (some v)) (m.vm.withoutTask t task c) s woken
  /-- A leaf fails. -/
  failed : ∀ call x w r error, m.vm.heap.get? x = some (.externalFuture call (.pending w) r) →
    ∃ gathers woken s, failFuture call error m.vm = .ok () s ∧ m.vm.Upward x w gathers woken ∧
      FailedUp error (m.vm.withSettled call x (.failed error)) s gathers woken
  raises : ∀ t task c error activate, m.control = .raising error → m.vm.currentTask = some (t + 1) →
    m.vm.tasks.lookup (t + 1) = some task → task.coroutineId = some c →
    ∃ gathers woken s, deliverRaised (t + 1) task error m.vm = .ok woken s ∧
      handleTaskFailure activate error m.vm = resumeAfterFailure activate (t + 1) woken s ∧
      m.vm.Upward c task.awaiter gathers woken ∧
      FailedUp error
        { m.vm with tasks := m.vm.tasks.insert (t + 1) { task with awaiter := none } }
          s gathers woken
  /-- Awaiting a gather that has settled. -/
  replays : ∀ t limits g items, m.control = .running → m.vm.currentTask = some t →
    (∀ v, m.vm.heap.get? g = some (.gatherFuture items (.completed v)) →
      perform Vm.queued (.await limits (.ref g)) m.control m.vm =
        .ok .running { m.vm with stack := v :: m.vm.stack }) ∧
    ∀ error, m.vm.heap.get? g = some (.gatherFuture items (.failed error)) →
      perform Vm.queued (.await limits (.ref g)) m.control m.vm = .ok (.raising error) m.vm

section Run

variable {m m' : Machine} {op : Op}

theorem Machine.Traced.inv (h : m.Traced returned) : m.Inv returned False := by
  induction h with
  | new checked => exact .new _ checked
  | step _ hroomy hstep ih => exact ih.step hroomy False.elim hstep

theorem Machine.Traced.reached (h : m.Traced returned) : m.Reached fun s _ => s.Roomy := by
  induction h with
  | new checked => exact .new checked
  | step _ hroomy hstep ih => exact .step ih hroomy hstep

theorem Machine.Reached.traced (h : m.Reached fun s _ => s.Roomy) :
    ∃ returned, m.Traced returned := by
  induction h with
  | new checked => exact ⟨_, .new checked⟩
  | step _ hroomy hstep ih =>
    obtain ⟨returned, ih⟩ := ih
    exact ⟨_, ih.step hroomy hstep⟩

theorem Machine.Inv.completed (h : m.Inv returned False) (hroomy : m.vm.Roomy)
    (hstep : m.Step op m')
    {v : Value} (hg : m'.vm.heap.get? g = some (.gatherFuture items (.completed v))) :
    m.vm.heap.get? g = some (.gatherFuture items (.completed v)) ∨
      Complete (m.returns returned op) m'.vm items v := by
  obtain ⟨garbage, -, rfl, -⟩ | hgoes := h.step_cases hroomy False.elim hstep
  · rw [get?_foldl_free] at hg
    split_ifs at hg
    exact .inl hg
  · exact hgoes.later.completed g items v hg

/-- Awaiting a gather whose outcome is known does not commit it. -/
theorem execGetAwaitable_gather {s : Vm} {state : GatherState} (limits : Limits)
    (hcur : s.currentTask = some t) (hg : s.heap.get? g = some (.gatherFuture items state))
    (hawait : awaitGatherFuture limits g (.task t) s = .ok out s) :
    execGetAwaitable Vm.queued limits (.ref g) s = finishAwait Vm.queued g out s := by
  rw [execGetAwaitable, get_bind_apply, hcur]
  exact (bind_of_ok (read_eq hg)).trans (bind_of_ok hawait)

theorem Machine.Inv.outcomes (h : m.Inv returned False) (hroomy : m.vm.Roomy)
    (hlive : ∀ r, m.control ≠ .finished r) : m.Outcomes returned := by
  obtain ⟨run, hc, -⟩ := h.consistent hlive
  obtain ⟨s, control⟩ := m
  have hrunning : ∀ {t}, Running returned False s → s.currentTask = some t →
      Consistent returned False s (some t) [] none := fun hr ht => ht ▸ hr.consistent
  constructor
  case awaited =>
    intro g items a hg
    obtain ⟨hslots, -⟩ := hc.shaped.awaited g items a hg
    refine ⟨hc.exists_value_none hg, fun x hx => ?_, hslots.filled⟩
    refine hslots.failure_eq_none (fun y hy => ⟨_, (hc.waiter_child hg hy).1⟩) x ?_
    rwa [take_length]
  case blocked => exact fun _ _ _ ht hb => hc.value_of_blocked ht hb
  case commit =>
    rintro t limits g items ⟨⟩ hcur hg
    exact awaitGatherFuture_result limits (hrunning h hcur) hroomy hg
  case resolved => exact fun _ _ _ _ v hx => resolveFuture_succeededUp hc v hx
  case returns =>
    rintro t task c v room ⟨⟩ hcur hzero ht hx
    exact deliverReturned_spec (hrunning h hcur) room v hcur ht hzero hx
  case failed => exact fun _ _ _ _ error hx => failFuture_failedUp hc error hx
  case raises =>
    rintro t task c error activate ⟨⟩ hcur ht hx
    exact deliverRaised_spec (hrunning h hcur) activate error hcur ht hx
  case replays =>
    rintro t limits g items ⟨⟩ hcur
    refine ⟨fun v hg => ?_, fun error hg => ?_⟩
    · have hawait : awaitGatherFuture limits g (.task t) s = .ok (.ok (.ready v)) s :=
        (bind_of_ok (readGather_eq hg)).trans rfl
      exact bind_of_ok (execGetAwaitable_gather limits hcur hg hawait)
    · have hawait : awaitGatherFuture limits g (.task t) s = .ok (.error error) s :=
        (bind_of_ok (readGather_eq hg)).trans rfl
      exact bind_of_ok (execGetAwaitable_gather limits hcur hg hawait)

end Run

/-- The operation completes an awaited gather. -/
def Machine.completes (m : Machine) (op : Op) (g : HeapId) (items : List HeapId) : Bool :=
  match m.control, m.vm.heap.get? g, perform Vm.queued op m.control m.vm with
  | .yielded _, some (.gatherFuture _ (.awaited _)), .ok _ s =>
    match s.heap.get? g with
    | some (.gatherFuture items' (.completed _)) => items' == items
    | _ => false
  | _, _, _ => false

end Monty.Async
