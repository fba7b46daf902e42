import Monty.Async.Activation

/-!
# Committing a gather

The frames of a commit are gathers that are half committed: they are still `pending` on the heap,
and their children know of them already. Each step of the walk keeps the state consistent: an item
is taken into the top frame, a gather that is nested gets a frame, or the top frame is done and its
gather completes, is awaited from then on, or fails. No gather is opened twice, since items come
before the gathers that they are in.
-/

namespace Monty.Async

open Fallible List Option Function Keyed Nat

/-! ## The results so far -/

variable {slots : List Nat}

variable {items : List HeapId} {x : HeapId}

section Slots

variable {value : HeapId → Option Value} {results : List (Option Value)} {pending : PendingChildren}
  {n : Nat}

theorem Slots.start (value : HeapId → Option Value) (items : List HeapId) :
    Slots value items (List.replicate items.length none) ∅ 0 := by
  constructor
  case length => exact length_replicate
  case le => exact zero_le _
  case ne_nil => exact fun x slots h => nomatch (AList.lookup_empty x).symm.trans h
  case slot => exact fun x slots h => nomatch (AList.lookup_empty x).symm.trans h
  case missing => simp [List.getElem?_replicate]
  case filled =>
    intro i v h
    rw [List.getElem?_replicate] at h
    split_ifs at h
    cases h

theorem Slots.ready (h : Slots value items results pending n) (hx : items[n]? = some x) {v : Value}
    (hv : value x = some v) : Slots value items (results.set n (some v)) pending (n + 1) := by
  have hn : n < items.length := (List.getElem?_eq_some_iff.mp hx).1
  constructor
  case length => rw [length_set, h.length]
  case le => exact hn
  case ne_nil => exact h.ne_nil
  case slot =>
    intro y slots hy i hi
    obtain ⟨hlt, hitem⟩ := h.slot y slots hy i hi
    exact ⟨lt_succ_of_lt hlt, hitem⟩
  case missing =>
    intro i
    rw [List.getElem?_set]
    split_ifs with hni hlt
    · subst hni
      refine ⟨by simp, ?_⟩
      rintro ⟨-, hle | ⟨y, slots, hy, hi⟩⟩
      · omega
      · exact absurd (h.slot y slots hy n hi).1 (lt_irrefl n)
    · rw [h.length] at hlt
      omega
    · rw [h.missing]
      refine and_congr_right fun _ => or_congr_left ?_
      omega
  case filled =>
    intro i u hi
    rw [List.getElem?_set] at hi
    split_ifs at hi with hni hlt
    · obtain rfl := some.inj (some.inj hi)
      exact ⟨x, hni ▸ hx, hv⟩
    · exact h.filled i u hi

/-- The next item is in flight: one more slot is its own. -/
theorem Slots.pend (h : Slots value items results pending n) (hx : items[n]? = some x)
    (hslots : ∀ i ∈ slots, ∃ old, pending.lookup x = some old ∧ i ∈ old)
    (hall : ∀ old, pending.lookup x = some old → ∀ i ∈ old, i ∈ slots) :
    Slots value items results (pending.insert x (slots ++ [n])) (n + 1) := by
  have hn : n < items.length := (List.getElem?_eq_some_iff.mp hx).1
  constructor
  case length => exact h.length
  case le => exact hn
  case ne_nil =>
    intro y slots' hy
    rw [lookup_insert_eq] at hy
    split_ifs at hy
    · obtain rfl := some.inj hy
      simp
    · exact h.ne_nil y slots' hy
  case slot =>
    intro y slots' hy i hi
    rw [lookup_insert_eq] at hy
    split_ifs at hy with hyx
    · obtain rfl := some.inj hy
      rcases mem_append.mp hi with hi | hi
      · obtain ⟨old, hold, hi⟩ := hslots i hi
        obtain ⟨hlt, hitem⟩ := h.slot x old hold i hi
        exact ⟨lt_succ_of_lt hlt, hyx ▸ hitem⟩
      · rw [mem_singleton.mp hi]
        exact ⟨lt_succ_self n, hyx ▸ hx⟩
    · obtain ⟨hlt, hitem⟩ := h.slot y slots' hy i hi
      exact ⟨lt_succ_of_lt hlt, hitem⟩
  case missing =>
    intro i
    rw [h.missing]
    refine and_congr_right fun _ => ⟨?_, ?_⟩
    · rintro (hle | ⟨y, slots', hy, hi⟩)
      · rcases eq_or_lt_of_le hle with rfl | hlt
        · exact .inr ⟨x, slots ++ [n], by rw [lookup_insert_eq, if_pos rfl], by simp⟩
        · exact .inl hlt
      · by_cases hyx : y = x
        · refine .inr ⟨x, slots ++ [n], by rw [lookup_insert_eq, if_pos rfl], ?_⟩
          exact mem_append_left _ (hall slots' (hyx ▸ hy) i hi)
        · exact .inr ⟨y, slots', by rw [lookup_insert_eq, if_neg hyx]; exact hy, hi⟩
    rintro (hle | ⟨y, slots', hy, hi⟩)
    · exact .inl (le_of_succ_le hle)
    rw [lookup_insert_eq] at hy
    split_ifs at hy with hyx
    · obtain rfl := some.inj hy
      rcases mem_append.mp hi with hi | hi
      · obtain ⟨old, hold, hi⟩ := hslots i hi
        exact .inr ⟨x, old, hold, hi⟩
      · rw [mem_singleton.mp hi]
        exact .inl le_rfl
    · exact .inr ⟨y, slots', hy, hi⟩
  case filled => exact h.filled

end Slots

/-! ## Frames -/

variable {returned : HeapId → Option Value} {prompt : Prop} {s s' : Vm} {run : Option TaskId}
  {f f' parent : GatherCommit} {below stack : List GatherCommit} {t : TaskId}

theorem knows_frame (w : Awaiter) (y : HeapId) : s.knows (f :: below) w y ↔
    s.knows below w y ∨ w = .gatherSlot f.gather y ∧ y ∈ f.pendingChildren := by
  cases w with
  | task t => simp [Vm.knows]
  | gatherSlot g z =>
    simp only [Vm.knows, mem_cons, exists_eq_or_imp, Awaiter.gatherSlot.injEq]
    grind

theorem knows_insert (hgather : f'.gather = f.gather)
    (hpending : f'.pendingChildren = f.pendingChildren.insert x slots) (w : Awaiter) (y : HeapId) :
    s.knows (f' :: below) w y ↔ s.knows (f :: below) w y ∨ w = .gatherSlot f.gather x ∧ y = x := by
  rw [knows_frame, knows_frame, hgather, hpending, AList.mem_insert]
  grind

section

variable (h : Consistent returned prompt s run (f :: below) none)

include h

theorem Consistent.committing_top
    (hcommitting : Committing returned s f') : ∀ f1 ∈ f' :: below, Committing returned s f1 :=
  forall_mem_cons.mpr ⟨hcommitting, (forall_mem_cons.mp h.committing).2⟩

theorem Consistent.distinct_top
    (hgather : f'.gather = f.gather) : ((f' :: below).map GatherCommit.gather).Nodup := by
  have hnodup := h.distinct
  rw [map_cons] at hnodup ⊢
  rw [hgather]
  exact hnodup

/-- The frame on top takes an item that needs no link. -/
theorem Consistent.setFrame (hgather : f'.gather = f.gather)
    (hpending : ∀ y, y ∈ f'.pendingChildren ↔ y ∈ f.pendingChildren)
    (hcommitting : Committing returned s f') :
    Consistent returned prompt s run (f' :: below) none := by
  have hlinks : s.links (f' :: below) = s.links (f :: below) := by
    have hknows : ∀ w y, s.knows (f' :: below) w y ↔ s.knows (f :: below) w y := by
      intro w y
      rw [knows_frame, knows_frame, hgather, hpending]
    rw [Vm.links, Vm.links, funext fun w => funext fun y => propext (hknows w y)]
  obtain ⟨rank, owner, ho, hstack⟩ := h.ordered
  obtain ⟨htop, hbelow⟩ := forall_mem_cons.mp hstack
  exact ⟨h.scheduled, h.registered, h.shaped, hlinks ▸ h.linked,
    ⟨rank, owner, ho, forall_mem_cons.mpr ⟨hgather ▸ htop, hbelow⟩⟩, h.committing_top hcommitting,
    h.distinct_top hgather, h.unstarted⟩

end

variable {owner : HeapId → TaskId}

/-- Something that nobody works for is given to a task. -/
theorem Ordered.reown {rank : HeapId → Nat} (h : Ordered s rank owner)
    (hx : s.waiter x = none) (hslot : ∀ y z, s.waiter y = some (.gatherSlot x z) →
      s.done (.gatherSlot x z))
    (hawaiter : ∀ t task w, s.tasks.lookup t = some task → task.awaiter = some w →
      ∃ y, s.waiter y = some w) (t : TaskId) :
    Ordered s rank (update owner x t) := by
  have hlead : ∀ {y w}, s.waiter y = some w → ¬ s.done w →
      w.lead (update owner x t) = w.lead owner := by
    intro y w hy hnot
    cases w with
    | task t => rfl
    | gatherSlot g z =>
      refine update_of_ne ?_ _ _
      rintro rfl
      exact hnot (hslot y z hy)
  refine ⟨h.item_lt, fun y w hy hnot => ?_, fun t' task w ht hw hnot => ?_⟩
  · rw [hlead hy hnot, update_of_ne]
    · exact h.owner_eq y w hy hnot
    · rintro rfl
      exact nomatch hx.symm.trans hy
  · obtain ⟨y, hy⟩ := hawaiter t' task w ht hw
    rw [hlead hy hnot]
    exact h.lt_task t' task w ht hw hnot

variable {task : Task} {w : Awaiter} {loose : Option (Awaiter × HeapId)}

/-- Who waits for a task waits for its coroutine. -/
theorem Consistent.waiter_of_awaiter (h : Consistent returned prompt s run stack loose)
    (ht : s.tasks.lookup t = some task) (hw : task.awaiter = some w) :
    ∃ y, s.waiter y = some w := by
  obtain ⟨g, c, -, hc⟩ := h.scheduled.awaiter_slot t task w ht hw
  obtain ⟨state, hcor, -⟩ := h.shaped.coroutine t task c ht hc
  refine ⟨c, ?_⟩
  rw [waiter_coroutine hcor, h.scheduled.driver_eq ht hc]
  exact hw

variable {o : Obj}

/-- Nothing waits in the slots of what is not a gather. -/
theorem Consistent.no_slot (h : Consistent returned prompt s run stack loose)
    (hx : s.heap.get? x = some o) (ho : ∀ items state, o ≠ .gatherFuture items state) (y z : HeapId)
    (hy : s.waiter y = some (.gatherSlot x z)) : s.done (.gatherSlot x z) := by
  obtain ⟨-, items, state, hg, -⟩ := h.shaped.slot y x z hy
  exact absurd (mem_unique hx hg) (ho items state)

theorem owned_update {stack stack' : List GatherCommit}
    (hstack : ∀ f ∈ stack, ∃ t', some t = some t' ∧ owner f.gather = t')
    (hmap : ∀ f ∈ stack', f.gather = x ∨ ∃ f2 ∈ stack, f2.gather = f.gather) (f : GatherCommit)
    (hf : f ∈ stack') : update owner x t f.gather = t := by
  rw [update_apply]
  split_ifs with hfx
  · rfl
  rcases hmap f hf with heq | ⟨f2, hf2, hg⟩
  · exact absurd heq hfx
  · obtain ⟨t', ht', howner⟩ := hstack f2 hf2
    cases ht'
    rw [← hg]
    exact howner

theorem same_gathers (hgather : f'.gather = f.gather) (f1 : GatherCommit) (hf1 : f1 ∈ f' :: below) :
    f1.gather = x ∨ ∃ f2 ∈ f :: below, f2.gather = f1.gather := by
  rcases mem_cons.mp hf1 with rfl | hf1
  · exact .inr ⟨f, mem_cons_self, hgather.symm⟩
  · exact .inr ⟨f1, mem_cons_of_mem _ hf1, rfl⟩

/-- An awaitable from before and after it gets its awaiter. -/
inductive Attaches (w : Awaiter) : Obj → Obj → Prop
  | external (call : CallId) (r : Option Value) :
    Attaches w (.externalFuture call (.pending none) r) (.externalFuture call (.pending (some w)) r)
  | gather (items : List HeapId) (a : AwaitedGather) (ha : a.awaiter = w) :
    Attaches w (.gatherFuture items .pending) (.gatherFuture items (.awaited a))

theorem Attaches.waiter_eq_none {o' : Obj} (h : Attaches w o o')
    (hx : s.heap.get? x = some o) : s.waiter x = none := by
  rw [Vm.waiter, hx]
  cases h <;> rfl

/-- Something is awaited from now on, and its awaiter knows. -/
theorem Consistent.attach {o' : Obj} {run' : Option TaskId}
    {stack' : List GatherCommit} (h : Consistent returned prompt s run stack none)
    (hattach : Attaches w o o') (hx : s.heap.get? x = some o) (hget : s.Put s' x o')
    (hsame : SameTasks s s') (hcurrent : s'.currentTask = s.currentTask)
    (hpending : s'.pendingExternals = s.pendingExternals) (hnext : s'.nextCallId = s.nextCallId)
    (hscheduled : Scheduled s' run') (hslot : ∀ g z, w = .gatherSlot g z → s.SlotIn x g z)
    (hawaited : ∀ items a, o' = .gatherFuture items (.awaited a) → Awaits returned s items a)
    (hknows : ∀ v y, s'.knows stack' v y ↔ s.knows stack v y ∨ v = w ∧ y = x)
    (hordered : ∃ rank owner, Ordered s rank owner ∧ owner x = w.lead owner ∧
      ∀ f ∈ stack', ∃ t, run' = some t ∧ owner f.gather = t)
    (hcommitting : Later returned s s' → ∀ f ∈ stack', Committing returned s' f)
    (hdistinct : (stack'.map GatherCommit.gather).Nodup) :
    Consistent returned prompt s' run' stack' none ∧ Later returned s s' := by
  have hobj : s.objWaiter x o' = some w := by
    cases hattach with
    | external call r => rfl
    | gather items a ha => exact congrArg some ha
  have hwaiter : ∀ y, s'.waiter y = if y = x then some w else s.waiter y := by
    intro y
    rw [waiter_put hget hsame, hobj]
  have hdone : ∀ v, s'.done v ↔ s.done v := by
    refine done_put_iff hget ?_
    rw [hx]
    cases hattach <;> simp [Obj.isSettled]
  have hkind : o.SameKind o' := by cases hattach <;> rfl
  have hregistered : Registered s' := by
    refine h.registered.put hx hget (fun call => ?_) hpending hnext.ge
    cases hattach <;> simp
  obtain ⟨rank, owner, ho, howner, hstack⟩ := hordered
  refine h.put hx hget ?_ hkind ?_ ?_ ?_ hsame hcurrent hscheduled hregistered
    (fun g z heq => hslot g z (mem_unique hobj heq)) hawaited
    (h.linked.link (hattach.waiter_eq_none hx) hwaiter hknows hdone)
    ⟨rank, owner, ho.put hx hget hkind hsame (fun v => (hdone v).mpr) ?_, hstack⟩
      hcommitting hdistinct
  · cases hattach <;> exact id
  · rintro rfl
    cases hattach
  · rintro rfl
    cases hattach
  · rintro items v rfl
    cases hattach
  · rintro v hv -
    obtain rfl := mem_unique hobj hv
    exact howner

variable {r : Option Value} {call : CallId}

/-- The frame on top gets its awaiter into an external future. -/
theorem Consistent.attachExternal (h : Consistent returned prompt s (some t) (f :: below) none)
    (hx : s.heap.get? x = some (.externalFuture call (.pending none) r))
    (hitem : ∃ items state, s.heap.get? f.gather = some (.gatherFuture items state) ∧ x ∈ items)
    (hcommitting : Committing returned s f') (hgather : f'.gather = f.gather)
    (hpending : f'.pendingChildren = f.pendingChildren.insert x slots) :
    let s' := s.put x (.externalFuture call (.pending (some (.gatherSlot f.gather x))) r)
    Consistent returned prompt s' (some t) (f' :: below) none ∧ Later returned s s' := by
  intro s'
  have hget : s.Put s' x _ := Vm.put_put hx _
  have hsame : SameScheduler s s' := .of_eq rfl
  have hattach : Attaches (.gatherSlot f.gather x) _ _ := .external call r
  refine h.attach hattach hx hget hsame.sameTasks rfl rfl rfl (h.scheduled.congr hsame) ?_ (by simp)
    ?_ ?_ ?_ (h.distinct_top hgather)
  · rintro g z ⟨⟩
    exact ⟨rfl, hitem⟩
  · intro w y
    rw [knows_insert hgather hpending]
    refine or_congr_left (knows_put_iff hget (knows_task_congr hsame _) ?_ w y)
    simp [hx, Obj.knows]
  · obtain ⟨rank, owner, ho, hstack⟩ := h.ordered
    refine ⟨rank, update owner x t, ?_, ?_, fun f1 hf1 =>
      ⟨t, rfl, owned_update hstack (same_gathers hgather) f1 hf1⟩⟩
    · exact ho.reown (hattach.waiter_eq_none hx) (h.no_slot hx (by simp))
        (fun t' task w => h.waiter_of_awaiter) t
    · rw [update_self]
      exact (owned_update hstack (fun f1 hf1 => .inr ⟨f1, hf1, rfl⟩) f mem_cons_self).symm
  intro hl f1 hf1
  have hc := h.committing_top hcommitting f1 hf1
  obtain ⟨items, hitems, -⟩ := hc.frame
  refine hc.later hl ?_
  rw [hget, if_neg]
  rintro heq
  rw [heq, hx] at hitems
  cases hitems

section Spawn

/-- A task for a coroutine, which reports to a gather, is queued. -/
def Vm.withChild (s : Vm) (g x : HeapId) : Vm := { s with
    nextTaskId := s.nextTaskId + 1
    tasks := s.tasks.insert s.nextTaskId (Task.new (some x) (some (.gatherSlot g x)))
    coroutineToTask := s.coroutineToTask.insert x s.nextTaskId
    readyQueue := s.readyQueue ++ [s.nextTaskId] }

variable {g : HeapId} {t' : TaskId} {task' : Task}

theorem spawn_eq (hnone : s.coroutineToTask.lookup x = none) (hroom : s.nextTaskId + 1 < 2 ^ 32) :
    spawn x (some g) s = .ok (some s.nextTaskId) (s.withChild g x) := by
  rw [spawn, get_bind_apply, hnone]
  exact bind_of_ok (succId_eq hroom)

theorem Vm.Roomy.next_lt (h : s.Roomy) (hx : s.heap.get? x = some (.coroutine .new))
    (hnone : s.coroutineToTask.lookup x = none) : s.nextTaskId + 1 < 2 ^ 32 := by
  obtain ⟨coroutines, hmem, hlt⟩ := h.tasks
  have hpos := Finset.card_pos.mpr ⟨x, hmem x hx hnone⟩
  omega

/-- The task has one number, and its coroutine needs no other. -/
theorem Vm.Roomy.withChild (h : s.Roomy) (hx : s.heap.get? x = some (.coroutine .new))
    (hnone : s.coroutineToTask.lookup x = none) : (s.withChild g x).Roomy := by
  obtain ⟨coroutines, hmem, hlt⟩ := h.tasks
  refine ⟨⟨coroutines.erase x, fun y hy hfree => ?_, ?_⟩, h.calls⟩
  · have hdriven : (s.withChild g x).coroutineToTask.lookup y =
        if y = x then some s.nextTaskId else s.coroutineToTask.lookup y := lookup_insert_eq ..
    rw [hdriven] at hfree
    split_ifs at hfree with hyx
    exact Finset.mem_erase.mpr ⟨hyx, hmem y hy hfree⟩
  · have hcard := Finset.card_erase_add_one (hmem x hx hnone)
    change s.nextTaskId + 1 + (coroutines.erase x).card < 2 ^ 32
    omega

theorem lookup_withChild : (s.withChild g x).tasks.lookup t' = if t' = s.nextTaskId then
    some (Task.new (some x) (some (.gatherSlot g x))) else s.tasks.lookup t' := lookup_insert_eq ..

theorem lookup_spawn (ht' : (s.withChild g x).tasks.lookup t' = some task') :
    (t' = s.nextTaskId ∧ task' = Task.new (some x) (some (.gatherSlot g x))) ∨
      s.tasks.lookup t' = some task' := by
  rw [lookup_withChild] at ht'
  split_ifs at ht' with heq
  · exact .inl ⟨heq, (some.inj ht').symm⟩
  · exact .inr ht'

theorem Scheduled.lookup_old (h : Scheduled s run) (ht' : s.tasks.lookup t' = some task') :
    t' ≠ s.nextTaskId ∧ (s.withChild g x).tasks.lookup t' = some task' := by
  have hne : t' ≠ s.nextTaskId := by
    rintro rfl
    exact lt_irrefl _ (h.lt_next _ task' ht')
  rw [lookup_withChild, if_neg hne]
  exact ⟨hne, ht'⟩

/-- A task that has not started is queued. -/
theorem Scheduled.spawn (h : Scheduled s run) (hnone : s.coroutineToTask.lookup x = none) :
    Scheduled (s.withChild g x) run := by
  have hdriven : ∀ y, (s.withChild g x).coroutineToTask.lookup y =
      if y = x then some s.nextTaskId else s.coroutineToTask.lookup y :=
        fun y => lookup_insert_eq ..
  have hqueue : (s.withChild g x).readyQueue = s.readyQueue ++ [s.nextTaskId] := rfl
  have hto : ∀ {t' task}, s.tasks.lookup t' = some task →
      (s.withChild g x).tasks.lookup t' = some task := fun ht' => (h.lookup_old ht').2
  have hfresh : ∀ {t' task}, s.tasks.lookup t' = some task → t' ≠ s.nextTaskId :=
    fun ht' => (h.lookup_old (g := g) (x := x) ht').1
  constructor
  case nodup =>
    refine nodup_append.mpr ⟨h.nodup, nodup_singleton _, fun a ha b hb => ?_⟩
    obtain ⟨task, ht', -⟩ := (h.mem_queue a).mp ha
    rw [mem_singleton.mp hb]
    exact hfresh ht'
  case mem_queue =>
    intro t'
    rw [hqueue, mem_append, mem_singleton, h.mem_queue]
    constructor
    · rintro (⟨task, ht', hready, hne⟩ | rfl)
      · exact ⟨task, hto ht', hready, hne⟩
      · refine ⟨_, by rw [lookup_withChild, if_pos rfl], ⟨_, rfl⟩, fun heq => ?_⟩
        obtain ⟨task, ht', -⟩ := h.run_ready _ heq
        exact hfresh ht' rfl
    · rintro ⟨task, ht', hready, hne⟩
      rcases lookup_spawn ht' with ⟨heq, -⟩ | ht'
      · exact .inr heq
      · exact .inl ⟨task, ht', hready, hne⟩
  case run_ready =>
    intro t' ht'
    obtain ⟨task, hlook, hready⟩ := h.run_ready t' ht'
    exact ⟨task, hto hlook, hready⟩
  case lt_next =>
    intro t' task ht'
    rcases lookup_spawn ht' with ⟨rfl, -⟩ | ht'
    · exact lt_succ_self _
    · exact lt_succ_of_lt (h.lt_next t' task ht')
  case driven =>
    intro y t'
    rw [hdriven]
    constructor
    · intro hy
      split_ifs at hy with hyx
      · obtain rfl := some.inj hy
        exact ⟨_, by rw [lookup_withChild, if_pos rfl], by rw [hyx]; rfl⟩
      · obtain ⟨task, ht', hc⟩ := (h.driven y t').mp hy
        exact ⟨task, hto ht', hc⟩
    rintro ⟨task, ht', hc⟩
    rcases lookup_spawn ht' with ⟨rfl, rfl⟩ | ht'
    · rw [if_pos (some.inj hc).symm]
    have hy := (h.driven y t').mpr ⟨task, ht', hc⟩
    rw [if_neg]
    · exact hy
    · rintro rfl
      exact nomatch hnone.symm.trans hy
  case main =>
    obtain ⟨task, ht', hm⟩ := h.main
    exact ⟨task, hto ht', hm⟩
  case spawned =>
    intro t' task ht' hne
    rcases lookup_spawn ht' with ⟨-, rfl⟩ | ht'
    · exact ⟨x, rfl⟩
    · exact h.spawned t' task ht' hne
  case context =>
    intro t' task ht' hor hne
    rcases lookup_spawn ht' with ⟨rfl, rfl⟩ | ht'
    · obtain ⟨task, hmain, -⟩ := h.main
      rcases hor with hzero | hnot
      · exact absurd hzero.symm (hfresh hmain)
      · exact absurd ⟨_, rfl⟩ hnot
    · exact h.context t' task ht' hor hne
  case awaiter_slot =>
    intro t' task v ht' hv
    rcases lookup_spawn ht' with ⟨-, rfl⟩ | ht'
    · exact ⟨g, x, (some.inj hv).symm, rfl⟩
    · exact h.awaiter_slot t' task v ht' hv
  case current =>
    intro t' ht'
    obtain ⟨task, hlook⟩ := h.current t' ht'
    exact ⟨task, hto hlook⟩

end Spawn

/-- A task is spawned for a coroutine, and reports to the frame on top. -/
theorem Consistent.spawnChild (h : Consistent returned prompt s (some t) (f :: below) none)
    (hx : s.heap.get? x = some (.coroutine .new)) (hnone : s.coroutineToTask.lookup x = none)
    (hitem : ∃ items state, s.heap.get? f.gather = some (.gatherFuture items state) ∧ x ∈ items)
    (hgather : f'.gather = f.gather)
    (hpending : f'.pendingChildren = f.pendingChildren.insert x slots)
    (hcommitting : Committing returned s f') :
    Consistent returned prompt (s.withChild f.gather x) (some t) (f' :: below) none := by
  have hsch := h.scheduled
  set s' := s.withChild f.gather x
  have hheap : s'.heap = s.heap := rfl
  have hold : s.waiter x = none := by
    rw [waiter_coroutine hx, Vm.driver, hnone]
    rfl
  have hwaiter : ∀ y, s'.waiter y =
      if y = x then some (.gatherSlot f.gather x) else s.waiter y := by
    intro y
    have hdriven : s'.coroutineToTask.lookup y =
        if y = x then some s.nextTaskId else s.coroutineToTask.lookup y := lookup_insert_eq ..
    split_ifs at hdriven ⊢ with hy
    · subst hy
      rw [waiter_coroutine (hheap ▸ hx), Vm.driver, hdriven, bind_some,
        lookup_withChild, if_pos rfl]
      rfl
    refine waiter_of_driver hheap ?_
    rw [Vm.driver, Vm.driver, hdriven]
    cases hy' : s.coroutineToTask.lookup y with
    | none => rfl
    | some t' =>
      obtain ⟨task, ht', -⟩ := (hsch.driven y t').mp hy'
      rw [bind_some, bind_some, (hsch.lookup_old ht').2, ht']
  have htask : ∀ t' y, s'.knows (f :: below) (.task t') y ↔ s.knows (f :: below) (.task t') y := by
    intro t' y
    constructor
    · rintro ⟨task, ht', hb⟩
      rcases lookup_spawn ht' with ⟨-, rfl⟩ | ht'
      · cases hb
      · exact ⟨task, ht', hb⟩
    · rintro ⟨task, ht', hb⟩
      exact ⟨task, (hsch.lookup_old ht').2, hb⟩
  have hknows : ∀ w y, s'.knows (f' :: below) w y ↔
      s.knows (f :: below) w y ∨ w = .gatherSlot f.gather x ∧ y = x := by
    intro w y
    rw [knows_insert hgather hpending]
    exact or_congr_left (knows_congr hheap htask w y)
  have hdone := done_congr hheap
  refine h.reschedule hheap rfl le_rfl ?_ ?_ (hsch.spawn hnone)
    (h.linked.link hold hwaiter hknows hdone) ?_ (h.committing_top hcommitting)
      (h.distinct_top hgather)
    ?_
  · intro t' task c ht' hc
    rcases lookup_spawn ht' with ⟨-, rfl⟩ | ht'
    · obtain rfl := some.inj hc
      exact ⟨.new, hx, by simp⟩
    · exact h.shaped.coroutine t' task c ht' hc
  · intro y g z hy
    rw [hwaiter] at hy
    split_ifs at hy with hyx
    · cases hy
      exact ⟨hyx.symm, hyx ▸ hitem⟩
    · exact h.shaped.slot y g z hy
  · obtain ⟨rank, owner, ho, hstack⟩ := h.ordered
    have howned := owned_update (x := x) hstack (same_gathers hgather)
    have ho' := ho.reown hold (h.no_slot hx (by simp)) (fun t' task w => h.waiter_of_awaiter) t
    have htop : update owner x t f.gather = t := by
      rw [← hgather]
      exact howned f' mem_cons_self
    refine ⟨rank, update owner x t, ⟨hheap ▸ ho.item_lt, fun y w hy hnot => ?_,
      fun t' task w ht' hw hnot => ?_⟩, fun f1 hf1 => ⟨t, rfl, howned f1 hf1⟩⟩
    · rw [hwaiter] at hy
      split_ifs at hy with hyx
      · cases hy
        rw [hyx, update_self]
        exact htop.symm
      · exact ho'.owner_eq y w hy fun hd => hnot ((hdone w).mpr hd)
    rcases lookup_spawn ht' with ⟨rfl, rfl⟩ | ht'
    · cases hw
      change update owner x t f.gather < _
      rw [htop]
      obtain ⟨task, ht, -⟩ := hsch.run_ready t rfl
      exact hsch.lt_next t task ht
    · exact ho'.lt_task t' task w ht' hw fun hd => hnot ((hdone w).mpr hd)
  · intro hp t' task c ht' hframes hne hc
    rcases lookup_spawn ht' with ⟨-, rfl⟩ | ht'
    · obtain rfl := some.inj hc
      exact hx
    · exact h.unstarted hp t' task c ht' hframes hne hc

variable {items : List HeapId}

theorem Consistent.openFrame (h : Consistent returned prompt s (some t) stack none)
    (hx : s.heap.get? f.gather = some (.gatherFuture items .pending))
    (hnew : ∀ f1 ∈ stack, f1.gather ≠ f.gather) (hchildren : f.pendingChildren = ∅)
    (hslots : Slots (s.value returned) items f.results f.pendingChildren f.next) :
    Consistent returned prompt s (some t) (f :: stack) none := by
  have hknows : ∀ w y, s.knows (f :: stack) w y ↔ s.knows stack w y := by
    intro w y
    rw [knows_frame, hchildren]
    simp
  have hlinks : s.links (f :: stack) = s.links stack := by
    rw [Vm.links, Vm.links, funext fun w => funext fun y => propext (hknows w y)]
  have hold : s.waiter f.gather = none := by
    rw [Vm.waiter, hx]
    rfl
  -- a gather that is neither awaited nor settled nor on the stack has no children
  have hslot : ∀ y z, s.waiter y = some (.gatherSlot f.gather z) →
      s.done (.gatherSlot f.gather z) := by
    intro y z hy
    rcases h.linked.knows_of_waiter hy with hd | ⟨-, ⟨f1, hf1, hg, -⟩ | ⟨o, ho, hk⟩⟩
    · exact hd
    · exact absurd hg (hnew f1 hf1)
    · obtain rfl := mem_unique hx ho
      exact hk.elim
  obtain ⟨rank, owner, ho, hstack⟩ := h.ordered
  have howned : ∀ f1 ∈ f :: stack, update owner f.gather t f1.gather = t :=
    owned_update hstack (forall_mem_cons.mpr ⟨.inl rfl, fun f1 hf1 => .inr ⟨f1, hf1, rfl⟩⟩)
  refine ⟨h.scheduled, h.registered, h.shaped, hlinks ▸ h.linked,
    ⟨rank, update owner f.gather t, ?_, fun f1 hf1 => ⟨t, rfl, howned f1 hf1⟩⟩, ?_, ?_,
    h.unstarted⟩
  · exact ho.reown hold hslot (fun t' task w => h.waiter_of_awaiter) t
  · exact forall_mem_cons.mpr ⟨⟨items, hx, hslots⟩, h.committing⟩
  · rw [map_cons, nodup_cons]
    refine ⟨fun hmem => ?_, h.distinct⟩
    obtain ⟨f1, hf1, hg⟩ := mem_map.mp hmem
    exact hnew f1 hf1 hg

variable {a : AwaitedGather}

section Top

variable {state : GatherState} (hx : s.heap.get? f.gather = some (.gatherFuture items .pending))
  (h : Consistent returned prompt s run (f :: below) none)

include h in
/-- The frames below stay as they are when the one on top is done. -/
theorem Consistent.committing_below (hget : s.Put s' f.gather (.gatherFuture items state))
    (hl : Later returned s s') (f1 : GatherCommit) (hf1 : f1 ∈ below) :
      Committing returned s' f1 := by
  refine (h.committing f1 (mem_cons_of_mem _ hf1)).later hl ?_
  rw [hget, if_neg]
  intro heq
  have hnodup := h.distinct
  rw [map_cons, nodup_cons] at hnodup
  exact hnodup.1 (mem_map.mpr ⟨f1, hf1, heq⟩)

include hx h in
theorem Consistent.settleFrame (hsettled : (Obj.gatherFuture items state).isSettled)
    (hcomplete : ∀ v, state = .completed v → Complete returned s items v) :
    let s' := s.put f.gather (.gatherFuture items state)
    Consistent returned prompt s' run below none ∧ Later returned s s' := by
  intro s'
  have hget : s.Put s' f.gather (.gatherFuture items state) := Vm.put_put hx _
  have hsame : SameScheduler s s' := .of_eq rfl
  have hobj : s.objWaiter f.gather (.gatherFuture items state) = none := by
    cases state with
    | awaited a => exact hsettled.elim
    | _ => rfl
  have hold : s.waiter f.gather = none := by
    rw [Vm.waiter, hx]
    rfl
  have hwaiter : ∀ y, s'.waiter y = s.waiter y := by
    intro y
    rw [waiter_put hget hsame.sameTasks, hobj]
    split_ifs with hy
    · rw [hy, hold]
    · rfl
  have hnot : ∀ y, ¬ (Obj.gatherFuture items state).knows y := fun _ => hsettled.not_knows
  have hknows : ∀ w y, s'.knows below w y ↔ s.knows below w y :=
    knows_put_iff hget (knows_task_congr hsame below) fun y => by
      rw [hx]
      simp only [some.injEq, exists_eq_left', hnot, false_iff]
      exact id
  have hdone : ∀ w, s.done w → s'.done w := done_put_mono hget hx fun _ => hsettled
  refine h.put hx hget id rfl (by simp) (by simp) ?_
    hsame.sameTasks hsame.currentTask (h.scheduled.congr hsame)
    (h.registered.put hx hget (by simp) rfl le_rfl) (by rw [hobj]; rintro _ _ ⟨⟩) ?_ ?_ ?_
    (h.committing_below hget) (nodup_cons.mp h.distinct).2
  · rintro items' v ⟨⟩
    exact hcomplete v rfl
  · rintro items' a ⟨⟩
    exact hsettled.elim
  · refine h.linked.finish (by simp) ?_ ?_ hdone hwaiter
    · exact fun w y hk => (knows_frame w y).mpr (.inl ((hknows w y).mp hk))
    intro w y hk _
    rcases (knows_frame w y).mp hk with hk | ⟨rfl, -⟩
    · exact .inr ((hknows w y).mpr hk)
    · refine .inl ((done_slot_put hget f.gather y).mpr ?_)
      rw [if_pos rfl]
      exact hsettled
  · obtain ⟨rank, owner, ho, hstack⟩ := h.ordered
    exact ⟨rank, owner, ho.put hx hget rfl hsame.sameTasks hdone (by rw [hobj]; rintro _ ⟨⟩),
      fun f1 hf1 => hstack f1 (mem_cons_of_mem _ hf1)⟩

/-- What a gather knows once it is awaited is what its frame knew. -/
theorem knows_park {stack : List GatherCommit} {y : HeapId}
    (hx : s.heap.get? f.gather = some (.gatherFuture items .pending))
    (hget : s.Put s' f.gather (.gatherFuture items (.awaited a)))
    (htask : ∀ t y, s'.knows stack (.task t) y ↔ s.knows stack (.task t) y)
    (hchildren : a.pendingChildren = f.pendingChildren) :
    s'.knows stack w y ↔ s.knows (f :: stack) w y := by
  rw [knows_frame]
  cases w with
  | task t => simpa using htask t y
  | gatherSlot g z =>
    rw [knows_slot_put hget, Vm.knows]
    split_ifs with hg
    · subst hg
      rw [hx]
      simp only [Obj.knows, hchildren, some.injEq, exists_eq_left', Awaiter.gatherSlot.injEq,
        or_false]
      grind
    · simp [hg]

include hx in
/-- The gather on top is awaited from now on, by the one below. -/
theorem Consistent.parkFrame {f' : GatherCommit}
    (h : Consistent returned prompt s (some t) (f :: parent :: below) none)
    (hslots : Slots (s.value returned) items f.results f.pendingChildren items.length)
    (hchildren : f.pendingChildren.keys ≠ [])
    (hitem : ∃ items state, s.heap.get? parent.gather = some (.gatherFuture items state) ∧
      f.gather ∈ items)
    (ha : f.awaiter = .gatherSlot parent.gather f.gather) (hcommitting : Committing returned s f')
    (hgather : f'.gather = parent.gather)
    (hpending : f'.pendingChildren = parent.pendingChildren.insert f.gather slots) :
    let s' := s.put f.gather
      (.gatherFuture items (.awaited ⟨f.awaiter, f.pendingChildren, f.results⟩))
    Consistent returned prompt s' (some t) (f' :: below) none ∧ Later returned s s' := by
  intro s'
  have hget : s.Put s' f.gather _ := Vm.put_put hx _
  have hsame : SameScheduler s s' := .of_eq rfl
  have hne : parent.gather ≠ f.gather := by
    have hnodup := h.distinct
    rw [map_cons, map_cons, nodup_cons, mem_cons] at hnodup
    exact fun heq => hnodup.1 (.inl heq.symm)
  refine h.attach (.gather items _ ha) hx hget hsame.sameTasks rfl rfl rfl (h.scheduled.congr hsame)
    ?_ ?_ ?_ ?_ ?_ ?_
  · rintro g z ⟨⟩
    exact ⟨rfl, hitem⟩
  · rintro items' a' ⟨⟩
    exact ⟨hslots, hchildren⟩
  · intro w y
    rw [knows_insert hgather hpending]
    exact or_congr_left (knows_park hx hget (knows_task_congr hsame _) rfl)
  · obtain ⟨rank, owner, ho, hstack⟩ := h.ordered
    obtain ⟨⟨t1, ht1, howner⟩, hstack⟩ := forall_mem_cons.mp hstack
    obtain ⟨⟨t2, ht2, howner'⟩, hstack⟩ := forall_mem_cons.mp hstack
    refine ⟨rank, owner, ho, ?_, forall_mem_cons.mpr ⟨⟨t2, ht2, hgather ▸ howner'⟩, hstack⟩⟩
    exact howner.trans ((mem_unique ht1 ht2).trans howner'.symm)
  · intro hl
    refine forall_mem_cons.mpr ⟨hcommitting.later hl ?_,
      fun f1 hf1 => h.committing_below hget hl f1 (mem_cons_of_mem _ hf1)⟩
    rw [hget, if_neg (hgather ▸ hne)]
  · have hnodup := (nodup_cons.mp h.distinct).2
    rw [map_cons] at hnodup ⊢
    rw [hgather]
    exact hnodup

end Top

theorem Scheduled.block (h : Scheduled s (some t)) (hcur : s.currentTask = some t)
    (ht : s.tasks.lookup t = some task) :
    Scheduled (s.putTask t { task with state := .blocked x }) none := by
  have hlookup := s.putTask_putTask t { task with state := .blocked x }
  refine h.insert ht hlookup rfl (fun _ hw => hw) rfl rfl h.current h.nodup ?_ nofun ?_
  · intro t'
    rw [h.mem_queue, hlookup]
    by_cases heq : t' = t
    · simp [heq, Task.Ready]
    · simp [heq, Ne.symm heq]
  intro t' task' ht' hor hne
  rw [hlookup] at ht'
  split_ifs at ht' with heq
  · exact absurd (heq ▸ hcur) hne
  · refine h.context t' task' ht' hor fun hcur'' => heq ?_
    exact mem_unique hcur'' hcur

variable {result : Except RunError Unit}

theorem knows_block (stack : List GatherCommit)
    (ht : s.tasks.lookup t = some task) (hstate : task.state = .ready result) (t' : TaskId)
    (y : HeapId) : (s.putTask t { task with state := .blocked x }).knows stack (.task t') y ↔
      s.knows stack (.task t') y ∨ t' = t ∧ y = x := by
  rw [Vm.knows, Vm.knows, s.putTask_putTask]
  split_ifs with heq
  · rw [heq, ht]
    simp [hstate, eq_comm]
  · simp [heq]

/-- The current task blocks on an external future. -/
theorem Consistent.blockExternal (h : Consistent returned prompt s (some t) [] none)
    (hx : s.heap.get? x = some (.externalFuture call (.pending none) r))
    (hcur : s.currentTask = some t) (ht : s.tasks.lookup t = some task)
    (hstate : task.state = .ready result) :
    let s1 := s.put x (.externalFuture call (.pending (some (.task t))) r)
    let s' := s1.putTask t { task with state := .blocked x }
    Consistent returned prompt s' none [] none ∧ Later returned s s' := by
  intro s1 s'
  have hget : s.Put s' x _ := Vm.put_put hx _
  have hsame : SameTasks s s' := .of_insert ht rfl rfl rfl rfl rfl
  have hattach : Attaches (.task t) _ _ := .external call r
  have hs1 : Scheduled s1 (some t) := h.scheduled.congr (.of_eq rfl)
  refine h.attach hattach hx hget hsame rfl rfl rfl (hs1.block hcur ht) (by simp) (by simp) ?_ ?_
    (by simp) nodup_nil
  · rintro (t' | ⟨g, z⟩) y
    · rw [Awaiter.task.injEq]
      exact knows_block [] ht hstate t' y
    rw [knows_slot_put hget, Vm.knows]
    split_ifs with hg
    · subst hg
      simp [hx, Obj.knows]
    · simp
  · obtain ⟨rank, owner, ho, -⟩ := h.ordered
    exact ⟨rank, update owner x t, ho.reown (hattach.waiter_eq_none hx)
      (h.no_slot hx (by simp)) (fun t' task w => h.waiter_of_awaiter) t,
      update_self .., by simp⟩

/-- The current task blocks on the gather that it has committed. -/
theorem Consistent.blockGather (h : Consistent returned prompt s (some t) [f] none)
    (hx : s.heap.get? f.gather = some (.gatherFuture items .pending))
    (hslots : Slots (s.value returned) items f.results f.pendingChildren items.length)
    (hchildren : f.pendingChildren.keys ≠ [])
    (hcur : s.currentTask = some t) (ht : s.tasks.lookup t = some task)
    (hstate : task.state = .ready result) :
    let s1 := s.put f.gather
      (.gatherFuture items (.awaited ⟨.task t, f.pendingChildren, f.results⟩))
    let s' := s1.putTask t { task with state := .blocked f.gather }
    Consistent returned prompt s' none [] none ∧ Later returned s s' := by
  intro s1 s'
  have hget : s.Put s' f.gather _ := Vm.put_put hx _
  have hsame : SameTasks s s' := .of_insert ht rfl rfl rfl rfl rfl
  have hs1 : Scheduled s1 (some t) := h.scheduled.congr (.of_eq rfl)
  refine h.attach (.gather items _ rfl) hx hget hsame rfl rfl rfl (hs1.block hcur ht)
    (by simp) ?_ ?_ ?_
    (by simp) nodup_nil
  · rintro items' a' ⟨⟩
    exact ⟨hslots, hchildren⟩
  · -- first the gather is awaited, and then the task blocks
    intro w y
    have hpark : s1.knows [] w y ↔ s.knows [f] w y :=
      knows_park hx (Vm.put_put hx _) (fun _ _ => .rfl) rfl
    rw [← hpark]
    cases w with
    | task t' =>
      rw [Awaiter.task.injEq]
      exact knows_block [] ht hstate t' y
    | gatherSlot g z => simp [Vm.knows, s']
  · obtain ⟨rank, owner, ho, hstack⟩ := h.ordered
    obtain ⟨t', ht', howner⟩ := hstack f mem_cons_self
    cases ht'
    exact ⟨rank, owner, ho, howner, by simp⟩

end Monty.Async
