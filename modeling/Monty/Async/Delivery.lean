import Mathlib.Data.Finset.Card
import Monty.Async.Consistent

/-!
# Delivering keeps the state consistent

Something settles: an external future that the host answers, a task that ends. Its awaiter is told,
and that may settle a gather, whose awaiter is told in turn. At every point of such a delivery one
link is loose, and it ends with none. The chain has an end because each gather on it settles.
-/

namespace Monty.Async

open Fallible List Keyed StableHeap
open Option (mem_unique some.inj)

variable {items : List HeapId} {x : HeapId} {v : Value}

/-! ## The slots of a gather -/

variable {results : List (Option Value)}

section Slots

variable {value : HeapId → Option Value} {results : List (Option Value)}
  {pending : PendingChildren} {n : Nat} {slots : List Nat}

theorem length_fillSlots (results : List (Option Value)) (slots : List Nat) (v : Value) :
    (fillSlots results slots v).length = results.length := by
  induction slots generalizing results with
  | nil => rfl
  | cons i slots ih =>
    exact (ih _).trans (length_set ..)

theorem getElem?_fillSlots (results : List (Option Value)) (slots : List Nat)
    (v : Value) (i : Nat) : (fillSlots results slots v)[i]? =
      if i ∈ slots ∧ i < results.length then some (some v) else results[i]? := by
  induction slots generalizing results with
  | nil => simp [fillSlots]
  | cons j slots ih =>
    refine (ih _).trans ?_
    grind

theorem collectResults_eq_some (h : ∀ i : Nat, results[i]? ≠ some none) :
    ∃ values, collectResults results = some values ∧ results = values.map some := by
  induction results with
  | nil => exact ⟨[], rfl, rfl⟩
  | cons r results ih =>
    obtain ⟨values, hvalues, hmap⟩ := ih fun i => h (i + 1)
    cases r with
    | none => exact absurd rfl (h 0)
    | some v => exact ⟨v :: values, by rw [collectResults, hvalues]; rfl, by rw [hmap]; rfl⟩

theorem Slots.fill (h : Slots value items results pending n) (hx : pending.lookup x = some slots)
    (hv : value x = some v) :
    Slots value items (fillSlots results slots v) (pending.erase x) n := by
  have hlookup : ∀ {y slots'}, (pending.erase x).lookup y = some slots' →
      y ≠ x ∧ pending.lookup y = some slots' := by
    intro y slots' hy
    rw [lookup_erase_eq] at hy
    split_ifs at hy with hyx
    exact ⟨hyx, hy⟩
  refine ⟨(length_fillSlots ..).trans h.length, h.le, fun y s hy => h.ne_nil y s (hlookup hy).2,
    fun y s hy => h.slot y s (hlookup hy).2, fun i => ?_, fun i u hi => ?_⟩
  · rw [getElem?_fillSlots, h.length]
    split_ifs with hi
    · refine ⟨nofun, ?_⟩
      rintro ⟨hlt, hn | ⟨y, s, hy, his⟩⟩
      · exact absurd (h.slot x slots hx i hi.1).1 (not_lt.mpr hn)
      -- the slot is one of `x`, not of another child
      obtain ⟨hyx, hy⟩ := hlookup hy
      have h1 := (h.slot x slots hx i hi.1).2
      have h2 := (h.slot y s hy i his).2
      exact absurd (mem_unique h2 h1) hyx
    rw [h.missing]
    refine and_congr_right fun hlt => or_congr_right ⟨?_, ?_⟩
    · rintro ⟨y, s, hy, his⟩
      refine ⟨y, s, ?_, his⟩
      rw [lookup_erase_eq, if_neg]
      · exact hy
      · rintro rfl
        rw [hx] at hy
        exact hi ⟨some.inj hy ▸ his, hlt⟩
    · rintro ⟨y, s, hy, his⟩
      exact ⟨y, s, (hlookup hy).2, his⟩
  · rw [getElem?_fillSlots] at hi
    split_ifs at hi with hmem
    · obtain rfl := some.inj (some.inj hi)
      exact ⟨x, (h.slot x slots hx i hmem.1).2, hv⟩
    · exact h.filled i u hi

theorem Slots.collect (h : Slots value items results pending items.length)
    (hnone : pending.keys = []) :
    ∃ values, collectResults results = some values ∧
      List.Forall₂ (fun x v => value x = some v) items values := by
  have hmissing : ∀ i : Nat, results[i]? ≠ some none := by
    intro i hi
    obtain ⟨hlt, hn | ⟨x, slots, hx, -⟩⟩ := (h.missing i).mp hi
    · exact absurd hlt (not_lt.mpr hn)
    · rw [(keys_eq_nil_iff pending).mp hnone] at hx
      cases hx
  obtain ⟨values, hvalues, hmap⟩ := collectResults_eq_some hmissing
  refine ⟨values, hvalues, forall₂_iff_get.mpr ⟨?_, fun i h1 h2 => ?_⟩⟩
  · rw [← h.length, hmap, length_map]
  · obtain ⟨x, hx, hv⟩ := h.filled i values[i] (by rw [hmap, List.getElem?_map]; simp [h2])
    rw [List.getElem?_eq_getElem h1] at hx
    obtain rfl := some.inj hx
    exact hv

end Slots

/-! ## Settling -/

variable {o : Obj} {t : TaskId} {task : Task} {result : Except RunError Unit}

variable {returned : HeapId → Option Value} {prompt : Prop} {s s' : Vm} {run : Option TaskId}
  {g : HeapId} {call : CallId} {state : ExternalFutureState} {z : HeapId}

section Settle

variable {loose : Option (Awaiter × HeapId)}

/-- The state in which the outcome of a call is delivered. -/
def Vm.withSettled (s : Vm) (call : CallId) (x : HeapId) (state : ExternalFutureState) : Vm :=
  { s with
    pendingExternals := s.pendingExternals.erase call
    heap := s.heap.set x (.externalFuture call state none) }

/-- The host has answered: the awaiter of the future is to be told. -/
theorem Consistent.settleExternal (h : Consistent returned prompt s run [] none)
    {w : Option Awaiter} {r : Option Value}
    (hx : s.heap.get? x = some (.externalFuture call (.pending w) r))
    (hstate : ∀ w, state ≠ .pending w) :
    let s' := s.withSettled call x state
    Consistent returned prompt s' run [] (w.map fun w => (w, x)) ∧ Later returned s s' := by
  intro s'
  have hs : SameScheduler s s' := ⟨fun _ => rfl, rfl, rfl, rfl, rfl⟩
  have hpending : s'.pendingExternals = s.pendingExternals.erase call := rfl
  have hget : s.Put s' x (.externalFuture call state none) := Vm.put_put hx _
  have hobj : s.objWaiter x (.externalFuture call state none) = none := by
    cases state with
    | pending w => exact absurd rfl (hstate w)
    | _ => rfl
  have hwaiter : ∀ y, s'.waiter y = if y = x then none else s.waiter y := by
    intro y
    rw [waiter_put hget hs.sameTasks, hobj]
  have hx' : s.waiter x = w := by rw [Vm.waiter, hx]; rfl
  have hknows : ∀ v y, s'.knows [] v y ↔ s.knows [] v y :=
    knows_put_iff hget (knows_task_congr hs []) fun y => by simp [hx, Obj.knows]
  have hdone : ∀ v, s.done v → s'.done v := done_put_mono hget hx .elim
  refine h.put hx hget id rfl (by simp) (by simp) (by simp) hs.sameTasks
    hs.currentTask (h.scheduled.congr hs) ?_ (by rw [hobj]; rintro _ _ ⟨⟩) (by simp) ?_ ?_
    (by simp) nodup_nil
  · refine ⟨fun call' y => ?_, fun call' y hy => ?_⟩
    · rw [hpending, lookup_erase_eq, hget]
      by_cases hcall : call' = call
      · -- the call of `x` has no other future
        rw [if_pos hcall]
        refine ⟨by simp, ?_⟩
        rintro ⟨w', r', hy⟩
        split_ifs at hy with hyx
        · cases hy
          exact absurd rfl (hstate w')
        · have h1 := (h.registered.externals call' y).mpr ⟨w', r', hy⟩
          have h2 := (h.registered.externals call x).mpr ⟨w, r, hx⟩
          exact absurd (mem_unique h1 (hcall ▸ h2)) hyx
      · rw [if_neg hcall, h.registered.externals]
        split_ifs with hyx
        · subst hyx
          rw [hx]
          refine ⟨?_, ?_⟩
          · rintro ⟨w', r', heq⟩
            cases heq
            exact absurd rfl hcall
          · rintro ⟨w', r', heq⟩
            cases heq
            exact absurd rfl hcall
        · rfl
    · rw [hpending, lookup_erase_eq] at hy
      split_ifs at hy
      exact h.registered.call_lt call' y hy
  · exact h.linked.settle hx' (by simp) (fun v y => (hknows v y).mp)
      (fun v y hk _ => .inr ((hknows v y).mpr hk)) hdone hwaiter
  · obtain ⟨rank, owner, ho, -⟩ := h.ordered
    exact ⟨rank, owner, ho.put hx hget rfl hs.sameTasks hdone (by rw [hobj]; rintro _ ⟨⟩), by simp⟩

variable (h : Consistent returned prompt s run [] (some (.gatherSlot g z, x)))

section Gather

variable {a : AwaitedGather} {state : GatherState}
  (hg : s.heap.get? g = some (.gatherFuture items (.awaited a)))

include hg in
/-- A gather that is awaited goes into another state. -/
theorem Consistent.putGather (h : Consistent returned prompt s run [] loose)
    {loose' : Option (Awaiter × HeapId)}
    (hcomplete : ∀ v, state = .completed v → Complete returned s items v)
    (hawaited : ∀ a', state = .awaited a' → a'.awaiter = a.awaiter ∧ Awaits returned s items a')
    (hlinked : ((s.put g (.gatherFuture items state)).links []).Agree loose') :
    let s' := s.put g (.gatherFuture items state)
    Consistent returned prompt s' run [] loose' ∧ Later returned s s' := by
  intro s'
  have hs : SameScheduler s s' := .of_eq rfl
  have hget : s.Put s' g (.gatherFuture items state) := Vm.put_put hg _
  have hwaiter : ∀ w, s.objWaiter g (.gatherFuture items state) = some w → s.waiter g = some w := by
    intro w hw
    cases state with
    | awaited a' =>
      rw [Vm.waiter, hg, ← hw]
      exact congrArg some (hawaited a' rfl).1.symm
    | _ => cases hw
  have hdone : ∀ w, s.done w → s'.done w := done_put_mono hget hg False.elim
  refine h.put hg hget id rfl (by simp) (by simp) ?_ hs.sameTasks
    hs.currentTask (h.scheduled.congr hs) (h.registered.put hg hget (by simp) rfl le_rfl)
    (fun g' z hw => h.shaped.slot g g' z (hwaiter _ hw)) ?_ hlinked ?_ (by simp)
    nodup_nil
  · rintro items' v ⟨⟩
    exact hcomplete v rfl
  · rintro items' a' ⟨⟩
    exact (hawaited a' rfl).2
  · obtain ⟨rank, owner, ho, -⟩ := h.ordered
    refine ⟨rank, owner, ho.put hg hget rfl hs.sameTasks hdone ?_, by simp⟩
    intro w hw hnot
    exact ho.owner_eq g w (hwaiter w hw) fun hd => hnot (hdone w hd)

include hg in
theorem Consistent.fillChild (h : Consistent returned prompt s run [] (some (.gatherSlot g x, x)))
    {slots : List Nat} (hx : a.pendingChildren.lookup x = some slots)
    (hv : s.value returned x = some v) (hmore : (a.pendingChildren.erase x).keys ≠ []) :
    let s' := s.put g (.gatherFuture items (.awaited { a with
      pendingChildren := a.pendingChildren.erase x, results := fillSlots a.results slots v }))
    Consistent returned prompt s' run [] none ∧ Later returned s s' := by
  intro s'
  have hs : SameScheduler s s' := .of_eq rfl
  have hget : s.Put s' g _ := Vm.put_put hg _
  refine h.putGather hg nofun ?_ ?_
  · rintro a' ⟨⟩
    exact ⟨rfl, ((h.shaped.awaited g items a hg).1.fill hx hv), hmore⟩
  have hknows : ∀ v y, s'.knows [] v y ↔ s.knows [] v y ∧ ¬ (v = .gatherSlot g x ∧ y = x) := by
    rintro (t | ⟨g', z⟩) y
    · rw [knows_task_congr hs]
      simp
    rw [knows_slot_put hget]
    by_cases hg' : g' = g
    · subst hg'
      rw [Vm.knows, hg]
      simp only [if_pos, Obj.knows, AList.mem_erase, Option.some.injEq, exists_eq_left',
        Awaiter.gatherSlot.injEq, true_and, not_mem_nil, false_and, exists_false, false_or]
      grind
    · rw [Vm.knows, if_neg hg']
      simp [hg']
  refine h.linked.finish ?_ (fun v y hk => ((hknows v y).mp hk).1) ?_
    (done_put_mono hget hg False.elim) fun y => ?_
  · rintro v y ⟨⟩ hk
    exact ((hknows (.gatherSlot g x) x).mp hk).2 ⟨rfl, rfl⟩
  · refine fun v y hk hne => .inr ((hknows v y).mpr ⟨hk, ?_⟩)
    rintro ⟨rfl, rfl⟩
    exact hne rfl
  · refine (waiter_put hget hs.sameTasks y).trans ?_
    split_ifs with hy
    · subst hy
      change _ = s.waiter y
      rw [Vm.waiter, hg]
      rfl
    · rfl

include hg h in
theorem Consistent.settleGather (hsettled : (Obj.gatherFuture items state).isSettled)
    (hcomplete : ∀ v, state = .completed v → Complete returned s items v) :
    let s' := s.put g (.gatherFuture items state)
    Consistent returned prompt s' run [] (some (a.awaiter, g)) ∧ Later returned s s' := by
  intro s'
  have hs : SameScheduler s s' := .of_eq rfl
  have hget : s.Put s' g (.gatherFuture items state) := Vm.put_put hg _
  have hnot : ∀ y, ¬ (Obj.gatherFuture items state).knows y := fun _ => hsettled.not_knows
  have hobj : s.objWaiter g (.gatherFuture items state) = none := by
    cases state with
    | awaited a => exact hsettled.elim
    | _ => rfl
  refine h.putGather hg hcomplete ?_ ?_
  · rintro a' rfl
    exact hsettled.elim
  have hknows : ∀ v y, s'.knows [] v y → s.knows [] v y := by
    rintro (t | ⟨g', z'⟩) y
    · exact (knows_task_congr hs [] t y).mp
    · rw [knows_slot_put hget, Vm.knows]
      split_ifs with hg'
      · simp [hnot]
      · exact id
  have hdone : ∀ z, s'.done (.gatherSlot g z) := by
    intro z
    rw [done_slot_put hget, if_pos rfl]
    exact hsettled
  have hwaits : s.waiter g = some a.awaiter := by
    rw [Vm.waiter, hg]
    rfl
  refine h.linked.settle hwaits ?_ hknows ?_ (done_put_mono hget hg False.elim) fun y =>
    (waiter_put hget hs.sameTasks y).trans (by rw [hobj]; rfl)
  · rintro v y ⟨⟩ hk
    have hk' : s'.knows [] (.gatherSlot g z) x := hk
    rw [knows_slot_put hget, if_pos rfl] at hk'
    simp [hnot] at hk'
  rintro (t | ⟨g', z'⟩) y hk hne
  · exact .inr ((knows_task_congr hs [] t y).mpr hk)
  by_cases hg' : g' = g
  · exact .inl (by rw [hg']; exact hdone z')
  · refine .inr ((knows_slot_put hget [] g' z' y).mpr ?_)
    rw [if_neg hg']
    exact hk

end Gather

include h in
theorem Consistent.dropSettled
    (hg : s.heap.get? g = some o) (ho : o.isSettled) :
    Consistent returned prompt s run [] none := by
  refine { h with
    linked := h.linked.finish ?_ (fun _ _ hk => hk) (fun _ _ hk _ => .inr hk) (fun _ hd => hd)
      fun _ => rfl }
  rintro v y ⟨⟩ ⟨-, ⟨f, hf, -⟩ | ⟨o', ho', hk⟩⟩
  · cases hf
  · obtain rfl := mem_unique hg ho'
    exact ho.not_knows hk

/-- A blocked task is put at the end of the queue. -/
def Vm.woken (s : Vm) (t : TaskId) (task : Task) : Vm := { s with
    tasks := s.tasks.insert t task
    readyQueue := s.readyQueue ++ [t] }

variable {stack : List Value}

theorem Scheduled.wake (h : Scheduled s run)
    (ht : s.tasks.lookup t = some task) (hnot : ¬ task.Ready) :
    Scheduled (s.woken t { task with state := .ready result, stack := stack }) run := by
  set s' := s.woken t { task with state := .ready result, stack := stack }
  have hlookup : s.PutTask s' t { task with state := .ready result, stack := stack } :=
    fun t' => lookup_insert_eq ..
  have hqueue : s'.readyQueue = s.readyQueue ++ [t] := rfl
  have hrun : run ≠ some t := by
    intro hrun
    obtain ⟨task0, ht0, hready⟩ := h.run_ready t hrun
    obtain rfl := mem_unique ht ht0
    exact hnot hready
  have hmem : t ∉ s.readyQueue := by
    rw [h.mem_queue]
    rintro ⟨task0, ht0, hready, -⟩
    obtain rfl := mem_unique ht ht0
    exact hnot hready
  refine h.insert ht hlookup rfl (fun _ hw => hw) rfl rfl h.current ?_ ?_ ?_ ?_
  · exact nodup_append.mpr ⟨h.nodup, nodup_singleton t, by
      intro a ha b hb
      rw [mem_singleton.mp hb]
      rintro rfl
      exact hmem ha⟩
  · intro t'
    rw [hqueue, mem_append, mem_singleton, h.mem_queue, hlookup]
    by_cases ht' : t' = t
    · subst ht'
      simp [Task.Ready, hrun]
    · simp [ht']
  · intro t' ht'
    obtain ⟨task', hlook, hready⟩ := h.run_ready t' ht'
    refine ⟨task', ?_, hready⟩
    rw [hlookup, if_neg]
    · exact hlook
    · rintro rfl
      exact hrun ht'
  intro t' task' ht' hor hcur
  rw [hlookup] at ht'
  split_ifs at ht' with heq
  · obtain rfl := some.inj ht'
    exact h.context t' task (heq ▸ ht) (.inr hnot) hcur
  · exact h.context t' task' ht' hor hcur

/-- The task that waits is woken. -/
theorem Consistent.wake (h : Consistent returned prompt s run [] (some (.task t, x)))
    (ht : s.tasks.lookup t = some task) (hblocked : task.state = .blocked x) :
    Consistent returned prompt (s.woken t { task with state := .ready result, stack := stack })
      run []
      none := by
  set s' := s.woken t { task with state := .ready result, stack := stack }
  have hnot : ¬ task.Ready := by
    rintro ⟨result, hr⟩
    rw [hblocked] at hr
    cases hr
  have hlookup : s.PutTask s' t { task with state := .ready result, stack := stack } :=
    fun t' => lookup_insert_eq ..
  have htasks : SameTasks s s' := .of_insert ht rfl rfl rfl rfl rfl
  have hheap : s'.heap = s.heap := rfl
  have hknows : ∀ v y, s'.knows [] v y ↔ s.knows [] v y ∧ v ≠ .task t := by
    rintro (t' | ⟨g', z⟩) y
    · simp only [Vm.knows, hlookup]
      by_cases ht' : t' = t
      · simp [ht']
      · simp [ht']
    · simp [Vm.knows, hheap]
  refine h.retask rfl rfl le_rfl ?_
    (fun y w hy => (waiter_congr hheap htasks y).symm.trans hy) ?_ ?_ (fun hne => absurd rfl hne) ?_
  · intro t' task' ht'
    obtain ⟨_, ht0⟩ := htasks.exists ht'
    exact ⟨_, ht0, rfl, fun _ => id⟩
  · exact h.scheduled.wake ht hnot
  · refine h.linked.finish ?_ (fun v y hk => ((hknows v y).mp hk).1) ?_
      (fun v => (done_congr hheap v).mpr) (waiter_congr hheap htasks)
    · rintro v y ⟨⟩ hk
      exact ((hknows (.task t) x).mp hk).2 rfl
    intro v y hk hne
    refine .inr ((hknows v y).mpr ⟨hk, ?_⟩)
    rintro rfl
    obtain ⟨task0, ht0, hb⟩ := hk
    obtain rfl := mem_unique ht ht0
    rw [hblocked] at hb
    cases hb
    exact hne rfl
  · intro hp t' task' c ht' hframes hcur hc
    obtain ⟨_, ht0⟩ := htasks.exists ht'
    exact h.unstarted hp t' _ c ht0 hframes hcur hc

end Settle

/-! ## The programs -/

theorem read_eq {id : HeapId} (h : s.heap.get? id = some o) : read id s = .ok o s := by
  rw [read, get_bind_apply, h]
  rfl

theorem readGather_eq {id : HeapId} {state : GatherState}
    (h : s.heap.get? id = some (.gatherFuture items state)) :
    readGather id s = .ok (items, state) s := by
  rw [readGather, bind_of_ok (read_eq h)]
  rfl

theorem getTask_eq (h : s.tasks.lookup t = some task) : getTask t s = .ok task s := by
  rw [getTask, get_bind_apply, h]
  rfl

theorem succId_eq {n : Nat} (h : n + 1 < 2 ^ 32) : succId n s = .ok (n + 1) s := by
  rw [succId, if_pos h]
  rfl

theorem setTask_eq (t : TaskId) (task : Task) : setTask t task s = .ok () (s.putTask t task) := rfl

theorem setObj_eq (id : HeapId) (o : Obj) : setObj id o s = .ok () (s.put id o) := rfl

theorem allocate_eq (o : Obj) :
    allocate o s = .ok (s.heap.allocate o).1 { s with heap := (s.heap.allocate o).2 } := rfl

theorem isBlocked_eq {x : HeapId} (h : s.tasks.lookup t = some task)
    (hblocked : task.state = .blocked x) : isBlocked t s = .ok true s := by
  cases task
  obtain rfl := hblocked
  rw [isBlocked, get_bind_apply, h]
  rfl

theorem makeReady_eq {x : HeapId}
    (h : s.tasks.lookup t = some task) (hblocked : task.state = .blocked x) :
    makeReady t result s = .ok () (s.woken t { task with state := .ready result }) := by
  rw [makeReady, bind_of_ok (getTask_eq h), hblocked]
  rfl

/-! ## Gathers that are awaited -/

def Vm.awaited (s : Vm) (g : HeapId) : Prop :=
  ∃ items a, s.heap.get? g = some (.gatherFuture items (.awaited a))

/-- There are no more than `n` gathers that are awaited. -/
def Vm.AwaitedWithin (s : Vm) (n : Nat) : Prop :=
  ∃ gathers : Finset HeapId, gathers.card ≤ n ∧ ∀ g, s.awaited g → g ∈ gathers

theorem Vm.awaitedWithin_len (s : Vm) : s.AwaitedWithin s.heap.len := by
  refine ⟨Finset.range s.heap.len, (Finset.card_range _).le, ?_⟩
  rintro g ⟨items, a, hg⟩
  exact Finset.mem_range.mpr (lt_len_of_get? hg)

/-- A gather that settles makes them fewer. -/
theorem Vm.AwaitedWithin.step {s s' : Vm} {n : Nat} {g : HeapId} (h : s.AwaitedWithin n)
    (hg : s.awaited g) (hless : ∀ g', s'.awaited g' → g' ≠ g ∧ s.awaited g') :
    ∃ m, n = m + 1 ∧ s'.AwaitedWithin m := by
  obtain ⟨gathers, hcard, hmem⟩ := h
  have hpos := Finset.card_pos.mpr ⟨g, hmem g hg⟩
  refine ⟨n - 1, by omega, gathers.erase g, ?_, fun g' hg' => ?_⟩
  · rw [Finset.card_erase_of_mem (hmem g hg)]
    omega
  · obtain ⟨hne, hg'⟩ := hless g' hg'
    exact Finset.mem_erase.mpr ⟨hne, hmem g' hg'⟩

theorem Vm.awaited_put {s s' : Vm} {g : HeapId} (hget : s.Put s' g o) (ho : o.isSettled)
    (g' : HeapId) (h : s'.awaited g') : g' ≠ g ∧ s.awaited g' := by
  obtain ⟨items, a, hg'⟩ := h
  rw [hget] at hg'
  split_ifs at hg' with heq
  · obtain rfl := some.inj hg'
    exact ho.elim
  · exact ⟨heq, items, a, hg'⟩

/-! ## The loops -/

/-- What a delivery does to the tasks: one of them is woken with the result, at most, and the others
are as they were. -/
structure Delivered (result : Except RunError Unit) (s s' : Vm) (woken : Option TaskId) : Prop where
  others : ∀ t, woken ≠ some t → s'.tasks.lookup t = s.tasks.lookup t
  wakes : ∀ t, woken = some t → ∃ task x stack, s.tasks.lookup t = some task ∧
    task.state = .blocked x ∧
    s'.tasks.lookup t = some { task with state := .ready result, stack := stack }
  readyQueue : s'.readyQueue = s.readyQueue ++ woken.toList
  currentTask : s'.currentTask = s.currentTask
  nextTaskId : s'.nextTaskId = s.nextTaskId
  nextCallId : s'.nextCallId = s.nextCallId
  coroutineToTask : s'.coroutineToTask = s.coroutineToTask
  pendingExternals : s'.pendingExternals = s.pendingExternals
  suspendedFrames : s'.suspendedFrames = s.suspendedFrames
  rootParked : s'.rootParked = s.rootParked

def Vm.operands (s : Vm) (t : TaskId) (task : Task) : List Value :=
  if s.currentTask = some t ∧ s.isParked = false then s.stack else task.stack

/-- What the delivery of a value does: gathers go on waiting or complete, and the task that is woken
has the value of what it waited for on its operand stack. -/
structure Given (returned : HeapId → Option Value) (s s' : Vm) (woken : Option TaskId) : Prop where
  gather : ∀ g items a, s.heap.get? g = some (.gatherFuture items (.awaited a)) →
    (∃ a', s'.heap.get? g = some (.gatherFuture items (.awaited a')) ∧ a'.awaiter = a.awaiter) ∨
      ∃ v, s'.heap.get? g = some (.gatherFuture items (.completed v)) ∧ Complete returned s' items v
  others : ∀ y o, s.heap.get? y = some o → (∀ items a, o ≠ .gatherFuture items (.awaited a)) →
    s'.heap.get? y = some o
  push : ∀ t task, woken = some t → s.tasks.lookup t = some task → ∃ x v task',
    task.state = .blocked x ∧ s'.value returned x = some v ∧ s'.tasks.lookup t = some task' ∧
      s'.operands t task' = v :: s.operands t task

variable {s'' : Vm} {woken : Option TaskId}

section Loops

variable {w : Awaiter}

theorem Delivered.of_heap (h : s' = { s with heap := s'.heap }) : Delivered result s s' none := by
  constructor
  case others =>
    intro t _
    rw [h]
  case wakes => exact nofun
  case readyQueue => rw [h, Option.toList_none, append_nil]
  all_goals rw [h]

theorem Delivered.heap_trans (h : s' = { s with heap := s'.heap })
    (h' : Delivered result s' s'' woken) : Delivered result s s'' woken := by
  rw [h] at h'
  exact ⟨h'.others, h'.wakes, h'.readyQueue, h'.currentTask, h'.nextTaskId, h'.nextCallId,
    h'.coroutineToTask, h'.pendingExternals, h'.suspendedFrames, h'.rootParked⟩

theorem Delivered.sameTasks (h : Delivered result s s' woken) : SameTasks s s' := by
  refine ⟨fun t => ?_, h.coroutineToTask⟩
  by_cases ht : woken = some t
  · obtain ⟨task, x, stack, hs, -, hs'⟩ := h.wakes t ht
    rw [hs, hs']
    rfl
  · rw [h.others t ht]

variable {a : AwaitedGather}

theorem Given.of_put (hg : s.heap.get? g = some (.gatherFuture items (.awaited a)))
    (hget : ∀ y o, s.heap.get? y = some o → y ≠ g → s'.heap.get? y = some o)
    (ho : s'.heap.get? g = some o)
    (hor : (∃ a', o = .gatherFuture items (.awaited a') ∧ a'.awaiter = a.awaiter) ∨
      ∃ v, o = .gatherFuture items (.completed v) ∧ Complete returned s' items v) :
    Given returned s s' none := by
  refine ⟨fun g' items' a' hg' => ?_, fun y o' hy hne => ?_, nofun⟩
  · by_cases heq : g' = g
    · subst heq
      cases mem_unique hg hg'
      refine hor.imp ?_ ?_
      · rintro ⟨a', rfl, hw⟩
        exact ⟨a', ho, hw⟩
      · rintro ⟨v, rfl, hc⟩
        exact ⟨v, ho, hc⟩
    · exact .inl ⟨a', hget g' _ hg' heq, rfl⟩
  · refine hget y o' hy ?_
    rintro rfl
    cases mem_unique hg hy
    exact hne items a rfl

theorem Given.of_heap_eq (hheap : s'.heap = s.heap)
    (hpush : ∀ t task, woken = some t → s.tasks.lookup t = some task → ∃ x v task',
      task.state = .blocked x ∧ s.value returned x = some v ∧ s'.tasks.lookup t = some task' ∧
        s'.operands t task' = v :: s.operands t task) : Given returned s s' woken := by
  refine ⟨fun g items a hg => .inl ⟨a, hheap ▸ hg, rfl⟩, fun y o hy _ => hheap ▸ hy, ?_⟩
  intro t task hw ht
  obtain ⟨x, v, task', hb, hv, ht', hops⟩ := hpush t task hw ht
  exact ⟨x, v, task', hb, (value_congr hheap x).trans hv, ht', hops⟩

theorem Given.trans (h : Given returned s s' none) (hs : s' = { s with heap := s'.heap })
    (h' : Given returned s' s'' woken) (hl : Later returned s' s'') :
      Given returned s s'' woken := by
  refine ⟨fun g items a hg => ?_, fun y o hy hne => h'.others y o (h.others y o hy hne) hne, ?_⟩
  · obtain ⟨a', hg', hw⟩ | ⟨v, hg', hc⟩ := h.gather g items a hg
    · refine (h'.gather g items a' hg').imp_left ?_
      rintro ⟨a'', hg'', hw'⟩
      exact ⟨a'', hg'', hw'.trans hw⟩
    · exact .inr ⟨v, h'.others g _ hg' nofun, hl.complete hc⟩
  intro t task hwoken ht
  have hops : s'.operands t task = s.operands t task := by rw [hs]; rfl
  rw [← hops]
  refine h'.push t task hwoken ?_
  rw [hs]
  exact ht

variable {y : HeapId} (h : Consistent returned prompt s run [] (some (.gatherSlot g y, x)))

include h in
theorem Consistent.told : (∃ o, s.heap.get? g = some o ∧ o.isSettled) ∨
      y = x ∧ ∃ items a slots, s.heap.get? g = some (.gatherFuture items (.awaited a)) ∧
        a.pendingChildren.lookup x = some slots := by
  rcases (h.linked.of_loose rfl).2 with hdone | ⟨hy, ⟨f, hf, -⟩ | ⟨o, ho, hk⟩⟩
  · exact .inl hdone
  · cases hf
  · obtain ⟨items, a, rfl, hk⟩ := Obj.knows_iff.mp hk
    obtain ⟨slots, hslots⟩ := (mem_keys_iff _ _).mp (AList.mem_keys.mpr hk)
    exact .inr ⟨hy, items, a, slots, ho, hslots⟩

theorem Consistent.toldTask (h : Consistent returned prompt s run [] (some (.task t, x))) :
    ∃ task, s.tasks.lookup t = some task ∧ task.state = .blocked x := by
  rcases (h.linked.of_loose rfl).2 with hdone | hk
  · exact hdone.elim
  · exact hk

variable {pending : PendingChildren}

/-- If all results are there, they are made a list, which the gather is then given. -/
theorem Consistent.listResults {stack : List GatherCommit} {loose : Option (Awaiter × HeapId)}
    (h : Consistent returned prompt s run stack loose) (hg : s.heap.get? g = some o)
    (hslots : Slots (s.value returned) items results pending items.length)
    (hnone : pending.keys = []) :
    ∃ id values heap, s.heap.get? id = none ∧
      (∀ y, heap.get? y = if y = id then some (.list values) else s.heap.get? y) ∧
      cacheResult g items results s = .ok (.ref id)
        { s with heap := heap.set g (.gatherFuture items (.completed (.ref id))) } ∧
      heap.get? g = some o ∧ Consistent returned prompt { s with heap } run stack loose ∧
      Later returned s { s with heap } ∧ Complete returned { s with heap } items (.ref id) := by
  obtain ⟨values, hvalues, hall⟩ := hslots.collect hnone
  have hid := get?_allocate_fst s.heap (.list values)
  have hget := get?_allocate s.heap (.list values)
  set s1 : Vm := { s with heap := (s.heap.allocate (.list values)).2 }
  obtain ⟨h1, hl1⟩ : Consistent returned prompt s1 run stack loose ∧ Later returned s s1 :=
    h.allocate (o := .list values) trivial nofun rfl (.of_eq rfl) rfl le_rfl
  refine ⟨_, values, _, hid, hget, by rw [cacheResult, hvalues]; rfl, ?_, h1, hl1,
    _, values, rfl, by rw [hget, if_pos rfl], hall.imp fun _ _ => hl1.value⟩
  rw [hget, if_neg]
  · exact hg
  · rintro rfl
    rw [hid] at hg
    cases hg

include h in
theorem cacheResult_spec (hg : s.heap.get? g = some (.gatherFuture items (.awaited a)))
    (hslots : Slots (s.value returned) items results pending items.length)
    (hnone : pending.keys = []) :
    Succeeds (cacheResult g items results) s fun list s' =>
      Consistent returned prompt s' run [] (some (a.awaiter, g)) ∧ Later returned s s' ∧
        s' = { s with heap := s'.heap } ∧ s'.value returned g = some list ∧
        (∀ g', s'.awaited g' → g' ≠ g ∧ s.awaited g') ∧ Given returned s s' none := by
  obtain ⟨id, values, heap, hid, hget1, hrun, hg1, h1, hl1, hcomplete⟩ :=
    h.listResults hg hslots hnone
  set s1 : Vm := { s with heap }
  set s2 : Vm := s1.put g (.gatherFuture items (.completed (.ref id)))
  have hget2 : s1.Put s2 g (.gatherFuture items (.completed (.ref id))) := Vm.put_put hg1 _
  obtain ⟨h2, hl2⟩ : Consistent returned prompt s2 run [] (some (a.awaiter, g)) ∧
      Later returned s1 s2 := by
    have hsettled : (Obj.gatherFuture items (.completed (.ref id))).isSettled := trivial
    refine h1.settleGather hg1 hsettled ?_
    rintro v ⟨⟩
    exact hcomplete
  refine ⟨.ref id, s2, hrun, h2, hl1.trans hl2, rfl, ?_, fun g' hg' => ?_, ?_⟩
  · rw [Vm.value, hget2, if_pos rfl]
    rfl
  · obtain ⟨hne, items', a', hg'⟩ := Vm.awaited_put hget2 trivial g' hg'
    refine ⟨hne, items', a', ?_⟩
    rw [hget1] at hg'
    split_ifs at hg'
    · cases hg'
    · exact hg'
  refine .of_put hg (fun y o hy hne => ?_) ((hget2 g).trans (if_pos rfl))
    (.inr ⟨.ref id, rfl, hl2.complete hcomplete⟩)
  rw [hget2, if_neg hne, hget1, if_neg]
  · exact hy
  · rintro rfl
    rw [hid] at hy
    cases hy

include h in
theorem resolveChild_spec (hv : s.value returned x = some v) :
    Succeeds (resolveChild g y v) s fun out s' => Later returned s s' ∧
      s' = { s with heap := s'.heap } ∧ Given returned s s' none ∧
      ((out = none ∧ Consistent returned prompt s' run [] none) ∨
        ∃ list w, out = some (list, w) ∧ Consistent returned prompt s' run [] (some (w, g)) ∧
          s'.value returned g = some list ∧ s.awaited g ∧
          ∀ g', s'.awaited g' → g' ≠ g ∧ s.awaited g') := by
  rcases h.told with ⟨o, ho, hsettled⟩ | ⟨rfl, items, a, slots, hg, hx⟩
  · -- the gather has settled before: the value is dropped
    refine ⟨none, s, ?_, .refl s, rfl, .of_heap_eq rfl nofun, .inl ⟨rfl, h.dropSettled ho hsettled⟩⟩
    cases o with
    | gatherFuture items state =>
      rw [resolveChild, bind_of_ok (readGather_eq ho)]
      cases state with
      | completed v => rfl
      | failed error => rfl
      | _ => exact hsettled.elim
    | _ => exact hsettled.elim
  · have hslots := (h.shaped.awaited g items a hg).1
    have hbounds : slots.any (a.results.length ≤ ·) = false := by
      rw [any_eq_false]
      intro i hi
      have := (hslots.slot y slots hx i hi).1
      rw [hslots.length]
      simpa using this
    have hrun : resolveChild g y v s = (if (a.pendingChildren.erase y).keys = [] then do
        let list ← cacheResult g items (fillSlots a.results slots v)
        pure (some (list, a.awaiter))
      else do
        setObj g (.gatherFuture items (.awaited { a with
          pendingChildren := a.pendingChildren.erase y
          results := fillSlots a.results slots v }))
        pure none : Run _) s := by
      rw [resolveChild, bind_of_ok (readGather_eq hg)]
      simp only [hx, hbounds, Bool.false_eq_true, if_false]
    rw [Succeeds, hrun]
    split_ifs with hlast
    · refine (cacheResult_spec h hg (hslots.fill hx hv) hlast).bind
        fun list s' ⟨h', hl, hs', hval, haw, hgiven⟩ => .pure ⟨hl, hs', hgiven, ?_⟩
      exact .inr ⟨list, a.awaiter, rfl, h', hval, ⟨items, a, hg⟩, haw⟩
    obtain ⟨h', hl⟩ := h.fillChild hg hx hv hlast
    refine ⟨none, _, rfl, hl, rfl, ?_, .inl ⟨rfl, h'⟩⟩
    refine .of_put hg (fun y o hy hne => ?_) ((Vm.put_put hg _ g).trans (if_pos rfl))
      (.inl ⟨_, rfl, rfl⟩)
    exact ((Vm.put_put hg _ y).trans (if_neg hne)).trans hy

theorem Delivered.of_wake (stack : List Value)
    (ht : s.tasks.lookup t = some task) (hblocked : task.state = .blocked x)
    (hlookup : s.PutTask s' t { task with state := .ready result, stack := stack })
    (hrest : s' = { s with
      tasks := s'.tasks, stack := s'.stack, readyQueue := s.readyQueue ++ [t] }) :
    Delivered result s s' (some t) := by
  constructor
  case others =>
    intro t' hne
    rw [hlookup, if_neg]
    rintro rfl
    exact hne rfl
  case wakes =>
    rintro _ ⟨⟩
    exact ⟨task, x, stack, ht, hblocked, by rw [hlookup, if_pos rfl]⟩
  all_goals rw [hrest]
  rfl

theorem deliverValueToTask_spec
    (h : Consistent returned prompt s run [] (some (.task t, x)))
      (hv : s.value returned x = some v) :
    Succeeds (deliverValueToTask t v) s fun woken s' => Consistent returned prompt s' run [] none ∧
      s'.heap = s.heap ∧ Delivered (.ok ()) s s' woken ∧ Given returned s s' woken := by
  obtain ⟨task, ht, hblocked⟩ := h.toldTask
  refine .bind_of_eq (isBlocked_eq ht hblocked) ?_
  by_cases hloaded : s.currentTask = some t ∧ s.isParked = false
  · -- the operand stack of the task is loaded
    have hpush : pushOperand t v s = .ok () { s with stack := v :: s.stack } := by
      rw [pushOperand, get_bind_apply, if_pos hloaded]
      rfl
    set s1 : Vm := { s with stack := v :: s.stack }
    have h1 : Consistent returned prompt s1 run [] (some (.task t, x)) :=
      h.congr rfl (.of_eq rfl) rfl le_rfl
    refine .bind_of_eq hpush (.bind_of_eq (makeReady_eq ht hblocked) ?_)
    refine .pure ⟨h1.wake ht hblocked, rfl, ?_, .of_heap_eq rfl ?_⟩
    · exact .of_wake task.stack ht hblocked (fun t' => lookup_insert_eq ..) rfl
    rintro _ task' ⟨⟩ ht'
    obtain rfl := mem_unique ht ht'
    refine ⟨x, v, _, hblocked, hv, AList.lookup_insert _, ?_⟩
    rw [Vm.operands, Vm.operands, if_pos hloaded]
    exact if_pos hloaded
  · have hpush : pushOperand t v s =
        .ok () (s.putTask t { task with stack := v :: task.stack }) := by
      rw [pushOperand, get_bind_apply, if_neg hloaded, bind_of_ok (getTask_eq ht)]
      rfl
    set s1 : Vm := s.putTask t { task with stack := v :: task.stack }
    have hlookup1 : s.PutTask s1 t { task with stack := v :: task.stack } := s.putTask_putTask t _
    have hsame : SameScheduler s s1 := by
      refine ⟨fun t' => ?_, rfl, rfl, rfl, rfl⟩
      rw [hlookup1]
      split_ifs with ht'
      · rw [ht', ht]
        rfl
      · rfl
    have h1 : Consistent returned prompt s1 run [] (some (.task t, x)) :=
      h.congr rfl hsame rfl le_rfl
    have ht1 : s1.tasks.lookup t = some { task with stack := v :: task.stack } := by
      rw [hlookup1, if_pos rfl]
    refine .bind_of_eq hpush (.bind_of_eq (makeReady_eq ht1 hblocked) ?_)
    refine .pure ⟨h1.wake ht1 hblocked, rfl, ?_, .of_heap_eq rfl ?_⟩
    · refine .of_wake (v :: task.stack) ht hblocked (fun t' => ?_) rfl
      refine (lookup_insert_eq ..).trans ?_
      split_ifs with ht'
      · rfl
      · rw [hlookup1, if_neg ht']
    rintro _ task' ⟨⟩ ht'
    obtain rfl := mem_unique ht ht'
    refine ⟨x, v, _, hblocked, hv, AList.lookup_insert _, ?_⟩
    rw [Vm.operands, Vm.operands, if_neg hloaded]
    exact if_neg hloaded

variable {error : RunError}

theorem deliverErrorToTask_spec (h : Consistent returned prompt s run [] (some (.task t, x))) :
    Succeeds (deliverErrorToTask t error) s fun woken s' =>
      Consistent returned prompt s' run [] none ∧ s'.heap = s.heap ∧
        Delivered (.error error) s s' woken := by
  obtain ⟨task, ht, hblocked⟩ := h.toldTask
  refine .bind_of_eq (isBlocked_eq ht hblocked) ?_
  refine .bind_of_eq (makeReady_eq ht hblocked) ?_
  exact .pure ⟨h.wake ht hblocked, rfl,
    .of_wake task.stack ht hblocked (fun t' => lookup_insert_eq ..) rfl⟩

theorem deliverFailureLoop_task (fuel : Nat) (t : TaskId) (error : RunError) :
    deliverFailureLoop fuel (.task t) error = deliverErrorToTask t error := by
  cases fuel <;> rfl

/-- Each gather on the way settles, so that the loop ends. -/
theorem deliverSuccessLoop_spec (fuel : Nat) : ∀ {s : Vm} {w : Awaiter} {x : HeapId} {v : Value}
    {n : Nat}, n < fuel → s.AwaitedWithin n → Consistent returned prompt s run [] (some (w, x)) →
    s.value returned x = some v →
    Succeeds (deliverSuccessLoop fuel w v) s fun woken s' =>
      Consistent returned prompt s' run [] none ∧ Later returned s s' ∧
        Delivered (.ok ()) s s' woken ∧ Given returned s s' woken := by
  induction fuel with
  | zero => exact fun h => absurd h (Nat.not_lt_zero _)
  | succ fuel ih =>
    intro s w x v n hn hwithin h hv
    cases w with
    | task t =>
      exact (deliverValueToTask_spec h hv).mono fun woken s' ⟨h', hheap, hd⟩ =>
        ⟨h', .of_eq hheap, hd⟩
    | gatherSlot g y =>
      refine (resolveChild_spec h hv).bind ?_
      rintro out s' ⟨hl, hs', hgiven, ⟨rfl, h'⟩ | ⟨list, w, rfl, h', hlist, hg, hless⟩⟩
      · exact .pure ⟨h', hl, .of_heap hs', hgiven⟩
      · obtain ⟨m, rfl, hwithin'⟩ := hwithin.step hg hless
        refine (ih (by omega) hwithin' h' hlist).mono fun woken s'' ⟨h'', hl', hd, hgiven'⟩ => ?_
        exact ⟨h'', hl.trans hl', hd.heap_trans hs', hgiven.trans hs' hgiven' hl'⟩

theorem failGather_settled {o : Obj} (ho : s.heap.get? g = some o) (hsettled : o.isSettled) :
    failGather g error s = .ok none s := by
  cases o with
  | gatherFuture items state =>
    rw [failGather, bind_of_ok (readGather_eq ho)]
    cases state with
    | awaited a => exact hsettled.elim
    | _ => rfl
  | _ => exact hsettled.elim

include h in
theorem failGather_spec : Succeeds (failGather g error) s fun out s' => Later returned s s' ∧
      s' = { s with heap := s'.heap } ∧
      ((out = none ∧ Consistent returned prompt s' run [] none) ∨
        ∃ w, out = some w ∧ Consistent returned prompt s' run [] (some (w, g)) ∧ s.awaited g ∧
          ∀ g', s'.awaited g' → g' ≠ g ∧ s.awaited g') := by
  rcases h.told with ⟨o, ho, hsettled⟩ | ⟨-, items, a, slots, hg, -⟩
  · exact ⟨none, s, failGather_settled ho hsettled, .refl s, rfl,
      .inl ⟨rfl, h.dropSettled ho hsettled⟩⟩
  have hrun : failGather g error s = .ok (some a.awaiter)
      (s.put g (.gatherFuture items (.failed error))) := by
    rw [failGather, bind_of_ok (readGather_eq hg)]
    rfl
  have hsettled : (Obj.gatherFuture items (.failed error)).isSettled := trivial
  obtain ⟨h', hl⟩ := h.settleGather hg hsettled nofun
  refine .of_eq hrun ⟨hl, rfl, .inr ⟨a.awaiter, rfl, h', ⟨items, a, hg⟩, ?_⟩⟩
  exact Vm.awaited_put (Vm.put_put hg _) hsettled

theorem deliverFailureLoop_spec (fuel : Nat) : ∀ {s : Vm} {w : Awaiter}
    {x : HeapId} {n : Nat}, n < fuel → s.AwaitedWithin n →
    Consistent returned prompt s run [] (some (w, x)) →
    Succeeds (deliverFailureLoop fuel w error) s fun woken s' =>
      Consistent returned prompt s' run [] none ∧ Later returned s s' ∧
        Delivered (.error error) s s' woken := by
  induction fuel with
  | zero => exact fun h => absurd h (Nat.not_lt_zero _)
  | succ fuel ih =>
    intro s w x n hn hwithin h
    cases w with
    | task t =>
      exact (deliverErrorToTask_spec h).mono fun woken s' ⟨h', hheap, hd⟩ => ⟨h', .of_eq hheap, hd⟩
    | gatherSlot g y =>
      refine (failGather_spec h).bind ?_
      rintro out s' ⟨hl, hs', ⟨rfl, h'⟩ | ⟨w, rfl, h', hg, hless⟩⟩
      · exact .pure ⟨h', hl, .of_heap hs'⟩
      · obtain ⟨m, rfl, hwithin'⟩ := hwithin.step hg hless
        refine (ih (by omega) hwithin' h').mono fun woken s'' ⟨h'', hl', hd⟩ => ?_
        exact ⟨h'', hl.trans hl', hd.heap_trans hs'⟩

variable {w : Option Awaiter}

/-- What has a value is delivered to whoever waits for it. -/
theorem deliverSuccess?_spec (h : Consistent returned prompt s run [] (w.map fun w => (w, x)))
    (hv : s.value returned x = some v) :
    Succeeds (deliverSuccess? w v) s fun woken s' => Consistent returned prompt s' run [] none ∧
      Later returned s s' ∧ Delivered (.ok ()) s s' woken ∧ Given returned s s' woken := by
  cases w with
  | none =>
    exact .pure ⟨h, .refl s, .of_heap rfl, .of_heap_eq rfl nofun⟩
  | some w =>
    exact .get_bind (deliverSuccessLoop_spec _ (Nat.lt_succ_self _) s.awaitedWithin_len h hv)

theorem deliverFailure?_spec (h : Consistent returned prompt s run [] (w.map fun w => (w, x))) :
    Succeeds (deliverFailure? w error) s fun woken s' => Consistent returned prompt s' run [] none ∧
      Later returned s s' ∧ Delivered (.error error) s s' woken := by
  cases w with
  | none => exact .pure ⟨h, .refl s, .of_heap rfl⟩
  | some w =>
    exact .get_bind (deliverFailureLoop_spec _ (Nat.lt_succ_self _) s.awaitedWithin_len h)

end Loops

/-! ## The host answers -/

/-- What the answers of the host do to the tasks: those that are ready are as they were. -/
structure Quiet (s s' : Vm) : Prop where
  sameTasks : SameTasks s s'
  ready : ∀ t task, s.tasks.lookup t = some task → task.Ready → s'.tasks.lookup t = some task
  currentTask : s'.currentTask = s.currentTask
  nextCallId : s'.nextCallId = s.nextCallId
  suspendedFrames : s'.suspendedFrames = s.suspendedFrames
  rootParked : s'.rootParked = s.rootParked

theorem Quiet.refl (s : Vm) : Quiet s s := ⟨.of_eq rfl rfl, fun _ _ h _ => h, rfl, rfl, rfl, rfl⟩

theorem Quiet.trans (h : Quiet s s') (h' : Quiet s' s'') : Quiet s s'' where
  sameTasks := ⟨fun t => (h'.sameTasks.same t).trans (h.sameTasks.same t),
    h'.sameTasks.driven.trans h.sameTasks.driven⟩
  ready := fun t task ht hr => h'.ready t task (h.ready t task ht hr) hr
  currentTask := h'.currentTask.trans h.currentTask
  nextCallId := h'.nextCallId.trans h.nextCallId
  suspendedFrames := h'.suspendedFrames.trans h.suspendedFrames
  rootParked := h'.rootParked.trans h.rootParked

theorem Delivered.quiet (h : Delivered result s s' woken) : Quiet s s' := by
  refine ⟨h.sameTasks, fun t task ht hready => ?_, h.currentTask, h.nextCallId, h.suspendedFrames,
    h.rootParked⟩
  rw [h.others t, ht]
  intro hw
  obtain ⟨task0, y, stack, ht0, hblocked, -⟩ := h.wakes t hw
  obtain rfl := mem_unique ht ht0
  obtain ⟨r, hr⟩ := hready
  rw [hblocked] at hr
  cases hr

theorem takePendingExternal_eq (call : CallId) : takePendingExternal call s =
    .ok (s.pendingExternals.lookup call)
      { s with pendingExternals := s.pendingExternals.erase call } := rfl

variable (h : Consistent returned prompt s run [] none)

section

variable {call : CallId} {r : Option Value} {w : Option Awaiter}

variable (hx : s.heap.get? x = some (.externalFuture call (.pending w) r))
include hx

theorem get?_withSettled (state : ExternalFutureState) (y : HeapId) :
    (s.withSettled call x state).heap.get? y =
      if y = x then some (.externalFuture call state none) else s.heap.get? y :=
  get?_set hx _ y

theorem value_withSettled (v : Value) :
    (s.withSettled call x (.resolved v)).value returned x = some v := by
  rw [Vm.value, get?_withSettled hx, if_pos rfl]
  rfl

include h in
theorem Consistent.withSettled (state : ExternalFutureState) (hstate : ∀ w, state ≠ .pending w) :
    Consistent returned prompt (s.withSettled call x state) run [] (w.map fun w => (w, x)) ∧
      Later returned s (s.withSettled call x state) ∧ Quiet s (s.withSettled call x state) := by
  obtain ⟨h', hl⟩ := h.settleExternal hx hstate
  exact ⟨h', hl, .of_eq rfl rfl, fun _ _ ht _ => ht, rfl, rfl, rfl, rfl⟩

variable (hcall : s.pendingExternals.lookup call = some x)
include hcall

theorem resolveFuture_eq (v : Value) : resolveFuture call v s =
    (deliverSuccess? w (r.getD v) >>= fun _ => pure ())
      (s.withSettled call x (.resolved (r.getD v))) := by
  have hread : read x { s with pendingExternals := s.pendingExternals.erase call } = _ := read_eq hx
  rw [resolveFuture, bind_of_ok (takePendingExternal_eq call), hcall]
  exact (bind_of_ok hread).trans (bind_of_ok (setObj_eq ..))

theorem failFuture_eq (error : RunError) : failFuture call error s =
    (deliverFailure? w error >>= fun _ => pure ()) (s.withSettled call x (.failed error)) := by
  have hread : read x { s with pendingExternals := s.pendingExternals.erase call } = _ := read_eq hx
  rw [failFuture, bind_of_ok (takePendingExternal_eq call), hcall]
  exact (bind_of_ok hread).trans (bind_of_ok (setObj_eq ..))

end

theorem takePendingExternal_none (hcall : s.pendingExternals.lookup call = none) :
    takePendingExternal call s = .ok none s := by
  rw [takePendingExternal_eq, hcall, erase_eq_self _ hcall]

/-- What the answer to a call does. -/
structure Answered (returned : HeapId → Option Value) (prompt : Prop) (run : Option TaskId)
    (s s' : Vm) (calls : List CallId) : Prop where
  consistent : Consistent returned prompt s' run [] none
  later : Later returned s s'
  quiet : Quiet s s'
  pending : ∀ call, s'.pendingExternals.lookup call =
    if call ∈ calls then none else s.pendingExternals.lookup call

include h in
theorem Answered.of_quiet {calls : List CallId}
    (hcalls : ∀ call ∈ calls, s.pendingExternals.lookup call = none) :
    Answered returned prompt run s s calls := by
  refine ⟨h, .refl s, .refl s, fun call => ?_⟩
  split_ifs with hcall
  · exact hcalls call hcall
  · rfl

theorem Answered.of_delivered (hl : Later returned s (s.withSettled call x state))
    (hq : Quiet s (s.withSettled call x state)) (h : Consistent returned prompt s' run [] none)
    (hl' : Later returned (s.withSettled call x state) s')
    (hd : Delivered result (s.withSettled call x state) s' woken) :
    Answered returned prompt run s s' [call] := by
  refine ⟨h, hl.trans hl', hq.trans hd.quiet, fun call' => ?_⟩
  rw [hd.pendingExternals]
  simp only [mem_singleton]
  exact lookup_erase_eq ..

include h in
theorem resolveFuture_spec (call : CallId) (v : Value) :
    Succeeds (resolveFuture call v) s fun _ s' => Answered returned prompt run s s' [call] := by
  cases hcall : s.pendingExternals.lookup call with
  | none =>
    exact .bind_of_eq (takePendingExternal_none hcall) (.pure (.of_quiet h (by simpa using hcall)))
  | some x =>
    obtain ⟨w, r, hx⟩ := (h.registered.externals call x).mp hcall
    obtain ⟨h', hl, hq⟩ := h.withSettled hx (.resolved (r.getD v)) nofun
    rw [Succeeds, resolveFuture_eq hx hcall]
    exact (deliverSuccess?_spec h' (value_withSettled hx _)).bind fun _ _ ⟨h'', hl', hd, _⟩ =>
      .pure (.of_delivered hl hq h'' hl' hd)

include h in
theorem failFuture_spec (call : CallId) (error : RunError) :
    Succeeds (failFuture call error) s fun _ s' => Answered returned prompt run s s' [call] := by
  cases hcall : s.pendingExternals.lookup call with
  | none =>
    exact .bind_of_eq (takePendingExternal_none hcall) (.pure (.of_quiet h (by simpa using hcall)))
  | some x =>
    obtain ⟨w, r, hx⟩ := (h.registered.externals call x).mp hcall
    obtain ⟨h', hl, hq⟩ := h.withSettled hx (.failed error) nofun
    rw [Succeeds, failFuture_eq hx hcall]
    exact (deliverFailure?_spec h').bind fun _ _ ⟨h'', hl', hd⟩ =>
      .pure (.of_delivered hl hq h'' hl' hd)

/-- The calls that a batch of answers settles. -/
def ExtResult.settles : ExtResult → Bool
  | .value _ | .error _ => true
  | _ => false

def settledCalls (results : List (CallId × ExtResult)) : List CallId :=
  (results.filter fun result => result.2.settles).map Prod.fst

theorem Answered.trans {calls calls' : List CallId} (h : Answered returned prompt run s s' calls)
    (h' : Answered returned prompt run s' s'' calls') :
    Answered returned prompt run s s'' (calls ++ calls') := by
  refine ⟨h'.consistent, h.later.trans h'.later, h.quiet.trans h'.quiet, fun call => ?_⟩
  rw [h'.pending, h.pending]
  split_ifs <;> simp_all

include h in
theorem applyFutureResult_spec (result : CallId × ExtResult) :
    Succeeds (applyFutureResult result) s fun _ s' =>
      Answered returned prompt run s s' (settledCalls [result]) := by
  obtain ⟨call, result⟩ := result
  cases result with
  | value v => exact (resolveFuture_spec h call v).bind fun _ s' h' => .pure h'
  | error error => exact (failFuture_spec h call error).bind fun _ s' h' => .pure h'
  | inconvertible error => exact .pure (.of_quiet h (by simp [settledCalls, ExtResult.settles]))
  | future => exact .pure (.of_quiet h (by simp [settledCalls, ExtResult.settles]))

/-- A batch of answers, in any order and with any calls. -/
theorem applyFutureResults_spec (results : List (CallId × ExtResult)) : ∀ {s : Vm},
    Consistent returned prompt s run [] none →
    Succeeds (applyFutureResults results) s fun out s' =>
      (∃ calls, Answered returned prompt run s s' calls) ∧
        (out = .ok () → Answered returned prompt run s s' (settledCalls results)) := by
  induction results with
  | nil =>
    intro s h
    have h' : Answered returned prompt run s s [] := .of_quiet h (by simp)
    exact .pure ⟨⟨[], h'⟩, fun _ => h'⟩
  | cons result results ih =>
    intro s h
    refine (applyFutureResult_spec h result).bind fun out s' h' => ?_
    cases out with
    | error error => exact .pure ⟨⟨_, h'⟩, nofun⟩
    | ok _ =>
      refine (ih h'.consistent).mono fun out s'' ⟨⟨calls, h''⟩, hok⟩ =>
        ⟨⟨_, h'.trans h''⟩, fun heq => ?_⟩
      have hcalls : settledCalls (result :: results) =
          settledCalls [result] ++ settledCalls results := by
        rw [settledCalls, settledCalls, settledCalls, ← map_append, ← filter_append]
        rfl
      rw [hcalls]
      exact h'.trans (hok heq)

end Monty.Async
