import Monty.Async.Safety

/-!
# Every state of a run

From a fresh machine, whatever the program, the host and the memory management do, the invariant
holds between two operations. It says what the tasks, the queue, the futures and the gathers know of
each other, and that the machine never stands still without a call that the host can answer.

There are two ways to leave the good states. A coroutine for which a gather has a task may be
awaited directly before that task starts. The task then fails when it is activated, and if nothing
waits for it and nobody else is ready, the machine runs on with the placeholder frame and no current
task: the next `await` panics. `Op.Prompt` excludes that. And the numbers of tasks and calls may run
out: without checks they are given a second time, and an answer goes to the wrong call. `Vm.Roomy`
excludes that.
-/

namespace Monty.Async

open Fallible Option Machine

/-! ## The run lemma -/

section

variable {checked : Bool} {prompt : Prop} {ok : Vm → Op → Prop} {m m' : Machine} {op : Op}
  {returned : HeapId → Option Value}

theorem Vm.task_new {t : TaskId} {task : Task} (ht : (Vm.new checked).tasks.lookup t = some task) :
    t = 0 ∧ task = Task.new none none := by
  have hlook : (Vm.new checked).tasks.lookup t = if t = 0 then some (.new none none) else none :=
    Keyed.lookup_insert_eq ∅ 0 t (Task.new none none)
  rw [hlook] at ht
  split_ifs at ht with hzero
  exact ⟨hzero, (Option.some.inj ht).symm⟩

theorem Scheduled.new (checked : Bool) : Scheduled (.new checked) (some 0) := by
  have htask := @Vm.task_new checked
  constructor
  case nodup => exact .nil
  case mem_queue =>
    refine fun t => ⟨(nomatch ·), ?_⟩
    rintro ⟨task, ht, -, hne⟩
    exact absurd (congrArg some (htask ht).1.symm) hne
  case run_ready =>
    rintro t ⟨⟩
    exact ⟨_, rfl, .ok (), rfl⟩
  case lt_next =>
    intro t task ht
    rw [(htask ht).1]
    exact Nat.zero_lt_one
  case driven =>
    refine fun c t => ⟨(nomatch ·), ?_⟩
    rintro ⟨task, ht, hc⟩
    rw [(htask ht).2] at hc
    cases hc
  case main => exact ⟨_, rfl, rfl, rfl⟩
  case spawned => exact fun t task ht hne => absurd (htask ht).1 hne
  case context => exact fun t task ht _ hne => absurd (congrArg some (htask ht).1.symm) hne
  case awaiter_slot =>
    intro t task w ht hw
    rw [(htask ht).2] at hw
    cases hw
  case current =>
    rintro t ⟨⟩
    exact ⟨_, rfl⟩

/-- A fresh machine: there is the main task, and nothing else. -/
theorem Consistent.new (returned : HeapId → Option Value) (checked : Bool) :
    Consistent returned prompt (.new checked) (some 0) [] none := by
  have hget : ∀ x, (Vm.new checked).heap.get? x = none := fun _ => rfl
  have hwaiter : ∀ x, (Vm.new checked).waiter x = none := fun _ => rfl
  have hcoroutine : ∀ {t : TaskId} {task : Task}, (Vm.new checked).tasks.lookup t = some task →
      task.coroutineId = none := by
    intro t task ht
    rw [(Vm.task_new ht).2]
    rfl
  constructor
  case scheduled => exact .new checked
  case registered => exact ⟨fun call x => ⟨nofun, by rintro ⟨w, r, ⟨⟩⟩⟩, by rintro call x ⟨⟩⟩
  case shaped =>
    refine ⟨fun t task c ht hc => ?_, fun g items state hg => ?_, fun x g y hx => ?_,
      fun g items a hg => ?_⟩
    · exact nomatch (hcoroutine ht).symm.trans hc
    · exact nomatch (hget g).symm.trans hg
    · exact nomatch (hwaiter x).symm.trans hx
    · exact nomatch (hget g).symm.trans hg
  case linked =>
    refine ⟨fun {w x} hk _ => ?_, fun {w x} hx => ?_, (nomatch ·)⟩
    · cases w with
      | task t =>
        obtain ⟨task, ht, hb⟩ := hk
        rw [(Vm.task_new ht).2] at hb
        cases hb
      | gatherSlot g y =>
        obtain ⟨-, ⟨f, hf, -⟩ | ⟨o, ho, -⟩⟩ := hk
        · cases hf
        · exact nomatch (hget g).symm.trans ho
    · exact nomatch (hwaiter x).symm.trans hx
  case ordered =>
    refine ⟨fun _ => 0, fun _ => 0,
      ⟨fun g items state hg => ?_, fun x w hx => ?_, fun t task w ht hw => ?_⟩,
      nofun⟩
    · exact nomatch (hget g).symm.trans hg
    · exact nomatch (hwaiter x).symm.trans hx
    · rw [(Vm.task_new ht).2] at hw
      cases hw
  case committing => exact nofun
  case distinct => exact .nil
  case unstarted => exact fun _ t task c ht _ _ hc => nomatch (hcoroutine ht).symm.trans hc

theorem Machine.Inv.new (returned : HeapId → Option Value) (checked : Bool) :
    (new checked).Inv returned prompt :=
  ⟨.new returned checked, .inl ⟨0, rfl, rfl, _, rfl, rfl⟩⟩

/-- A step frees garbage, or goes on with later objects. -/
theorem Machine.Inv.step_cases (h : m.Inv returned prompt) (hroomy : m.vm.Roomy)
    (hprompt : prompt → op.Prompt m.vm) (hstep : m.Step op m') :
    (∃ garbage, m.vm.Garbage garbage ∧
      m' = ⟨{ m.vm with heap := garbage.foldl StableHeap.free m.vm.heap }, m.control⟩ ∧
      op = .collect garbage) ∨
    Goes (m.returns returned op) prompt m.vm m'.control m'.vm := by
  obtain ⟨s', control'⟩ := m'
  obtain ⟨hop, hrun⟩ := hstep
  by_cases hcollect : ∃ garbage, op = .collect garbage
  · obtain ⟨garbage, rfl⟩ := hcollect
    cases hrun
    exact .inl ⟨garbage, hop, rfl, rfl⟩
  by_cases hlost : m.control = .running ∧ op.Lost m.vm
  · obtain ⟨hcontrol, hlost⟩ := hlost
    rw [hcontrol, perform_lost _ hlost] at hrun
    cases hrun
  · obtain ⟨control, s, hrun', hgoes⟩ := perform_spec (.all prompt) h hroomy hop hprompt
      (fun hcontrol hl => hlost ⟨hcontrol, hl⟩) fun garbage heq => hcollect ⟨garbage, heq⟩
    cases hrun.symm.trans hrun'
    exact .inr hgoes

theorem Machine.Inv.step (h : m.Inv returned prompt) (hroomy : m.vm.Roomy)
    (hprompt : prompt → op.Prompt m.vm) (hstep : m.Step op m') :
    m'.Inv (m.returns returned op) prompt := by
  obtain ⟨garbage, hgarbage, rfl, rfl⟩ | hgoes := h.step_cases hroomy hprompt hstep
  · exact .collect h hgarbage
  · exact hgoes.inv

theorem Machine.Reached.inv (hok : ∀ s op, ok s op → s.Roomy ∧ (prompt → op.Prompt s))
    (h : m.Reached ok) : ∃ returned, m.Inv returned prompt := by
  induction h with
  | new checked => exact ⟨fun _ => none, .new _ checked⟩
  | step _ hop hstep ih =>
    obtain ⟨returned, hinv⟩ := ih
    obtain ⟨hroomy, hprompt⟩ := hok _ _ hop
    exact ⟨_, hinv.step hroomy hprompt hstep⟩

theorem Machine.Reached.mono {ok' : Vm → Op → Prop} (h : m.Reached ok)
    (hok : ∀ s op, ok s op → ok' s op) : m.Reached ok' := by
  induction h with
  | new checked => exact .new checked
  | step _ hop hstep ih => exact .step ih (hok _ _ hop) hstep

theorem Machine.Reached.inv_of_roomy (h : m.Reached fun s _ => s.Roomy) :
    ∃ returned, m.Inv returned False := h.inv fun _ _ hroomy => ⟨hroomy, False.elim⟩

/-- What is common to a machine that runs and one that waits for the host. -/
theorem Machine.Inv.consistent (h : m.Inv returned prompt) (hlive : ∀ r, m.control ≠ .finished r) :
    ∃ run, Consistent returned prompt m.vm run [] none ∧
      (run = m.vm.currentTask ∨ m.vm.readyQueue = []) := by
  obtain ⟨s, control⟩ := m
  cases control with
  | running => exact ⟨_, Running.consistent h, .inl rfl⟩
  | raising error => exact ⟨_, Running.consistent h, .inl rfl⟩
  | yielded calls => exact ⟨none, h.1.consistent, .inr h.1.queue⟩
  | finished r => exact absurd rfl (hlive r)
  | stalled => exact h.elim

end

/-! ## Runs that are computed -/

/-- Operations that are enabled, as a test. -/
def Op.enabled (s : Vm) : Op → Bool
  | .makeGather items => items.all fun id => (s.heap.get? id).isSome
  | .await _ (.ref id) => (s.heap.get? id).isSome
  | .handle (some popped) => popped ≤ s.suspendedFrames
  | .collect _ => false
  | _ => true

def Op.prompt (s : Vm) : Op → Bool
  | .await _ (.ref id) =>
    match s.heap.get? id with
    | some (.coroutine .new) => (s.coroutineToTask.lookup id).isNone
    | _ => true
  | _ => true

/-- There is a number for each object, and one for the next call. -/
def Vm.roomy (s : Vm) : Bool :=
  s.nextTaskId + s.heap.len < 2 ^ 32 && s.nextCallId + 1 < 2 ^ 32

/-- The machine after some operations, if all of them are enabled and pass a test. -/
def Machine.exec (test : Vm → Op → Bool) : List Op → Machine → Option Machine
  | [], m => some m
  | op :: ops, m =>
    if op.enabled m.vm && test m.vm op then
      match perform Vm.queued op m.control m.vm with
      | .ok control s => exec test ops ⟨s, control⟩
      | .error _ _ => none
    else none

theorem Op.Enabled.of_test {op : Op} {s : Vm} (h : op.enabled s = true) : op.Enabled s := by
  unfold Op.enabled at h
  split at h
  case h_1 items =>
    intro id hid
    exact StableHeap.mem_live.mpr (isSome_iff_exists.mp (List.all_eq_true.mp h id hid))
  case h_2 id => exact StableHeap.mem_live.mpr (isSome_iff_exists.mp h)
  case h_3 popped =>
    change popped ≤ s.suspendedFrames
    simpa using h
  case h_4 => cases h
  case h_5 =>
    unfold Op.Enabled
    split <;> simp_all

theorem Op.Prompt.of_test {op : Op} {s : Vm} (h : op.prompt s = true) : op.Prompt s := by
  unfold Op.prompt at h
  split at h
  case h_1 id =>
    intro hid
    rw [hid] at h
    exact isNone_iff_eq_none.mp h
  case h_2 =>
    unfold Op.Prompt
    split <;> simp_all

theorem Vm.Roomy.of_test {s : Vm} (h : s.roomy = true) : s.Roomy := by
  obtain ⟨htasks, hcalls⟩ := Bool.and_eq_true_iff.mp h
  refine ⟨⟨Finset.range s.heap.len, fun x hx _ => ?_, ?_⟩, of_decide_eq_true hcalls⟩
  · exact Finset.mem_range.mpr (StableHeap.lt_len_of_get? hx)
  · rw [Finset.card_range]
    exact of_decide_eq_true htasks

theorem Machine.Reached.exec {test : Vm → Op → Bool} {ok : Vm → Op → Prop}
    (htest : ∀ s op, test s op = true → ok s op) (ops : List Op) : ∀ {m m' : Machine},
    m.Reached ok → m.exec test ops = some m' → m'.Reached ok := by
  induction ops with
  | nil =>
    rintro m m' hm ⟨⟩
    exact hm
  | cons op ops ih =>
    intro m m' hm hexec
    unfold Machine.exec at hexec
    split_ifs at hexec with hop
    split at hexec
    case h_1 control s hrun =>
      obtain ⟨henabled, hpass⟩ := Bool.and_eq_true_iff.mp hop
      exact ih (.step hm (htest _ _ hpass) ⟨.of_test henabled, hrun⟩) hexec
    case h_2 => cases hexec

theorem Machine.exists_reached (checked : Bool) (test : Vm → Op → Bool) (ok : Vm → Op → Prop)
    {p : Machine → Bool} (htest : ∀ s op, test s op = true → ok s op) (ops : List Op)
    (h : ((new checked).exec test ops).any p = true) :
    ∃ m : Machine, m.Reached ok ∧ p m = true := by
  obtain ⟨m, hexec, hp⟩ := (any_eq_true p _).mp h
  exact ⟨m, .exec htest ops (.new checked) hexec, hp⟩

def Limits.unlimited : Limits := ⟨fun _ => none, fun _ => none, none⟩

/-- A frame of the given task runs. -/
def Machine.runs (m : Machine) (t : Option TaskId) : Bool :=
  match m.control with
  | .running => m.vm.currentTask == t
  | _ => false

theorem Machine.control_of_runs {m : Machine} {t : Option TaskId} (h : m.runs t = true) :
    m.control = .running ∧ m.vm.currentTask = t := by
  unfold runs at h
  split at h
  · exact ⟨‹_›, beq_iff_eq.mp h⟩
  · cases h

/-! ## What is settled -/

section

variable {m m' : Machine} {op : Op}

/-- What is still there after a step is the object it was. -/
theorem Machine.Reached.kept {x : HeapId} {o : Obj} (h : m.Reached fun s _ => s.Roomy)
    (hroomy : m.vm.Roomy) (hstep : m.Step op m') (ho : m.vm.heap.get? x = some o)
      (hx : x ∈ m'.vm.heap.live) :
    ∃ o', m'.vm.heap.get? x = some o' ∧ (o' = o ∨ ¬ o.isFinal ∧ o.SameKind o') := by
  obtain ⟨returned, hinv⟩ := h.inv_of_roomy
  obtain ⟨garbage, -, rfl, -⟩ | hgoes := hinv.step_cases hroomy False.elim hstep
  · obtain ⟨o', ho'⟩ := StableHeap.mem_live.mp hx
    rw [get?_foldl_free] at ho'
    split_ifs at ho'
    cases mem_unique ho ho'
    exact ⟨o, by rwa [get?_foldl_free, if_neg ‹_›], .inl rfl⟩
  · exact hgoes.later.keep x o ho

/-- A step that does not free the object, from a state in which the numbers do not run out. -/
def Machine.StepsWith (x : HeapId) (m m' : Machine) : Prop :=
  m.vm.Roomy ∧ (∃ op, m.Step op m') ∧ x ∈ m'.vm.heap.live

theorem Machine.Reached.kept_along {x : HeapId} {o : Obj} (h : m.Reached fun s _ => s.Roomy)
    (ho : m.vm.heap.get? x = some o) (hrun : Relation.ReflTransGen (StepsWith x) m m') :
    (m'.Reached fun s _ => s.Roomy) ∧
      ∃ o', m'.vm.heap.get? x = some o' ∧ (o' = o ∨ ¬ o.isFinal ∧ o.SameKind o') := by
  induction hrun with
  | refl => exact ⟨h, o, ho, .inl rfl⟩
  | tail _ hstep ih =>
    obtain ⟨hm, o1, ho1, hkind⟩ := ih
    obtain ⟨hroomy, ⟨op, hstep⟩, hx⟩ := hstep
    refine ⟨.step hm hroomy hstep, ?_⟩
    obtain ⟨o2, ho2, rfl | ⟨hnot, hkind'⟩⟩ := hm.kept hroomy hstep ho1 hx
    · exact ⟨o2, ho2, hkind⟩
    · refine ⟨o2, ho2, .inr ?_⟩
      rcases hkind with rfl | ⟨hnot, hkind⟩
      · exact ⟨hnot, hkind'⟩
      · exact ⟨hnot, hkind.trans hkind'⟩

/-- **What is settled stays settled.**  Whatever the tasks, the host and the memory management do
afterwards, an object that is not freed stays the future of the same call or the gather of the same
items, and does not change any more once it has its result. -/
theorem settled_stays {x : HeapId} {o : Obj} (h : m.Reached fun s _ => s.Roomy)
    (ho : m.vm.heap.get? x = some o) (hrun : Relation.ReflTransGen (StepsWith x) m m') :
    ∃ o', m'.vm.heap.get? x = some o' ∧ (o' = o ∨ ¬ o.isFinal ∧ o.SameKind o') :=
  (h.kept_along ho hrun).2

/-- Operations that the object survives. -/
theorem Machine.stepsWith_of_exec {x : HeapId} (ops : List Op) : ∀ {m m' : Machine},
    m.exec (fun s _ => s.roomy && (s.heap.get? x).isSome) ops = some m' → x ∈ m'.vm.heap.live →
    Relation.ReflTransGen (StepsWith x) m m' ∧ x ∈ m.vm.heap.live := by
  induction ops with
  | nil =>
    rintro m m' ⟨⟩ hx
    exact ⟨.refl, hx⟩
  | cons op ops ih =>
    intro m m' hexec hx
    unfold exec at hexec
    split_ifs at hexec with hop
    split at hexec
    case h_1 control s hrun =>
      obtain ⟨hlead, hx⟩ := ih hexec hx
      obtain ⟨henabled, hpass⟩ := Bool.and_eq_true_iff.mp hop
      obtain ⟨hroomy, hx0⟩ := Bool.and_eq_true_iff.mp hpass
      refine ⟨.head ⟨.of_test hroomy, ⟨op, .of_test henabled, hrun⟩, hx⟩ hlead, ?_⟩
      exact StableHeap.mem_live.mpr (isSome_iff_exists.mp hx0)
    case h_2 => cases hexec

/-- The host answers both calls of a gather, the second one first. Later the gather is an item of
another one, which fails with a third call that a coroutine has made: the first one keeps its
list. -/
theorem settled_stays_item : ∃ (m m' : Machine) (v : Value), m.vm.value (fun _ => none) 2 = some v ∧
    m'.vm.failure 6 = some (.exc 5) ∧ m'.vm.value (fun _ => none) 2 = some v := by
  obtain ⟨m, hm, hp⟩ := exists_reached true (fun s _ => s.roomy) (fun s _ => s.Roomy)
    (fun _ _ => .of_test)
    [.hostCall (.future none), .hostCall (.future none), .makeGather [0, 1],
      .await .unlimited (.ref 2), .resume [(1, .value (.host 8)), (0, .value (.host 7))]]
    (p := fun m => (m.vm.value (fun _ => none) 2).isSome &&
      (m.exec (fun s _ => s.roomy && (s.heap.get? 2).isSome)
        [.makeCoroutine, .await .unlimited (.ref 4), .hostCall (.future none), .makeGather [2, 5],
          .await .unlimited (.ref 6), .resume [(2, .error (.exc 5))]]).any
        fun m' => m'.vm.failure 6 == some (.exc 5) && (m'.vm.heap.get? 2).isSome)
    (by decide +kernel)
  obtain ⟨hvalue, hlater⟩ := Bool.and_eq_true_iff.mp hp
  obtain ⟨m', hexec, hp'⟩ := (any_eq_true _ _).mp hlater
  obtain ⟨hfailure, hlive⟩ := Bool.and_eq_true_iff.mp hp'
  obtain ⟨v, hv⟩ := isSome_iff_exists.mp hvalue
  obtain ⟨o, ho, hov⟩ := bind_eq_some_iff.mp hv
  have hlead := stepsWith_of_exec _ hexec (StableHeap.mem_live.mpr (isSome_iff_exists.mp hlive))
  obtain ⟨o', ho', rfl | hnot⟩ := settled_stays hm ho hlead.1
  · refine ⟨m, m', v, hv, beq_iff_eq.mp hfailure, ?_⟩
    rw [Vm.value, ho']
    exact hov
  · exact absurd (Obj.isFinal_of_value hov) hnot.1

end

/-! ## What is known of each other -/

/-- What tasks, queue, futures and gathers know of each other. -/
structure Vm.Coherent (s : Vm) : Prop where
  queue_nodup : s.readyQueue.Nodup
  queue_ready : ∀ t ∈ s.readyQueue,
    s.currentTask ≠ some t ∧ ∃ task, s.tasks.lookup t = some task ∧ task.Ready
  /-- A task that is blocked waits for an awaitable that knows it. -/
  blocked : ∀ t task x, s.tasks.lookup t = some task → task.state = .blocked x →
    (∃ call r, s.heap.get? x = some (.externalFuture call (.pending (some (.task t))) r)) ∨
      ∃ items a, s.heap.get? x = some (.gatherFuture items (.awaited a)) ∧ a.awaiter = .task t
  /-- And no other awaitable does. -/
  awaited : ∀ t x, ((∃ call r,
      s.heap.get? x = some (.externalFuture call (.pending (some (.task t))) r)) ∨
      ∃ items a, s.heap.get? x = some (.gatherFuture items (.awaited a)) ∧ a.awaiter = .task t) →
    ∃ task, s.tasks.lookup t = some task ∧ task.state = .blocked x
  registered : ∀ call x w r, s.heap.get? x = some (.externalFuture call (.pending w) r) →
    ∀ call', s.pendingExternals.lookup call' = some x ↔ call' = call
  pending : ∀ call x, s.pendingExternals.lookup call = some x →
    ∃ w r, s.heap.get? x = some (.externalFuture call (.pending w) r)
  /-- Tasks that were spawned, and their coroutines. -/
  driven : ∀ c t, s.coroutineToTask.lookup c = some t ↔
    ∃ task, s.tasks.lookup t = some task ∧ task.coroutineId = some c
  spawned : ∀ t task, s.tasks.lookup t = some task →
    (t ≠ 0 ↔ ∃ c state, task.coroutineId = some c ∧ s.heap.get? c = some (.coroutine state))
  child : ∀ g items a, s.heap.get? g = some (.gatherFuture items (.awaited a)) →
    ∀ x ∈ a.pendingChildren, (∃ state t task, s.heap.get? x = some (.coroutine state) ∧
        s.coroutineToTask.lookup x = some t ∧ s.tasks.lookup t = some task ∧
        task.awaiter = some (.gatherSlot g x)) ∨
      (∃ call r,
        s.heap.get? x = some (.externalFuture call (.pending (some (.gatherSlot g x))) r)) ∨
      ∃ items' a', s.heap.get? x = some (.gatherFuture items' (.awaited a')) ∧
        a'.awaiter = .gatherSlot g x
  missing : ∀ g items a, s.heap.get? g = some (.gatherFuture items (.awaited a)) →
    a.results.length = items.length ∧ ∀ i : Nat, a.results[i]? = some none ↔
        ∃ x slots, a.pendingChildren.lookup x = some slots ∧ i ∈ slots

variable {op : Op}

section Coherent

variable {prompt : Prop} {ok : Vm → Op → Prop} {s : Vm} {m : Machine} {run : Option TaskId}
  {returned : HeapId → Option Value}

theorem waiter_cases {x : HeapId} {w : Awaiter} (hx : s.waiter x = some w) :
    (∃ state task, s.heap.get? x = some (.coroutine state) ∧ s.driver x = some task ∧
      task.awaiter = some w) ∨
    (∃ call r, s.heap.get? x = some (.externalFuture call (.pending (some w)) r)) ∨
    ∃ items a, s.heap.get? x = some (.gatherFuture items (.awaited a)) ∧ a.awaiter = w := by
  obtain ⟨o, ho, hw⟩ := bind_eq_some_iff.mp hx
  cases o with
  | coroutine state =>
    obtain ⟨task, htask, hw⟩ := bind_eq_some_iff.mp hw
    exact .inl ⟨state, task, ho, htask, hw⟩
  | externalFuture call state r =>
    cases state with
    | pending w' =>
      obtain rfl : w' = some w := hw
      exact .inr (.inl ⟨call, r, ho⟩)
    | _ => cases hw
  | gatherFuture items state =>
    cases state with
    | awaited a => exact .inr (.inr ⟨items, a, ho, Option.some.inj hw⟩)
    | _ => cases hw
  | list _ => cases hw
  | other => cases hw

theorem Consistent.coherent (h : Consistent returned prompt s run [] none)
    (hrun : run = s.currentTask ∨ s.readyQueue = []) : s.Coherent := by
  have hknows : ∀ {x t}, s.waiter x = some (.task t) →
      ∃ task, s.tasks.lookup t = some task ∧ task.state = .blocked x := fun hx =>
    (h.linked.knows_of_waiter hx).resolve_left id
  constructor
  case queue_nodup => exact h.scheduled.nodup
  case queue_ready =>
    intro t ht
    obtain ⟨task, htask, hready, hne⟩ := (h.scheduled.mem_queue t).mp ht
    refine ⟨?_, task, htask, hready⟩
    rcases hrun with rfl | hrun
    · exact hne
    · rw [hrun] at ht
      cases ht
  case blocked =>
    intro t task x ht hb
    obtain ⟨state, driver, -, hdriver, hw⟩ | hx := waiter_cases (h.waiter_blocked ht hb)
    · -- the awaiter of a task that was spawned is a gather
      obtain ⟨t', ht', htask⟩ := bind_eq_some_iff.mp hdriver
      obtain ⟨g, c, heq, -⟩ := h.scheduled.awaiter_slot t' driver _ htask hw
      cases heq
    · exact hx
  case awaited =>
    rintro t x (⟨call, r, hx⟩ | ⟨items, a, hx, hw⟩)
    · refine hknows ?_
      rw [Vm.waiter, hx]
      rfl
    · refine hknows ?_
      rw [Vm.waiter, hx, ← hw]
      rfl
  case registered =>
    intro call x w r hx call'
    refine ⟨fun hcall => ?_, fun hcall => ?_⟩
    · obtain ⟨w', r', hx'⟩ := (h.registered.externals call' x).mp hcall
      cases mem_unique hx hx'
      rfl
    · rw [hcall]
      exact (h.registered.externals call x).mpr ⟨w, r, hx⟩
  case pending => exact fun call x hcall => (h.registered.externals call x).mp hcall
  case driven => exact h.scheduled.driven
  case spawned =>
    intro t task ht
    refine ⟨fun hne => ?_, ?_⟩
    · obtain ⟨c, hc⟩ := h.scheduled.spawned t task ht hne
      obtain ⟨state, hcor, -⟩ := h.shaped.coroutine t task c ht hc
      exact ⟨c, state, hc, hcor⟩
    · rintro ⟨c, -, hc, -⟩ rfl
      obtain ⟨main, hmain, hnone, -⟩ := h.scheduled.main
      obtain rfl := mem_unique ht hmain
      cases hnone.symm.trans hc
  case child =>
    intro g items a hg x hx
    obtain ⟨state, task, hcor, hdriver, hw⟩ | hx := waiter_cases (h.waiter_child hg hx).1
    · obtain ⟨t, ht, htask⟩ := bind_eq_some_iff.mp hdriver
      exact .inl ⟨state, t, task, hcor, ht, htask, hw⟩
    · exact .inr hx
  case missing =>
    intro g items a hg
    obtain ⟨hslots, -⟩ := h.shaped.awaited g items a hg
    refine ⟨hslots.length, fun i => (hslots.missing i).trans ⟨?_, ?_⟩⟩
    · rintro ⟨hlt, hle | hx⟩
      · exact absurd hlt (not_lt.mpr hle)
      · exact hx
    · rintro ⟨x, slots, hx, hi⟩
      exact ⟨(hslots.slot x slots hx i hi).1, .inr ⟨x, slots, hx, hi⟩⟩

theorem Machine.Inv.not_lost (h : m.Inv returned True) (op : Op) (hcontrol : m.control = .running) :
    ¬ op.Lost m.vm := by
  intro hlost
  obtain ⟨s, control⟩ := m
  obtain rfl : control = .running := hcontrol
  obtain ⟨t, ht⟩ | ⟨-, hnot⟩ := Running.active h
  · cases op with
    | await limits v => exact nomatch ht.current.symm.trans hlost
    | _ => exact hlost.elim
  · exact hnot trivial

theorem Machine.Inv.not_panics (h : m.Inv returned True) (hroomy : m.vm.Roomy)
    (hop : op.Prompt m.vm) : ¬ m.Panics op := by
  rintro ⟨henabled, panic, s, hrun⟩
  by_cases hcollect : ∃ garbage, op = .collect garbage
  · obtain ⟨garbage, rfl⟩ := hcollect
    cases hrun
  · obtain ⟨control, s', hrun', -⟩ := perform_spec (.all True) h hroomy henabled (fun _ => hop)
      (h.not_lost op) fun garbage heq => hcollect ⟨garbage, heq⟩
    cases hrun.symm.trans hrun'

end Coherent

/-- What holds of who waits for whom while a run has not ended. -/
structure Machine.Progresses (m : Machine) : Prop where
  not_stalled : m.control ≠ .stalled
  /-- The host is asked if no task can run, and for all the calls that have no answer. -/
  yielded : ∀ calls, m.control = .yielded calls →
    (∀ t task, m.vm.tasks.lookup t = some task → ¬ task.Ready) ∧ calls ≠ [] ∧ calls.Nodup ∧
      ∀ call, call ∈ calls ↔ ∃ x w r, m.vm.heap.get? x = some (.externalFuture call (.pending w) r)
  /-- If no task can run, there are such calls, and the main task waits for one of them. -/
  main_waits : (∀ t task, m.vm.tasks.lookup t = some task → ¬ task.Ready) →
    m.vm.pendingExternals.keys ≠ [] ∧
      ∃ b, Relation.ReflTransGen m.vm.WaitsFor (.task 0) b ∧ m.vm.IsPendingCall b
  acyclic : ∀ a, ¬ Relation.TransGen m.vm.WaitsFor a a
  /-- Once all of them are settled, some task can run. -/
  answered : ∀ calls results, m.control = .yielded calls →
    (∀ call ∈ calls, call ∈ settledCalls results) →
    ∃ out s, applyFutureResults results m.vm = .ok out s ∧
      (out = .ok () → ∃ t task, t ∈ s.readyQueue ∧ s.tasks.lookup t = some task ∧ task.Ready)

section

variable {prompt : Prop} {ok : Vm → Op → Prop} {s : Vm} {m : Machine} {run : Option TaskId}
  {returned : HeapId → Option Value}

/-- Once there are no calls without an answer, somebody is ready. -/
theorem Consistent.exists_ready (h : Consistent returned prompt s none [] none)
    (hpending : ∀ call, s.pendingExternals.lookup call = none) :
    ∃ t task, t ∈ s.readyQueue ∧ s.tasks.lookup t = some task ∧ task.Ready := by
  by_contra hnone
  refine h.pending_ne_nil ?_ ((Keyed.keys_eq_nil_iff _).mpr hpending)
  refine List.eq_nil_iff_forall_not_mem.mpr fun t ht => hnone ?_
  obtain ⟨task, htask, hready, -⟩ := (h.scheduled.mem_queue t).mp ht
  exact ⟨t, task, ht, htask, hready⟩

end

def Machine.yields (m : Machine) (calls : List CallId) : Bool :=
  match m.control with
  | .yielded calls' => calls' == calls
  | _ => false

/-- In a build without checks zero follows the last number. -/
theorem succId_of_unchecked {s : Vm} {n : Nat} (h : s.checked = false) (hn : n < 2 ^ 32) :
    succId n s = .ok ((n + 1) % 2 ^ 32) s := by
  unfold succId
  split_ifs with hlt
  · rw [Nat.mod_eq_of_lt hlt]
    rfl
  · obtain rfl : n = 2 ^ 32 - 1 := by omega
    rw [get_bind_apply, h]
    rfl

/-- Calls that the host answers at once use up numbers, and leave nothing but their values. -/
theorem Machine.Reached.calls {ok : Vm → Op → Prop} {s : Vm} (h : Reached ok ⟨s, .running⟩)
    (hok : ∀ s v, ok s (.hostCall (.value v))) (hchecked : s.checked = false)
    (hlt : s.nextCallId < 2 ^ 32) (n : Nat) : ∃ stack,
    Reached ok ⟨{ s with stack, nextCallId := (s.nextCallId + n) % 2 ^ 32 }, .running⟩ := by
  induction n with
  | zero =>
    refine ⟨s.stack, ?_⟩
    rw [Nat.add_zero, Nat.mod_eq_of_lt hlt]
    exact h
  | succ n ih =>
    obtain ⟨stack, ih⟩ := ih
    set s1 : Vm := { s with stack, nextCallId := (s.nextCallId + n) % 2 ^ 32 }
    have hnext := succId_of_unchecked (s := s1) hchecked
      (Nat.mod_lt (s.nextCallId + n) (Nat.two_pow_pos 32))
    rw [Nat.mod_add_mod, Nat.add_assoc] at hnext
    have hcall : allocateCallId s1 = .ok s1.nextCallId
        { s1 with nextCallId := (s.nextCallId + (n + 1)) % 2 ^ 32 } := bind_of_ok hnext
    exact ⟨.host 0 :: stack, .step ih (hok _ (.host 0)) ⟨trivial, bind_of_ok hcall⟩⟩

/-- The state after one call that the host answers later, in a build without checks. -/
def Vm.firstCall : Vm := { Vm.new false with
  heap := (StableHeap.empty.allocate (.externalFuture 0 (.pending none) none)).2
  stack := [.ref 0]
  nextCallId := 1
  pendingExternals := AList.insert 0 0 ∅ }

end Monty.Async
