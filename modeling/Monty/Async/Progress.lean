import Mathlib.Data.Prod.Lex
import Monty.Async.Walk

/-!
# Who waits for whom

A task waits for what it is blocked on, and a gather for its pending children or the tasks that
drive them. No cycle of waiting can arise: a task is younger than the one that its gather works for,
and items come before the gathers they are in. So if no task can run, following what is waited for
ends at a future that only the host can settle.
-/

namespace Monty.Async

/-- What waits and what is waited for. -/
inductive Node
  | task (id : TaskId)
  | awaitable (id : HeapId)

/-- One thing waits for another. -/
inductive Vm.WaitsFor (s : Vm) : Node → Node → Prop
  | blocked {t : TaskId} {task : Task} {x : HeapId} : s.tasks.lookup t = some task →
      task.state = .blocked x → WaitsFor s (.task t) (.awaitable x)
  | child {g x : HeapId} {items : List HeapId} {a : AwaitedGather} :
      s.heap.get? g = some (.gatherFuture items (.awaited a)) → x ∈ a.pendingChildren →
      s.coroutineToTask.lookup x = none → WaitsFor s (.awaitable g) (.awaitable x)
  | spawned {g x : HeapId} {items : List HeapId} {a : AwaitedGather} {t : TaskId} :
      s.heap.get? g = some (.gatherFuture items (.awaited a)) → x ∈ a.pendingChildren →
      s.coroutineToTask.lookup x = some t → WaitsFor s (.awaitable g) (.task t)

/-- A future that the host has not settled. -/
def Vm.IsPendingCall (s : Vm) : Node → Prop
  | .task _ => False
  | .awaitable x => ∃ call, s.pendingExternals.lookup call = some x

variable {returned : HeapId → Option Value} {prompt : Prop} {s : Vm} {run : Option TaskId}
  (h : Consistent returned prompt s run [] none)

include h in
theorem Consistent.waiter_child {g x : HeapId} {items : List HeapId} {a : AwaitedGather}
    (hg : s.heap.get? g = some (.gatherFuture items (.awaited a))) (hx : x ∈ a.pendingChildren) :
    s.waiter x = some (.gatherSlot g x) ∧ ¬ s.done (.gatherSlot g x) := by
  refine ⟨h.linked.waiter_of_knows ⟨rfl, .inr ⟨_, hg, hx⟩⟩ nofun, ?_⟩
  rintro ⟨o, ho, hsettled⟩
  obtain rfl := Option.mem_unique hg ho
  exact hsettled

include h in
theorem Consistent.waiter_blocked {t : TaskId}
    {task : Task} {x : HeapId} (ht : s.tasks.lookup t = some task)
    (hb : task.state = .blocked x) : s.waiter x = some (.task t) :=
  h.linked.waiter_of_knows ⟨task, ht, hb⟩ nofun

/-- Each step of waiting goes to a younger task, or to an item that comes earlier. -/
def Node.key (n : Nat) (rank : HeapId → Nat) (owner : HeapId → TaskId) : Node → Nat ×ₗ Nat
  | .task t => toLex (2 * (n - t) + 1, 0)
  | .awaitable x => toLex (2 * (n - owner x), rank x)

include h in
theorem Consistent.key_lt {rank : HeapId → Nat}
    {owner : HeapId → TaskId} (ho : Ordered s rank owner) {a b : Node} (hab : s.WaitsFor a b) :
    b.key s.nextTaskId rank owner < a.key s.nextTaskId rank owner := by
  cases hab with
  | @blocked t task x ht hb =>
    have howner : owner x = t := ho.owner_eq x (.task t) (h.waiter_blocked ht hb) id
    rw [Node.key, Node.key, Prod.Lex.toLex_lt_toLex, howner]
    exact .inl (Nat.lt_succ_self _)
  | @child g x items a hg hx _ =>
    obtain ⟨hw, hnot⟩ := h.waiter_child hg hx
    have howner : owner x = owner g := ho.owner_eq x _ hw hnot
    obtain ⟨-, items', state, hg', hmem⟩ := h.shaped.slot x g x hw
    cases Option.mem_unique hg hg'
    rw [Node.key, Node.key, Prod.Lex.toLex_lt_toLex, howner]
    exact .inr ⟨rfl, ho.item_lt g items _ hg x hmem⟩
  | @spawned g x items a t hg hx ht =>
    obtain ⟨hw, hnot⟩ := h.waiter_child hg hx
    obtain ⟨task, htask, hc⟩ := (h.scheduled.driven x t).mp ht
    obtain ⟨state, hcor, -⟩ := h.shaped.coroutine t task x htask hc
    have hawaiter : task.awaiter = some (.gatherSlot g x) := by
      rw [← hw, waiter_coroutine hcor, h.scheduled.driver_eq htask hc]
      rfl
    have hlt : @LT.lt Nat _ (owner g) t := ho.lt_task t task _ htask hawaiter hnot
    have hnext : @LT.lt Nat _ t s.nextTaskId := h.scheduled.lt_next t task htask
    rw [Node.key, Node.key, Prod.Lex.toLex_lt_toLex]
    refine .inl ?_
    omega

include h in
/-- Nothing waits for itself, however long the chain. -/
theorem Consistent.waitsFor_acyclic (a : Node) : ¬ Relation.TransGen s.WaitsFor a a := by
  obtain ⟨rank, owner, ho, -⟩ := h.ordered
  have hlt : ∀ {b}, Relation.TransGen s.WaitsFor a b →
      b.key s.nextTaskId rank owner < a.key s.nextTaskId rank owner := by
    intro b hb
    induction hb with
    | single hab => exact h.key_lt ho hab
    | tail _ hbc ih => exact (h.key_lt ho hbc).trans ih
  exact fun ha => lt_irrefl _ (hlt ha)

def Vm.Waits (s : Vm) : Node → Prop
  | .task t => ∃ task, s.tasks.lookup t = some task
  | .awaitable x => (∃ w, s.waiter x = some w) ∧ s.coroutineToTask.lookup x = none

section

variable (h : Consistent returned prompt s run [] none)
  (hready : ∀ t task, s.tasks.lookup t = some task → ¬ task.Ready)
include h hready

/-- If no task is ready, whatever waits is for the host to settle, or waits for something else. -/
theorem Consistent.waits_step {a : Node} (ha : s.Waits a) :
    s.IsPendingCall a ∨ ∃ b, s.WaitsFor a b ∧ s.Waits b := by
  cases a with
  | task t =>
    obtain ⟨task, ht⟩ := ha
    cases hstate : task.state with
    | ready result => exact absurd ⟨result, hstate⟩ (hready t task ht)
    | blocked x =>
      have hx := h.waiter_blocked ht hstate
      refine .inr ⟨.awaitable x, .blocked ht hstate, ⟨_, hx⟩, ?_⟩
      -- what a task is blocked on is not a coroutine
      cases hc : s.coroutineToTask.lookup x with
      | none => rfl
      | some t' =>
        obtain ⟨task', ht', hc'⟩ := (h.scheduled.driven x t').mp hc
        obtain ⟨state, hcor, -⟩ := h.shaped.coroutine t' task' x ht' hc'
        rw [waiter_coroutine hcor, h.scheduled.driver_eq ht' hc'] at hx
        obtain ⟨g, c, hw, -⟩ := h.scheduled.awaiter_slot t' task' _ ht' hx
        cases hw
  | awaitable x =>
    obtain ⟨⟨w, hx⟩, hnone⟩ := ha
    obtain ⟨o, ho, hw⟩ := Option.bind_eq_some_iff.mp hx
    cases o with
    | externalFuture call state r =>
      cases state with
      | pending w' => exact .inl ⟨call, (h.registered.externals call x).mpr ⟨w', r, ho⟩⟩
      | _ => cases hw
    | gatherFuture items state =>
      cases state with
      | awaited a =>
        obtain ⟨y, ys, hkeys⟩ := List.exists_cons_of_ne_nil (h.shaped.awaited x items a ho).2
        have hy : y ∈ a.pendingChildren := by
          refine AList.mem_keys.mpr ?_
          rw [hkeys]
          exact List.mem_cons_self
        cases hc : s.coroutineToTask.lookup y with
        | none => exact .inr ⟨.awaitable y, .child ho hy hc, ⟨_, (h.waiter_child ho hy).1⟩, hc⟩
        | some t =>
          obtain ⟨task, ht, -⟩ := (h.scheduled.driven y t).mp hc
          exact .inr ⟨.task t, .spawned ho hy hc, task, ht⟩
      | _ => cases hw
    | coroutine state =>
      change (s.driver x).bind Task.awaiter = some w at hw
      rw [Vm.driver, hnone] at hw
      cases hw
    | list _ => cases hw
    | other => cases hw

/-- If no task is ready, whatever waits does so, in the end, for the host. -/
theorem Consistent.reaches_pendingCall {a : Node} (ha : s.Waits a) :
    ∃ b, Relation.ReflTransGen s.WaitsFor a b ∧ s.IsPendingCall b := by
  obtain ⟨rank, owner, ho, -⟩ := h.ordered
  have hwf : WellFounded fun b a : Node =>
      b.key s.nextTaskId rank owner < a.key s.nextTaskId rank owner :=
    InvImage.wf (Node.key s.nextTaskId rank owner) wellFounded_lt
  induction a using hwf.induction with
  | _ a ih =>
    obtain hcall | ⟨b, hab, hb⟩ := h.waits_step hready ha
    · exact ⟨a, .refl, hcall⟩
    · obtain ⟨c, hbc, hc⟩ := ih b (h.key_lt ho hab) hb
      exact ⟨c, .head hab hbc, hc⟩

theorem Consistent.main_waits :
    ∃ b, Relation.ReflTransGen s.WaitsFor (.task 0) b ∧ s.IsPendingCall b := by
  obtain ⟨task, ht, -⟩ := h.scheduled.main
  exact h.reaches_pendingCall hready ⟨task, ht⟩

theorem Consistent.keys_ne_nil : s.pendingExternals.keys ≠ [] := by
  obtain ⟨b, -, hb⟩ := h.main_waits hready
  cases b with
  | task t => exact hb.elim
  | awaitable x =>
    obtain ⟨call, hcall⟩ := hb
    intro hnil
    rw [(Keyed.keys_eq_nil_iff _).mp hnil] at hcall
    cases hcall

end

theorem Scheduled.not_ready (h : Scheduled s none) (hqueue : s.readyQueue = []) (t : TaskId)
    (task : Task) (ht : s.tasks.lookup t = some task) : ¬ task.Ready := by
  intro hready
  have hmem := (h.mem_queue t).mpr ⟨task, ht, hready, nofun⟩
  rw [hqueue] at hmem
  cases hmem

theorem Consistent.pending_ne_nil (h : Consistent returned prompt s none [] none)
    (hqueue : s.readyQueue = []) : s.pendingExternals.keys ≠ [] :=
  h.keys_ne_nil (h.scheduled.not_ready hqueue)

end Monty.Async
