import Monty.Async.Commit

/-!
# The walk of a commit, and `await`

The loop that commits a gather goes through the items of the frame on top, and every way it can take
is a transition that keeps the state consistent. It ends, since each gather is opened once. If all
of the gather's children have values the gather has one at once; if not, the task blocks and another
one goes on.
-/

namespace Monty.Async

open Fallible List Option StableHeap GatherCommit

/-! ## What a commit leaves alone -/

/-- Objects may have changed, and tasks been spawned; no task is changed. -/
structure Kept (returned : HeapId → Option Value) (s s' : Vm) : Prop where
  later : Later returned s s'
  tasks : ∀ t task, s.tasks.lookup t = some task → s'.tasks.lookup t = some task
  currentTask : s'.currentTask = s.currentTask
  rootParked : s'.rootParked = s.rootParked
  suspendedFrames : s'.suspendedFrames = s.suspendedFrames
  pendingExternals : s'.pendingExternals = s.pendingExternals
  nextCallId : s'.nextCallId = s.nextCallId
  roomy : s.Roomy → s'.Roomy

/-- What may have happened while gathers are committed, as long as that does not fail. -/
structure Committed (returned : HeapId → Option Value) (s s' : Vm) : Prop
    extends Kept returned s s' where
  pending : ∀ g items, s'.heap.get? g = some (.gatherFuture items .pending) →
    s.heap.get? g = some (.gatherFuture items .pending)
  failed : ∀ x error, s'.failure x = some error → s.failure x = some error

variable {returned : HeapId → Option Value} {s s' s'' : Vm}

theorem Kept.refl (s : Vm) : Kept returned s s :=
  ⟨.refl s, fun _ _ h => h, rfl, rfl, rfl, rfl, rfl, id⟩

theorem Kept.trans (h : Kept returned s s') (h' : Kept returned s' s'') : Kept returned s s'' where
  later := h.later.trans h'.later
  tasks := fun t task ht => h'.tasks t task (h.tasks t task ht)
  currentTask := h'.currentTask.trans h.currentTask
  rootParked := h'.rootParked.trans h.rootParked
  suspendedFrames := h'.suspendedFrames.trans h.suspendedFrames
  pendingExternals := h'.pendingExternals.trans h.pendingExternals
  nextCallId := h'.nextCallId.trans h.nextCallId
  roomy := fun hroomy => h'.roomy (h.roomy hroomy)

/-- An object changes that does not become a coroutine to be started. -/
theorem Kept.of_put {x : HeapId} {o : Obj} (hl : Later returned s s') (hget : s.Put s' x o)
    (hnew : o ≠ .coroutine .new) (hs : s' = { s with heap := s'.heap }) : Kept returned s s' := by
  refine ⟨hl, fun t task ht => ?_, ?_, ?_, ?_, ?_, ?_, fun ⟨⟨coroutines, hmem, hlt⟩, hcalls⟩ => ?_⟩
  · rw [hs]
    exact ht
  · rw [hs]
  · rw [hs]
  · rw [hs]
  · rw [hs]
  · rw [hs]
  refine ⟨⟨coroutines, fun y hy hfree => ?_, ?_⟩, ?_⟩
  · rw [hget] at hy
    rw [hs] at hfree
    split_ifs at hy
    · exact absurd (Option.some.inj hy) hnew
    · exact hmem y hy hfree
  · rw [hs]
    exact hlt
  · rw [hs]
    exact hcalls

theorem Committed.refl (s : Vm) : Committed returned s s :=
  ⟨.refl s, fun _ _ h => h, fun _ _ h => h⟩

theorem Committed.trans (h : Committed returned s s') (h' : Committed returned s' s'') :
    Committed returned s s'' where
  toKept := h.toKept.trans h'.toKept
  pending := fun g items hg => h.pending g items (h'.pending g items hg)
  failed := fun x error hx => h.failed x error (h'.failed x error hx)

theorem Committed.failure_eq (h : Committed returned s s') (x : HeapId) :
    s'.failure x = s.failure x := by
  cases hx : s.failure x with
  | some error => rw [Vm.failure, h.later.get?_of_failure hx, ← hx, Vm.failure]
  | none =>
    refine Option.eq_none_iff_forall_ne_some.mpr fun error hx' => ?_
    exact nomatch hx.symm.trans (h.failed x error hx')

/-- An object changes that is not to be committed or started, and has not failed. -/
theorem Committed.of_put {x : HeapId} {o : Obj} (hl : Later returned s s') (hget : s.Put s' x o)
    (hpending : ∀ items, o ≠ .gatherFuture items .pending) (hfailed : o.failure = none)
    (hnew : o ≠ .coroutine .new) (hs : s' = { s with heap := s'.heap }) :
    Committed returned s s' := by
  refine ⟨.of_put hl hget hnew hs, fun g items hg => ?_, fun y error hy => ?_⟩
  · rw [hget] at hg
    split_ifs at hg
    · exact absurd (Option.some.inj hg) (hpending items)
    · exact hg
  · rw [Vm.failure, hget] at hy
    split_ifs at hy
    · exact nomatch hfailed.symm.trans hy
    · exact hy

/-- The commit of the gathers is given up: these fail, and nothing else happens. -/
structure Abandoned (returned : HeapId → Option Value) (error : RunError) (gathers : List HeapId)
    (s s' : Vm) : Prop where
  kept : Kept returned s s'
  failed : ∀ g ∈ gathers, ∃ items, s.heap.get? g = some (.gatherFuture items .pending) ∧
    s'.heap.get? g = some (.gatherFuture items (.failed error))
  others : ∀ y, y ∉ gathers → s'.heap.get? y = s.heap.get? y
  coroutineToTask : s'.coroutineToTask = s.coroutineToTask

/-! ## Frames inside each other -/

/-- The gather of a frame is the next item of the one below. -/
structure Inside (s : Vm) (f parent : GatherCommit) : Prop where
  awaiter : f.awaiter = .gatherSlot parent.gather f.gather
  parentSlot : f.parentSlot = some parent.next
  fresh : parent.pendingChildren.lookup f.gather = none
  item : ∃ items, s.heap.get? parent.gather = some (.gatherFuture items .pending) ∧
    items[parent.next]? = some f.gather

/-- The frames of a commit, innermost first. -/
inductive Nested (s : Vm) (root : HeapId) (awaiter : Awaiter) : List GatherCommit → Prop
  | root {f : GatherCommit} : f.gather = root → f.awaiter = awaiter → f.parentSlot = none →
      Nested s root awaiter [f]
  | inside {f parent : GatherCommit} {below : List GatherCommit} : Inside s f parent →
      Nested s root awaiter (parent :: below) → Nested s root awaiter (f :: parent :: below)

/-- Awaitables, each of them an item of the one that follows, which is a gather to be committed. No
item before it has failed. -/
def Vm.Path (s : Vm) (awaitables : List HeapId) : Prop := awaitables.IsChain fun x g => ∃ items i,
    s.heap.get? g = some (.gatherFuture items .pending) ∧ items[i]? = some x ∧
      ∀ y ∈ items.take i, s.failure y = none

variable {prompt : Prop} {root : HeapId} {f f' parent : GatherCommit}
  {below stack stack' : List GatherCommit}

section

/-! ## Items that are taken -/

theorem failure_of_value {x : HeapId} {v : Value} (h : s.value returned x = some v) :
    s.failure x = none := by
  obtain ⟨o, ho, hv⟩ := Option.bind_eq_some_iff.mp h
  rw [Vm.failure, ho]
  unfold Obj.value at hv
  split at hv
  · rfl
  · rfl
  · rfl
  · cases hv

theorem failure_of_waiter {x : HeapId} {w : Awaiter} (h : s.waiter x = some w) :
    s.failure x = none := by
  obtain ⟨o, ho, hw⟩ := Option.bind_eq_some_iff.mp h
  rw [Vm.failure, ho]
  unfold Vm.objWaiter at hw
  split at hw
  · rfl
  · rfl
  · rfl
  · cases hw

/-- Items that are taken have values or are waited for. -/
theorem Slots.failure_eq_none {items : List HeapId} {results : List (Option Value)}
    {pending : PendingChildren} {n : Nat} (h : Slots (s.value returned) items results pending n)
    (hpending : ∀ y ∈ pending, ∃ w, s.waiter y = some w) :
    ∀ y ∈ items.take n, s.failure y = none := by
  intro y hy
  obtain ⟨i, hi, hy⟩ := List.mem_take_iff_getElem.mp hy
  obtain ⟨hn, hlen⟩ := Nat.lt_min.mp hi
  have hitem : items[i]? = some y := by rw [List.getElem?_eq_getElem hlen, hy]
  have hres : i < results.length := by rw [h.length]; exact hlen
  cases hr : results[i] with
  | none =>
    have hmissing := (h.missing i).mp (by rw [List.getElem?_eq_getElem hres, hr])
    obtain ⟨x, slots, hx, hmem⟩ := hmissing.2.resolve_left (Nat.not_le.mpr hn)
    obtain rfl := Option.some.inj (hitem.symm.trans (h.slot x slots hx i hmem).2)
    obtain ⟨w, hw⟩ := hpending y (AList.lookup_isSome.mp (by rw [hx]; rfl))
    exact failure_of_waiter hw
  | some v =>
    obtain ⟨x, hx, hv⟩ := h.filled i v (by rw [List.getElem?_eq_getElem hres, hr])
    obtain rfl := Option.some.inj (hitem.symm.trans hx)
    exact failure_of_value hv

theorem Consistent.failure_eq_none {run : Option TaskId} {f : GatherCommit} {items : List HeapId}
    (h : Consistent returned prompt s run stack none) (hf : f ∈ stack)
    (hitems : s.heap.get? f.gather = some (.gatherFuture items .pending)) :
    ∀ y ∈ items.take f.next, s.failure y = none := by
  obtain ⟨items', hitems', hslots⟩ := (h.committing f hf).frame
  cases mem_unique hitems hitems'
  exact hslots.failure_eq_none fun y hy =>
    ⟨_, h.linked.waiter_of_knows (w := .gatherSlot f.gather y) ⟨rfl, .inl ⟨f, hf, rfl, hy⟩⟩ nofun⟩

variable {run : Option TaskId} {awaiter : Awaiter}

theorem Nested.later (h : Nested s root awaiter stack) (hl : Later returned s s')
    (hpending : ∀ f ∈ stack, ∃ items, s'.heap.get? f.gather = some (.gatherFuture items .pending)) :
    Nested s' root awaiter stack := by
  induction h with
  | root hg hw hs => exact .root hg hw hs
  | inside hin _ ih =>
    refine .inside ⟨hin.awaiter, hin.parentSlot, hin.fresh, ?_⟩
      (ih fun f hf => hpending f (mem_cons_of_mem _ hf))
    obtain ⟨items, hitems, hnext⟩ := hin.item
    obtain ⟨items', hitems'⟩ := hpending _ (mem_cons_of_mem _ mem_cons_self)
    obtain ⟨state, hstate⟩ := hl.gather hitems
    cases mem_unique hitems' hstate
    exact ⟨items, hitems', hnext⟩

/-- The frame on top may have taken more items. -/
theorem Nested.setTop (h : Nested s root awaiter (f :: below)) (hgather : f'.gather = f.gather)
    (hawaiter : f'.awaiter = f.awaiter) (hslot : f'.parentSlot = f.parentSlot) :
    Nested s root awaiter (f' :: below) := by
  cases h with
  | root hg hw hs => exact .root (hgather.trans hg) (hawaiter.trans hw) (hslot.trans hs)
  | inside hin hbelow =>
    refine .inside ⟨?_, hslot.trans hin.parentSlot, hgather ▸ hin.fresh, ?_⟩ hbelow
    · rw [hawaiter, hgather]
      exact hin.awaiter
    · rw [hgather]
      exact hin.item

theorem Nested.getLast (h : Nested s root awaiter stack) :
    (stack.map gather).getLast? = some root := by
  induction h with
  | root hg _ _ => rw [map_singleton, List.getLast?_singleton, hg]
  | inside _ _ ih => exact ih

theorem Nested.path (h : Nested s root awaiter stack)
    (hc : Consistent returned prompt s run stack' none) (hstack : ∀ f ∈ stack, f ∈ stack') :
    s.Path (stack.map gather) := by
  induction h with
  | root => exact .singleton _
  | inside hin _ ih =>
    obtain ⟨items, hitems, hnext⟩ := hin.item
    have hparent := hstack _ (mem_cons_of_mem _ mem_cons_self)
    exact .cons_cons ⟨items, _, hitems, hnext, hc.failure_eq_none hparent hitems⟩
      (ih fun f hf => hstack f (mem_cons_of_mem _ hf))

/-- The items of the frame on top come before all gathers on the stack. -/
theorem Nested.rank_lt {rank : HeapId → Nat} {owner : HeapId → TaskId} (ho : Ordered s rank owner)
    (h : Nested s root awaiter stack) : ∀ {f below}, stack = f :: below →
    ∀ f1 ∈ stack, rank f.gather ≤ rank f1.gather := by
  induction h with
  | root =>
    rintro f below ⟨⟩ f1 hf1
    rw [mem_singleton.mp hf1]
  | inside hin _ ih =>
    rintro f below ⟨⟩ f1 hf1
    rcases mem_cons.mp hf1 with rfl | hf1
    · exact le_rfl
    · obtain ⟨items, hitems, hnext⟩ := hin.item
      have hlt := ho.item_lt _ _ _ hitems _ (mem_of_getElem? hnext)
      exact hlt.le.trans (ih rfl f1 hf1)

end

/-! ## One item -/

/-- A frame that has just been opened. -/
structure Opened (returned : HeapId → Option Value) (s : Vm) (f : GatherCommit) : Prop where
  children : f.pendingChildren = ∅
  gather : ∃ items, s.heap.get? f.gather = some (.gatherFuture items .pending) ∧
    Slots (s.value returned) items f.results f.pendingChildren f.next

variable {t : TaskId} {x : HeapId} {items : List HeapId} {state : ExternalFutureState}
  {r : Option Value} {call : CallId} (h : Consistent returned prompt s (some t) (f :: below) none)
  (hf : s.heap.get? f.gather = some (.gatherFuture items .pending))

theorem openGatherCommit_eq (returned : HeapId → Option Value) (awaiter : Awaiter)
    (parentSlot : Option Nat) (hx : s.heap.get? x = some (.gatherFuture items .pending)) :
    ∃ f, openGatherCommit x awaiter parentSlot s = .ok f s ∧ f.gather = x ∧ f.awaiter = awaiter ∧
      f.parentSlot = parentSlot ∧ Opened returned s f := by
  refine ⟨⟨x, awaiter, parentSlot, 0, .replicate items.length none, ∅⟩, ?_, rfl, rfl, rfl, rfl,
    items, hx, .start _ items⟩
  rw [openGatherCommit, bind_of_ok (readGather_eq hx)]
  rfl

/-- What an item raises when its gather is committed, if it cannot be waited for: the error that it
has failed with, or that it is waited for already. -/
def Vm.refusal (s : Vm) (x : HeapId) : Option RunError :=
  match s.heap.get? x with
  | some (.coroutine .new) => (s.coroutineToTask.lookup x).map fun _ => .cannotReuseCoroutine
  | some (.coroutine _) => some .cannotReuseCoroutine
  | some (.externalFuture _ (.pending (some _)) _) => some .cannotReuseFuture
  | some (.gatherFuture _ (.awaited _)) => some .cannotReuseGather
  | some o => o.failure
  | none => none

theorem awaitExternalFuture_cases
    (w : Awaiter) (hx : s.heap.get? x = some (.externalFuture call state r)) :
    (∃ v, state = .resolved v ∧ awaitExternalFuture x w s = .ok (.ok (.ready v)) s) ∨
      (∃ error, s.refusal x = some error ∧ awaitExternalFuture x w s = .ok (.error error) s) ∨
      (state = .pending none ∧ awaitExternalFuture x w s = .ok (.ok .pending)
        { s with heap := s.heap.set x (.externalFuture call (.pending (some w)) r) }) := by
  rw [awaitExternalFuture, bind_of_ok (read_eq hx), Vm.refusal, hx]
  cases state with
  | resolved v => exact .inl ⟨v, rfl, rfl⟩
  | failed error => exact .inr (.inl ⟨error, rfl, rfl⟩)
  | pending awaiter =>
    cases awaiter with
    | some w' => exact .inr (.inl ⟨.cannotReuseFuture, rfl, rfl⟩)
    | none => exact .inr (.inr ⟨rfl, rfl⟩)

/-- What polling the next item of the frame on top comes to. -/
inductive Polled (returned : HeapId → Option Value) (prompt : Prop) (s : Vm) (t : TaskId)
    (f : GatherCommit) (below : List GatherCommit) (x : HeapId) :
    Except RunError (Poll ⊕ GatherCommit) → Vm → Prop
  | error {error : RunError} : s.refusal x = some error →
      Polled returned prompt s t f below x (.error error) s
  | taken {poll : Poll} {s' : Vm} : Committed returned s s' →
      Consistent returned prompt s' (some t) (f.resumeAfterChild x f.next poll :: below) none →
      Polled returned prompt s t f below x (.ok (.inl poll)) s'
  | nested {nested : GatherCommit} : nested.gather = x → Inside s nested f →
      Opened returned s nested → Polled returned prompt s t f below x (.ok (.inr nested)) s

include hf in
theorem Committing.pend (hslots : Slots (s.value returned) items f.results f.pendingChildren f.next)
    (hx : items[f.next]? = some x) (hnone : f.pendingChildren.lookup x = none) :
    Committing returned s (f.resumeAfterChild x f.next .pending) := by
  have hslots' : Slots (s.value returned) items f.results
      (f.pendingChildren.insert x ([] ++ [f.next])) (f.next + 1) :=
    hslots.pend hx (by simp) fun old hold => nomatch hnone.symm.trans hold
  exact ⟨items, hf, hslots'⟩

include h hf in
theorem pollItem_spec (hroomy : s.Roomy) (hx : items[f.next]? = some x)
    (hnone : f.pendingChildren.lookup x = none) :
    Succeeds (pollItem f x) s (Polled returned prompt s t f below x) := by
  obtain ⟨items', hf', hslots⟩ := (h.committing f mem_cons_self).frame
  cases mem_unique hf hf'
  have hmem := mem_of_getElem? hx
  obtain ⟨o, ho, hawaitable⟩ := h.shaped.item f.gather items _ hf x hmem
  have hready : ∀ v, s.value returned x = some v →
      Polled returned prompt s t f below x (.ok (.inl (.ready v))) s := by
    intro v hv
    exact .taken (.refl s) (h.setFrame rfl (fun _ => .rfl) ⟨items, hf, hslots.ready hx hv⟩)
  have hpend := Committing.pend hf hslots hx hnone
  refine .bind_of_eq (read_eq ho) ?_
  cases o with
  | coroutine state =>
    cases state with
    | new =>
      cases hc : s.coroutineToTask.lookup x with
      | some t' =>
        have hspawn : spawn x (some f.gather) s = .ok none s := by
          rw [spawn, get_bind_apply, hc]
          rfl
        exact .bind_of_eq hspawn (.pure (.error (by rw [Vm.refusal, ho, hc]; rfl)))
      | none =>
        refine .bind_of_eq (spawn_eq hc (hroomy.next_lt ho hc)) (.pure (.taken ?_ ?_))
        · refine ⟨⟨.of_eq rfl, fun t' task ht' => ?_, rfl, rfl, rfl, rfl, rfl, fun hroomy => ?_⟩,
            fun _ _ hg => hg, fun _ _ hx => hx⟩
          · exact (h.scheduled.lookup_old ht').2
          · exact hroomy.withChild ho hc
        · exact h.spawnChild ho hc ⟨items, _, hf, hmem⟩ rfl rfl hpend
    | running => exact .pure (.error (by rw [Vm.refusal, ho]))
    | completed => exact .pure (.error (by rw [Vm.refusal, ho]))
  | externalFuture call state r =>
    obtain ⟨v, rfl, hrun⟩ | ⟨error, hrefusal, hrun⟩ | ⟨rfl, hrun⟩ :=
      awaitExternalFuture_cases (.gatherSlot f.gather x) ho
    · refine .bind_of_eq hrun (.pure (hready v ?_))
      rw [Vm.value, ho]
      rfl
    · exact .bind_of_eq hrun (.pure (.error hrefusal))
    · obtain ⟨h', hl⟩ := h.attachExternal ho ⟨items, _, hf, hmem⟩ hpend rfl rfl
      refine .bind_of_eq hrun (.pure (.taken ?_ h'))
      exact .of_put hl (get?_set ho _) (by rintro _ ⟨⟩) rfl (by rintro ⟨⟩) rfl
  | gatherFuture items' state =>
    cases state with
    | completed v =>
      refine .pure (hready v ?_)
      rw [Vm.value, ho]
      rfl
    | failed error => exact .pure (.error (by rw [Vm.refusal, ho]; rfl))
    | awaited a => exact .pure (.error (by rw [Vm.refusal, ho]))
    | pending =>
      obtain ⟨nested, hrun, hgather, hawaiter, hslot, hopened⟩ :=
        openGatherCommit_eq returned (.gatherSlot f.gather x) (some f.next) ho
      refine .bind_of_eq hrun (.pure (.nested hgather ?_ hopened))
      exact ⟨by rw [hawaiter, hgather], hslot, by rw [hgather]; exact hnone,
        items, hf, by rw [hgather]; exact hx⟩
  | list _ => cases hawaitable
  | other => cases hawaitable

theorem Consistent.pending_frame {run : Option TaskId} {loose : Option (Awaiter × HeapId)}
    (h : Consistent returned prompt s run stack loose) : ∀ f ∈ stack,
    ∃ items, s.heap.get? f.gather = some (.gatherFuture items .pending) := by
  intro f hf
  obtain ⟨items, hitems, -⟩ := (h.committing f hf).frame
  exact ⟨items, hitems⟩

/-- What the walk through the items of the frame on top comes to. -/
structure Stepped (returned : HeapId → Option Value) (prompt : Prop) (s : Vm) (t : TaskId)
    (f : GatherCommit) (below : List GatherCommit) (items : List HeapId) (f' : GatherCommit)
    (out : Except RunError (Option GatherCommit)) (s' : Vm) : Prop where
  consistent : Consistent returned prompt s' (some t) (f' :: below) none
  committed : Committed returned s s'
  gather : f'.gather = f.gather
  awaiter : f'.awaiter = f.awaiter
  parentSlot : f'.parentSlot = f.parentSlot
  done : out = .ok none → f'.next = items.length
  nested : ∀ f1, out = .ok (some f1) → Inside s' f1 f' ∧ Opened returned s' f1
  refused : ∀ error, out = .error error →
    ∃ x, items[f'.next]? = some x ∧ s'.refusal x = some error

theorem Stepped.after {s'' : Vm} {f1 f' : GatherCommit}
    {out : Except RunError (Option GatherCommit)}
    (h : Stepped returned prompt s' t f1 below items f' out s'') (hc : Committed returned s s')
    (hgather : f1.gather = f.gather) (hawaiter : f1.awaiter = f.awaiter)
    (hslot : f1.parentSlot = f.parentSlot) : Stepped returned prompt s t f below items f' out s'' :=
  { h with
    committed := hc.trans h.committed
    gather := h.gather.trans hgather
    awaiter := h.awaiter.trans hawaiter
    parentSlot := h.parentSlot.trans hslot }

theorem GatherCommit.resumeAfterChild_same (f : GatherCommit) (x : HeapId) (i : Nat) (poll : Poll) :
    (f.resumeAfterChild x i poll).gather = f.gather ∧
      (f.resumeAfterChild x i poll).awaiter = f.awaiter ∧
      (f.resumeAfterChild x i poll).parentSlot = f.parentSlot := by
  cases poll <;> exact ⟨rfl, rfl, rfl⟩

/-- Each item is taken, until one fails or is a gather to be committed first. -/
theorem stepItems_spec (n : Nat) : ∀ {s : Vm} {f : GatherCommit},
    Consistent returned prompt s (some t) (f :: below) none → s.Roomy →
    s.heap.get? f.gather = some (.gatherFuture items .pending) → f.next + n = items.length →
    Succeeds (stepItems items n f) s fun out s' =>
      Stepped returned prompt s t f below items out.1 out.2 s' := by
  induction n with
  | zero =>
    intro s f h _ hf hn
    exact .pure ⟨h, .refl s, rfl, rfl, rfl, fun _ => hn, nofun, nofun⟩
  | succ n ih =>
    intro s f h hroomy hf hn
    have hlt : f.next < items.length := by omega
    have hx : items[f.next]? = some items[f.next] := List.getElem?_eq_getElem hlt
    set x := items[f.next]
    rw [stepItems]
    simp only [hx]
    cases hold : f.pendingChildren.lookup x with
    | some slots =>
      obtain ⟨items', hf', hslots⟩ := (h.committing f mem_cons_self).frame
      cases mem_unique hf hf'
      have h' : Consistent returned prompt s (some t) (f.addSlot x slots :: below) none := by
        refine h.setFrame rfl (fun y => ?_) ⟨items, hf, ?_⟩
        · change y ∈ f.pendingChildren.insert x (slots ++ [f.next]) ↔ _
          rw [AList.mem_insert]
          refine ⟨?_, .inr⟩
          rintro (rfl | hy)
          · exact AList.lookup_isSome.mp (by rw [hold]; rfl)
          · exact hy
        · refine hslots.pend hx (fun i hi => ⟨slots, hold, hi⟩) fun old hold' i hi => ?_
          cases hold.symm.trans hold'
          exact hi
      refine (ih h' hroomy hf (by change f.next + 1 + n = _; omega)).mono fun out s' hst => ?_
      exact hst.after (.refl s) rfl rfl rfl
    | none =>
      refine (pollItem_spec h hf hroomy hx hold).bind fun out s' hpolled => ?_
      cases hpolled with
      | error hrefusal =>
        refine .pure ⟨h, .refl s, rfl, rfl, rfl, nofun, nofun, ?_⟩
        rintro error ⟨⟩
        exact ⟨x, hx, hrefusal⟩
      | @taken poll s' hc h' =>
        obtain ⟨hgather, hawaiter, hslot⟩ := f.resumeAfterChild_same x f.next poll
        have hnext : (f.resumeAfterChild x f.next poll).next = f.next + 1 := by cases poll <;> rfl
        obtain ⟨items', hf', -⟩ := (h'.committing _ mem_cons_self).frame
        rw [hgather] at hf'
        obtain ⟨state, hstate⟩ := hc.later.gather hf
        cases mem_unique hf' hstate
        refine (ih h' (hc.roomy hroomy) (by rw [hgather]; exact hf') (by rw [hnext]; omega)).mono
          fun out s'' hst => ?_
        exact hst.after hc hgather hawaiter hslot
      | @nested f1 hgather hin hopened =>
        refine .pure ⟨h, .refl s, rfl, rfl, rfl, nofun, ?_, nofun⟩
        rintro f2 ⟨⟩
        exact ⟨hin, hopened⟩

include h in
theorem stepGatherCommit_spec (hroomy : s.Roomy) :
    ∃ items, s.heap.get? f.gather = some (.gatherFuture items .pending) ∧
      Succeeds (stepGatherCommit f) s fun out s' =>
        Stepped returned prompt s t f below items out.1 out.2 s' := by
  obtain ⟨items, hf, hslots⟩ := (h.committing f mem_cons_self).frame
  refine ⟨items, hf, .bind_of_eq (readGather_eq hf) (stepItems_spec _ h hroomy hf ?_)⟩
  rw [hslots.length]
  exact Nat.add_sub_cancel' hslots.le

/-! ## The loop -/

/-- There are no more than `n` gathers that may still be opened. -/
def Vm.PendingWithin (s : Vm) (stack : List GatherCommit) (n : Nat) : Prop :=
  ∃ gathers : Finset HeapId, gathers.card ≤ n ∧
    ∀ g items, s.heap.get? g = some (.gatherFuture items .pending) →
      (∀ f ∈ stack, f.gather ≠ g) → g ∈ gathers

/-- A limit is reached while a gather is committed. -/
def Limits.Raises (limits : Limits) (error : RunError) : Prop :=
  (∃ n, limits.checkMemoryTimeEvery n = some error) ∨
    ∃ n, limits.checkCommitStackGrowth n = some error

/-- Why the commit of the gathers on a path fails: a limit is reached, or an item of the first one
cannot be waited for. -/
def CommitFailure (limits : Limits) (s s' : Vm) (path : List HeapId) (error : RunError) : Prop :=
  limits.Raises error ∨ ∃ x, s.Path (x :: path) ∧ s'.refusal x = some error

/-- What committing a gather comes to. If children are left, it is awaited by the task, which has to
block: that is what `s1` is for. -/
inductive CommitOutcome (limits : Limits) (returned : HeapId → Option Value)
    (prompt : Prop) (s : Vm) (t : TaskId) (root : HeapId) : Except RunError Poll → Vm → Prop
  | failed {error : RunError} {s1 s' : Vm} {gathers : List HeapId} :
      Consistent returned prompt s' (some t) [] none → Committed returned s s1 →
      s1.Path gathers → gathers.getLast? = some root → Abandoned returned error gathers s1 s' →
      CommitFailure limits s1 s' gathers error →
      CommitOutcome limits returned prompt s t root (.error error) s'
  | ready {items : List HeapId} {v : Value} {s' : Vm} :
      Consistent returned prompt s' (some t) [] none → Committed returned s s' →
      s'.heap.get? root = some (.gatherFuture items (.completed v)) →
      CommitOutcome limits returned prompt s t root (.ok (.ready v)) s'
  | pending {s1 s' : Vm} {f : GatherCommit} {items : List HeapId} :
      Consistent returned prompt s1 (some t) [f] none → Committed returned s s1 → f.gather = root →
      s1.heap.get? root = some (.gatherFuture items .pending) →
      Slots (s1.value returned) items f.results f.pendingChildren items.length →
      f.pendingChildren.keys ≠ [] →
      s' = { s1 with
        heap := s1.heap.set root (.gatherFuture items
          (.awaited ⟨.task t, f.pendingChildren, f.results⟩)) } →
      CommitOutcome limits returned prompt s t root (.ok .pending) s'

section Loop

variable {limits : Limits} {error : RunError} {n : Nat}

theorem CommitOutcome.after {out : Except RunError Poll}
    (h : CommitOutcome limits returned prompt s' t root out s'') (hc : Committed returned s s') :
    CommitOutcome limits returned prompt s t root out s'' := by
  cases h with
  | failed h hc' hpath hroot hab hwhy => exact .failed h (hc.trans hc') hpath hroot hab hwhy
  | ready h hc' hroot => exact .ready h (hc.trans hc') hroot
  | pending h hc' hf hroot hslots hchildren hs =>
    exact .pending h (hc.trans hc') hf hroot hslots hchildren hs

theorem Vm.PendingWithin.mono (h : s.PendingWithin stack n)
    (hpending : ∀ g items, s'.heap.get? g = some (.gatherFuture items .pending) →
      (∀ f ∈ stack', f.gather ≠ g) →
      s.heap.get? g = some (.gatherFuture items .pending) ∧ ∀ f ∈ stack, f.gather ≠ g) :
    s'.PendingWithin stack' n := by
  obtain ⟨gathers, hcard, hmem⟩ := h
  refine ⟨gathers, hcard, fun g items hg hstack => ?_⟩
  obtain ⟨hg', hstack'⟩ := hpending g items hg hstack
  exact hmem g items hg' hstack'

theorem Vm.PendingWithin.open (h : s.PendingWithin stack n)
    (hf : s.heap.get? f.gather = some (.gatherFuture items .pending))
    (hnew : ∀ f1 ∈ stack, f1.gather ≠ f.gather) :
    ∃ m, n = m + 1 ∧ s.PendingWithin (f :: stack) m := by
  obtain ⟨gathers, hcard, hmem⟩ := h
  have hf' := hmem _ _ hf hnew
  have hpos := Finset.card_pos.mpr ⟨_, hf'⟩
  refine ⟨n - 1, by omega, gathers.erase f.gather, ?_, fun g items hg hstack => ?_⟩
  · rw [Finset.card_erase_of_mem hf']
    omega
  · refine Finset.mem_erase.mpr ⟨(hstack f mem_cons_self).symm, hmem g items hg fun f1 hf1 => ?_⟩
    exact hstack f1 (mem_cons_of_mem _ hf1)

theorem unwindGatherCommits_spec (error : RunError) (stack : List GatherCommit) : ∀ {s : Vm},
    Consistent returned prompt s (some t) stack none →
    Succeeds (unwindGatherCommits error stack) s fun _ s' =>
      Consistent returned prompt s' (some t) [] none ∧
        Abandoned returned error (stack.map gather) s s' := by
  induction stack with
  | nil => exact fun h => .pure ⟨h, .refl _, by simp, fun _ _ => rfl, rfl⟩
  | cons f stack ih =>
    intro s h
    obtain ⟨items, hf, -⟩ := (h.committing f mem_cons_self).frame
    obtain ⟨hnew, -⟩ := nodup_cons.mp h.distinct
    set s1 : Vm := s.put f.gather (.gatherFuture items (.failed error))
    have hget := get?_set hf (.gatherFuture items (.failed error))
    have hsettled : (Obj.gatherFuture items (.failed error)).isSettled := trivial
    obtain ⟨h1, hl1⟩ := h.settleFrame hf hsettled nofun
    refine .bind_of_eq (readGather_eq hf) (.bind_of_eq (setObj_eq ..) ?_)
    have hkept : Kept returned s s1 := .of_put hl1 hget nofun rfl
    refine (ih h1).mono fun _ s' ⟨h', hab⟩ =>
      ⟨h', hkept.trans hab.kept, ?_, ?_, hab.coroutineToTask⟩
    · intro g hg
      rcases mem_cons.mp hg with rfl | hg
      · exact ⟨items, hf, (hab.others _ hnew).trans ((hget _).trans (if_pos rfl))⟩
      obtain ⟨items', hg1, hg'⟩ := hab.failed g hg
      have hne : g ≠ f.gather := by
        rintro rfl
        exact hnew hg
      exact ⟨items', ((hget g).trans (if_neg hne)).symm.trans hg1, hg'⟩
    · intro y hy
      rw [map_cons, mem_cons, not_or] at hy
      obtain ⟨hne, hy⟩ := hy
      exact (hab.others y hy).trans ((hget y).trans (if_neg hne))

theorem abandonCommit_spec {s0 : Vm} (hc : Committed returned s0 s)
    (h : Consistent returned prompt s (some t) (f :: below) none)
    (hnested : Nested s root (.task t) (f :: below))
    (hwhy : limits.Raises error ∨ ∃ items x,
      s.heap.get? f.gather = some (.gatherFuture items .pending) ∧ items[f.next]? = some x ∧
      s.refusal x = some error) :
    Succeeds (abandonCommit error (f :: below)) s
      (CommitOutcome limits returned prompt s0 t root) := by
  have hpath := hnested.path h fun _ => id
  refine (unwindGatherCommits_spec error _ h).bind fun _ s' ⟨h', hab⟩ =>
    .pure (.failed h' hc hpath hnested.getLast hab (hwhy.imp_right ?_))
  rintro ⟨items, x, hf, hx, hrefusal⟩
  refine ⟨x, .cons_cons ⟨items, _, hf, hx, h.failure_eq_none mem_cons_self hf⟩ hpath, ?_⟩
  -- the item comes before all gathers on the stack, so that it has not changed
  obtain ⟨rank, owner, ho, -⟩ := h.ordered
  have hlt := ho.item_lt _ _ _ hf x (mem_of_getElem? hx)
  have hnot : x ∉ (f :: below).map gather := by
    intro hmem
    obtain ⟨f1, hf1, rfl⟩ := mem_map.mp hmem
    exact absurd hlt (not_lt.mpr (hnested.rank_lt ho rfl f1 hf1))
  rw [Vm.refusal, hab.others x hnot, hab.coroutineToTask]
  exact hrefusal

include h hf in
/-- A frame of which all children have values is done. -/
theorem cacheFrame_spec
    (hslots : Slots (s.value returned) items f.results f.pendingChildren items.length)
    (hnone : f.pendingChildren.keys = []) :
    Succeeds (cacheResult f.gather items f.results) s fun v s' =>
      Consistent returned prompt s' (some t) below none ∧ Committed returned s s' ∧
        s'.heap.get? f.gather = some (.gatherFuture items (.completed v)) := by
  obtain ⟨id, values, heap, -, hget1, hrun, hf1, h1, hl1, hcomplete⟩ :=
    h.listResults hf hslots hnone
  set s1 : Vm := { s with heap }
  have hget2 := get?_set hf1 (.gatherFuture items (.completed (.ref id)))
  have hsettled : (Obj.gatherFuture items (.completed (.ref id))).isSettled := trivial
  obtain ⟨h2, hl2⟩ := h1.settleFrame hf1 hsettled (by rintro v ⟨⟩; exact hcomplete)
  exact ⟨.ref id, _, hrun, h2, (Committed.of_put hl1 hget1 nofun rfl nofun rfl).trans
    (.of_put hl2 hget2 nofun rfl nofun rfl), (hget2 f.gather).trans (if_pos rfl)⟩

/-- What the frame on top comes to, once all of its items are taken, if it is inside another one. -/
theorem settleInside_spec (h : Consistent returned prompt s (some t) (f :: parent :: below) none)
    (hf : s.heap.get? f.gather = some (.gatherFuture items .pending))
    (hnext : f.next = items.length) (hin : Inside s f parent) :
    Succeeds (settleGatherCommit f) s fun poll s' =>
      Consistent returned prompt s' (some t)
        (parent.resumeAfterChild f.gather parent.next poll :: below) none ∧
      Committed returned s s' ∧
        ∀ items, s'.heap.get? f.gather ≠ some (.gatherFuture items .pending) := by
  obtain ⟨items', hf', hslots⟩ := (h.committing f mem_cons_self).frame
  cases mem_unique hf hf'
  rw [hnext] at hslots
  obtain ⟨items2, hparent, hitem⟩ := hin.item
  obtain ⟨items3, hparent', hslots2⟩ :=
    (h.committing parent (mem_cons_of_mem _ mem_cons_self)).frame
  cases mem_unique hparent hparent'
  refine .bind_of_eq (readGather_eq hf) ?_
  split_ifs with hnone
  · refine (cacheFrame_spec h hf hslots hnone).bind fun v s' ⟨h', hc, hv⟩ => .pure ⟨?_, hc, ?_⟩
    · obtain ⟨items3, hp, hslots3⟩ := (h'.committing parent mem_cons_self).frame
      obtain ⟨state, hstate⟩ := hc.later.gather hparent
      cases mem_unique hp hstate
      refine h'.setFrame rfl (fun _ => .rfl) ⟨items2, hp, hslots3.ready hitem ?_⟩
      rw [Vm.value, hv]
      rfl
    · rintro items'' heq
      cases mem_unique hv heq
  have hget := Vm.put_put hf
    (.gatherFuture items (.awaited ⟨f.awaiter, f.pendingChildren, f.results⟩))
  obtain ⟨h', hl⟩ := h.parkFrame hf hslots hnone
    ⟨items2, _, hparent, mem_of_getElem? hitem⟩ hin.awaiter
    (.pend hparent hslots2 hitem hin.fresh) rfl rfl
  refine .of_eq rfl ⟨h', .of_put hl hget (by rintro _ ⟨⟩) rfl (by rintro ⟨⟩) rfl, ?_⟩
  rintro items'' heq
  cases Option.some.inj (((hget f.gather).trans (if_pos rfl)).symm.trans heq)

theorem settleRoot_spec (limits : Limits) (h : Consistent returned prompt s (some t) [f] none)
    (hf : s.heap.get? f.gather = some (.gatherFuture items .pending))
    (hnext : f.next = items.length) (hawaiter : f.awaiter = .task t) :
    Succeeds (settleGatherCommit f) s fun poll s' =>
      CommitOutcome limits returned prompt s t f.gather (.ok poll) s' := by
  obtain ⟨items', hf', hslots⟩ := (h.committing f mem_cons_self).frame
  cases mem_unique hf hf'
  rw [hnext] at hslots
  refine .bind_of_eq (readGather_eq hf) ?_
  split_ifs with hnone
  · exact (cacheFrame_spec h hf hslots hnone).bind fun v s' ⟨h', hc, hv⟩ =>
      .pure (.ready h' hc hv)
  · refine .of_eq rfl (.pending h (.refl s) rfl hf hslots hnone ?_)
    rw [hawaiter]

/-- What the walk keeps. -/
structure Walking (returned : HeapId → Option Value) (prompt : Prop) (t : TaskId) (root : HeapId)
    (n : Nat) (s : Vm) (stack : List GatherCommit) : Prop where
  consistent : Consistent returned prompt s (some t) stack none
  roomy : s.Roomy
  nested : Nested s root (.task t) stack
  within : s.PendingWithin stack n

theorem Walking.stepped {out : Except RunError (Option GatherCommit)}
    (h : Walking returned prompt t root n s (f :: below))
    (hs : Stepped returned prompt s t f below items f' out s') :
    Walking returned prompt t root n s' (f' :: below) := by
  refine ⟨hs.consistent, hs.committed.roomy h.roomy,
    (h.nested.setTop hs.gather hs.awaiter hs.parentSlot).later hs.committed.later
      hs.consistent.pending_frame,
    h.within.mono fun g items hg hstack => ⟨hs.committed.pending g items hg, ?_⟩⟩
  rw [forall_mem_cons] at hstack ⊢
  rwa [← hs.gather]

theorem Walking.open (h : Walking returned prompt t root n s (parent :: below))
    (hin : Inside s f parent) (hopened : Opened returned s f) :
    ∃ m, n = m + 1 ∧ Walking returned prompt t root m s (f :: parent :: below) := by
  obtain ⟨items1, hf, hslots⟩ := hopened.gather
  -- the gather comes before all those on the stack
  have hnew : ∀ f1 ∈ parent :: below, f1.gather ≠ f.gather := by
    intro f1 hf1 heq
    obtain ⟨rank, owner, ho, -⟩ := h.consistent.ordered
    obtain ⟨items2, hparent, hitem⟩ := hin.item
    have hlt := ho.item_lt _ _ _ hparent _ (mem_of_getElem? hitem)
    have hle := h.nested.rank_lt ho rfl f1 hf1
    rw [heq] at hle
    exact absurd hlt (not_lt.mpr hle)
  obtain ⟨m, hm, hwithin⟩ := h.within.open hf hnew
  exact ⟨m, hm, h.consistent.openFrame hf hnew hopened.children hslots, h.roomy,
    .inside hin h.nested, hwithin⟩

theorem Walking.settled {poll : Poll} (h : Walking returned prompt t root n s (f :: parent :: below))
    (h' : Consistent returned prompt s' (some t)
      (parent.resumeAfterChild f.gather parent.next poll :: below) none)
    (hc : Committed returned s s')
    (hnot : ∀ items, s'.heap.get? f.gather ≠ some (.gatherFuture items .pending)) :
    Walking returned prompt t root n s'
      (parent.resumeAfterChild f.gather parent.next poll :: below) := by
  obtain ⟨hgather, hawaiter, hslot⟩ := parent.resumeAfterChild_same f.gather parent.next poll
  cases h.nested with
  | inside _ hbelow =>
    refine ⟨h', hc.roomy h.roomy,
      (hbelow.setTop hgather hawaiter hslot).later hc.later h'.pending_frame,
      h.within.mono fun g items hg hstack => ⟨hc.pending g items hg, ?_⟩⟩
    rw [forall_mem_cons, hgather] at hstack
    refine forall_mem_cons.mpr ⟨?_, forall_mem_cons.mpr hstack⟩
    rintro rfl
    exact hnot items hg

/-- Each gather is opened once and settled once, so that the walk ends. -/
theorem commitLoop_spec (limits : Limits) (fuel : Nat) : ∀ {s : Vm} {stack : List GatherCommit}
    {steps n : Nat}, Walking returned prompt t root n s stack → 2 * n + stack.length ≤ fuel →
    Succeeds (commitLoop limits fuel steps stack) s
      (CommitOutcome limits returned prompt s t root) := by
  induction fuel with
  | zero =>
    intro s stack steps n h hfuel
    cases h.nested <;> simp at hfuel
  | succ fuel ih =>
    intro s stack steps n h hfuel
    cases stack with
    | nil => cases h.nested
    | cons f below =>
      rw [commitLoop]
      cases hlimit : limits.checkMemoryTimeEvery steps with
      | some error =>
        exact abandonCommit_spec (.refl s) h.consistent h.nested (.inl (.inl ⟨steps, hlimit⟩))
      | none =>
        obtain ⟨items, hf, hstep⟩ := stepGatherCommit_spec h.consistent h.roomy
        refine hstep.bind fun ⟨f', out⟩ s1 hs1 => ?_
        have h1 := h.stepped hs1
        have hf1 : s1.heap.get? f'.gather = some (.gatherFuture items .pending) := by
          obtain ⟨items', hf'⟩ := h1.consistent.pending_frame f' mem_cons_self
          obtain ⟨state, hstate⟩ := hs1.committed.later.gather hf
          cases mem_unique hf' (hs1.gather ▸ hstate)
          exact hf'
        cases out with
        | error error =>
          obtain ⟨x, hx, hrefusal⟩ := hs1.refused error rfl
          exact abandonCommit_spec hs1.committed h1.consistent h1.nested
            (.inr ⟨items, x, hf1, hx, hrefusal⟩)
        | ok out =>
          cases out with
          | some f1 =>
            obtain ⟨hin, hopened⟩ := hs1.nested f1 rfl
            cases hlimit : limits.checkCommitStackGrowth (below.length + 1) with
            | some error =>
              exact abandonCommit_spec hs1.committed h1.consistent h1.nested
                (.inl (.inr ⟨_, hlimit⟩))
            | none =>
              obtain ⟨m, rfl, h2⟩ := h1.open hin hopened
              refine (ih h2 ?_).mono fun _ _ ho => ho.after hs1.committed
              simp only [length_cons] at hfuel ⊢
              omega
          | none =>
            cases h1.nested with
            | root hg hw hslot =>
              refine (settleRoot_spec limits h1.consistent hf1 (hs1.done rfl) hw).bind
                fun poll s2 ho => ?_
              exact .pure (hg ▸ ho.after hs1.committed)
            | inside hin hbelow =>
              refine (settleInside_spec h1.consistent hf1 (hs1.done rfl) hin).bind
                fun poll s2 ⟨h2, hc2, hnot⟩ => ?_
              rw [hin.parentSlot]
              refine (ih (h1.settled h2 hc2 hnot) ?_).mono fun _ _ ho =>
                ho.after (hs1.committed.trans hc2)
              simp only [length_cons] at hfuel ⊢
              omega

theorem commitGatherTree_spec (limits : Limits) (h : Consistent returned prompt s (some t) [] none)
    (hroomy : s.Roomy) (hroot : s.heap.get? root = some (.gatherFuture items .pending)) :
    Succeeds (commitGatherTree limits root (.task t)) s
      (CommitOutcome limits returned prompt s t root) := by
  obtain ⟨f, hrun, hgather, hawaiter, hslot, hopened⟩ :=
    openGatherCommit_eq returned (.task t) none hroot
  obtain ⟨items', hf, hslots⟩ := hopened.gather
  have hwithin : s.PendingWithin [f] s.heap.len := by
    refine ⟨Finset.range s.heap.len, (Finset.card_range _).le, fun g items hg _ => ?_⟩
    exact Finset.mem_range.mpr (lt_len_of_get? hg)
  refine .bind_of_eq hrun (.get_bind ?_)
  exact commitLoop_spec limits _ ⟨h.openFrame hf nofun hopened.children hslots, hroomy,
    .root hgather hawaiter hslot, hwithin⟩ (by simp)

end Loop

/-! ## Awaiting -/

/-- No task can run, and the host is asked to settle what is pending. -/
structure Waiting (returned : HeapId → Option Value) (prompt : Prop) (s : Vm) : Prop where
  consistent : Consistent returned prompt s none [] none
  queue : s.readyQueue = []
  loaded : ∀ t, s.currentTask = some t → s.rootParked = false

/-- What an `await` comes to, or the end of a task. -/
inductive Awaited (returned : HeapId → Option Value) (prompt : Prop) (s : Vm) :
    Except RunError AwaitResult → Vm → Prop
  | yield {s' : Vm} : Waiting returned prompt s' → Later returned s s' →
      s'.pendingExternals = s.pendingExternals → s'.nextCallId = s.nextCallId →
      Awaited returned prompt s (.ok (.yield s'.pendingExternals.keys)) s'
  | goOn {out : Except RunError AwaitResult} {s' : Vm} : (∀ calls, out ≠ .ok (.yield calls)) →
      Resumed returned prompt prompt s s' → Awaited returned prompt s out s'

variable {room : Vm → Nat}

theorem Kept.loaded (h : Kept returned s s') (ht : s.Loaded t) : s'.Loaded t := by
  obtain ⟨task, hlook, hstate⟩ := ht.running
  exact ⟨h.currentTask.trans ht.current, h.rootParked.trans ht.rootParked, task,
    h.tasks t task hlook, hstate⟩

theorem Resumed.of_kept (hc : Kept returned s s')
    (h : Consistent returned prompt s' (some t) [] none) (ht : s.Loaded t) :
    Resumed returned prompt prompt s s' := by
  have ht' := hc.loaded ht
  refine ⟨?_, hc.later, .inl ⟨t, ht'⟩, hc.pendingExternals, hc.nextCallId⟩
  rw [ht'.current]
  exact h

theorem switchOrYield_awaited (hroom : Suffices prompt room)
    (h : Consistent returned prompt s' none [] none)
    (hloaded : ∀ t, s'.currentTask = some t → s'.rootParked = false) (hl : Later returned s s')
    (hpending : s'.pendingExternals = s.pendingExternals) (hnext : s'.nextCallId = s.nextCallId) :
    Succeeds (switchOrYield room) s' (Awaited returned prompt s) := by
  refine (switchOrYield_spec hroom h hloaded).mono fun out s'' hout => ?_
  obtain ⟨rfl, rfl, hempty⟩ | ⟨rfl | ⟨error, rfl⟩, h'⟩ := hout
  · exact .yield ⟨h, hempty, hloaded⟩ hl hpending hnext
  · exact .goOn nofun (h'.after hl hpending hnext)
  · exact .goOn (nofun) (h'.after hl hpending hnext)

theorem blockCurrentOn_eq {task : Task} (hcur : s.currentTask = some t)
    (ht : s.tasks.lookup t = some task) (hstate : task.state = .ready (.ok ())) :
    blockCurrentOn x s = .ok () (s.putTask t { task with state := .blocked x }) := by
  rw [blockCurrentOn, get_bind_apply, hcur]
  refine (bind_of_ok (getTask_eq ht)).trans ?_
  rw [hstate]
  rfl

theorem awaitCoroutine_spec {state : CoroutineState} (limits : Limits)
    (h : Consistent returned prompt s (some t) [] none) (ht : s.Loaded t)
    (hx : s.heap.get? x = some (.coroutine state))
    (hprompt : prompt → state = .new → s.coroutineToTask.lookup x = none) :
    Succeeds (awaitCoroutine limits x state) s (Awaited returned prompt s) := by
  cases state with
  | new =>
    set s1 : Vm := s.put x (.coroutine .running)
    have hnew : ∀ t' task, s.tasks.lookup t' = some task → task.coroutineId = some x → prompt →
        s.currentTask = some t' := by
      intro t' task ht' hc hp
      have := (h.scheduled.driven x t').mpr ⟨task, ht', hc⟩
      exact nomatch (hprompt hp rfl).symm.trans this
    obtain ⟨h1, hl1⟩ : Consistent returned prompt s1 (some t) [] none ∧ Later returned s s1 :=
      h.putCoroutine hx nofun hnew (by rintro ⟨⟩)
    have hc1 : Kept returned s s1 := .of_put hl1 (get?_set hx _) nofun rfl
    refine .bind_of_eq (setObj_eq ..) ?_
    have hparked : s1.isParked = false := by
      change (s.rootParked && _) = false
      rw [ht.rootParked]
      rfl
    set s2 : Vm := { s1 with suspendedFrames := s1.suspendedFrames + 1 } with hs2
    have h2 : Consistent returned prompt s2 (some t) [] none := h1.congr rfl (.of_eq rfl) rfl le_rfl
    cases hlimit : limits.pushFrame with
    | some error =>
      have hpush : pushFrame limits s1 = .ok (.error error) s1 := by
        rw [pushFrame, get_bind_apply, hlimit]
        simp only [hparked, Bool.false_eq_true, if_false]
        rfl
      refine .bind_of_eq hpush (.pure (.goOn nofun ?_))
      exact .of_kept hc1 h1 ht
    | none =>
      have hpush : pushFrame limits s1 = .ok (.ok ()) s2 := by
        rw [pushFrame, get_bind_apply, hlimit]
        rfl
      refine .bind_of_eq hpush (.pure (.goOn (nofun) ?_))
      refine ⟨?_, hl1.congr rfl rfl, .inl ⟨t, ht.current, ht.rootParked, ht.running⟩, rfl, rfl⟩
      rw [ht.current]
      exact h2
  | running => exact .pure (.goOn nofun (.of_kept (.refl s) h ht))
  | completed => exact .pure (.goOn nofun (.of_kept (.refl s) h ht))

theorem awaitGather_spec {items : List HeapId} {state : GatherState} (hroom : Suffices prompt room)
    (limits : Limits) (h : Consistent returned prompt s (some t) [] none) (ht : s.Loaded t)
    (hroomy : s.Roomy) (hx : s.heap.get? x = some (.gatherFuture items state)) :
    Succeeds (awaitGatherFuture limits x (.task t) >>= finishAwait room x) s
      (Awaited returned prompt s) := by
  have hstay : Resumed returned prompt prompt s s := .of_kept (.refl s) h ht
  have hrun : awaitGatherFuture limits x (.task t) s = _ := bind_of_ok (readGather_eq hx)
  cases state with
  | completed v => exact .bind_of_eq hrun (.pure (.goOn nofun hstay))
  | failed error => exact .bind_of_eq hrun (.pure (.goOn nofun hstay))
  | awaited a => exact .bind_of_eq hrun (.pure (.goOn nofun hstay))
  | pending =>
    have hcommit : Succeeds (awaitGatherFuture limits x (.task t)) s
        (CommitOutcome limits returned prompt s t x) :=
      .bind_of_eq (readGather_eq hx) (commitGatherTree_spec limits h hroomy hx)
    refine hcommit.bind fun out s' ho => ?_
    cases ho with
    | failed h' hc _ _ hab _ =>
      exact .pure (.goOn nofun (.of_kept (hc.toKept.trans hab.kept) h' ht))
    | ready h' hc _ => exact .pure (.goOn nofun (.of_kept hc.toKept h' ht))
    | @pending s1 _ f items h1 hc hf hroot hslots hchildren hs' =>
      subst hf
      have ht1 := hc.toKept.loaded ht
      obtain ⟨task, hlook, hstate⟩ := ht1.running
      have hblock := blockCurrentOn_eq (s := s') (x := f.gather) (by rw [hs']; exact ht1.current)
        (by rw [hs']; exact hlook) hstate
      obtain ⟨h2, hl2⟩ := h1.blockGather hroot hslots hchildren ht1.current hlook hstate
      subst hs'
      refine .bind_of_eq hblock (switchOrYield_awaited hroom h2 ?_ (hc.later.trans hl2)
        hc.pendingExternals hc.nextCallId)
      exact fun _ _ => ht1.rootParked

theorem awaitExternal_spec (hroom : Suffices prompt room)
    (h : Consistent returned prompt s (some t) [] none) (ht : s.Loaded t)
    (hx : s.heap.get? x = some (.externalFuture call state r)) :
    Succeeds (awaitExternalFuture x (.task t) >>= finishAwait room x) s
      (Awaited returned prompt s) := by
  have hstay : Resumed returned prompt prompt s s := .of_kept (.refl s) h ht
  obtain ⟨v, -, hrun⟩ | ⟨error, -, hrun⟩ | ⟨rfl, hrun⟩ := awaitExternalFuture_cases (.task t) hx
  · exact .bind_of_eq hrun (.pure (.goOn nofun hstay))
  · exact .bind_of_eq hrun (.pure (.goOn (nofun) hstay))
  · obtain ⟨task, hlook, hstate⟩ := ht.running
    obtain ⟨h1, hl1⟩ := h.blockExternal hx ht.current hlook hstate
    refine .bind_of_eq hrun (.bind_of_eq (blockCurrentOn_eq ht.current hlook hstate) ?_)
    exact switchOrYield_awaited hroom h1 (fun _ _ => ht.rootParked) hl1 rfl rfl

/-- The `Await` instruction, in a task that runs. -/
theorem execGetAwaitable_spec (hroom : Suffices prompt room) (limits : Limits) (v : Value)
    (h : Consistent returned prompt s (some t) [] none) (ht : s.Loaded t) (hroomy : s.Roomy)
    (hlive : ∀ id, v = .ref id → id ∈ s.heap.live)
    (hprompt : prompt → ∀ id, v = .ref id → s.heap.get? id = some (.coroutine .new) →
      s.coroutineToTask.lookup id = none) :
    Succeeds (execGetAwaitable room limits v) s (Awaited returned prompt s) := by
  have hstay : Resumed returned prompt prompt s s := .of_kept (.refl s) h ht
  refine .get_bind ?_
  rw [ht.current]
  cases v with
  | host n => exact .pure (.goOn nofun hstay)
  | ref id =>
    obtain ⟨o, ho⟩ := StableHeap.mem_live.mp (hlive id rfl)
    refine .bind_of_eq (read_eq ho) ?_
    cases o with
    | coroutine state =>
      refine awaitCoroutine_spec limits h ht ho fun hp hstate => ?_
      exact hprompt hp id rfl (hstate ▸ ho)
    | gatherFuture items state => exact awaitGather_spec hroom limits h ht hroomy ho
    | externalFuture call state r => exact awaitExternal_spec hroom h ht ho
    | list _ => exact .pure (.goOn nofun hstay)
    | other => exact .pure (.goOn nofun hstay)

end Monty.Async
