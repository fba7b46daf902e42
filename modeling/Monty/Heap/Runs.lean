import Monty.Heap.Collect
import Monty.Heap.Release

/-!
# Garbage over whole runs

The collector starts from the `purple` entries only. That it misses nothing is therefore a fact
about everything that happened to the heap before: garbage is only ever made where a reference is
given up, and `dec_ref` enrols what lives on.

`State` pairs the heap with the references owned outside it, `Step` is what an interpreter does to
it, and `Run` is a sequence of steps from the heap of `Heap.new` in which no entry of a kind that is
not tracked ever lies on a cycle. `Good` is the invariant: every live entry is reachable from an
externally referenced entry or from a `purple` one.

There is one way out: a reference may be moved into the very entry it keeps alive. No reference is
released, nothing is enrolled, and the entry is garbage for ever (`exists_unenrolled_garbage`). An
interpreter does not do this, since it holds on to the container it is writing to; `KeepsParent`
says so, and runs that respect it keep the invariant (`Run.good`).
-/

namespace Monty

open Multigraph List Heap
open Finset hiding mem_cons

namespace Heap

variable {D : Type} [HeapItem D]

omit [HeapItem D] in
/-- A new heap: the empty tuple in slot 0, owned once by the heap itself. -/
def new (emptyTuple : D) : Heap D where
  entries := (StableHeap.empty.allocate
    { refcount := 1, readers := 0, data := emptyTuple, color := .black }).2
  purpleCount := 0
  allocationsSinceGc := 0
  weakIndex := fun _ => none

/-- Only entries of a tracked kind lie on reference cycles. -/
def CyclesTracked (h : Heap D) : Prop := ∀ x ∈ h.live, OnCycle h.children x → h.tracked x = true

end Heap

/-! ## Steps -/

/-- The heap, and how often each entry is owned from outside it. -/
structure State (D : Type) where
  heap : Heap D
  external : HeapId → Nat

/-- What an interpreter does to the heap. -/
inductive Op (D : Type)
  | allocate (data : D)
  | incRef (id : HeapId)
  | addChild (parent : HeapId) (data : D) (child : HeapId)
  | removeChild (parent : HeapId) (data : D) (child : HeapId)
  | decRef (id : HeapId)
  | setReaders (id : HeapId) (readers : Nat)
  | collectCycles
  | reindex (weakIndex : WeakIndexKey → Option HeapId)

section Steps

variable {D : Type} [HeapItem D]

/-- One step. An operation that panics is not a step. -/
inductive Step : State D → Op D → State D → Prop
  /-- A new entry takes over the references of its payload. -/
  | allocate {s : State D} {data : D} (howned : ∀ x, (forEachChildId data).count x ≤ s.external x) :
      Step s (.allocate data)
        ⟨(s.heap.allocate data).2, fun x => s.external x - (forEachChildId data).count x
          + if x = (s.heap.allocate data).1 then 1 else 0⟩
  | incRef {s : State D} {id : HeapId} {h' : Heap D} (hrun : s.heap.incRef id = .ok h') :
      Step s (.incRef id) ⟨h', fun x => s.external x + [id].count x⟩
  /-- A payload takes over a reference. -/
  | addChild {s : State D} {parent child : HeapId} {data : D} {e : HeapEntry D}
      (he : s.heap.get? parent = some e)
      (hdata : (forEachChildId data).Perm (child :: forEachChildId e.data))
      (howned : 0 < s.external child) :
      Step s (.addChild parent data child)
        ⟨s.heap.setEntry parent { e with data }, fun x => s.external x - [child].count x⟩
  /-- A payload drops a reference, which is given up. -/
  | removeChild {s : State D} {parent child : HeapId} {data : D} {e : HeapEntry D} {h' : Heap D}
      (he : s.heap.get? parent = some e)
      (hdata : (forEachChildId e.data).Perm (child :: forEachChildId data))
      (hrun : (s.heap.setEntry parent { e with data }).decRef child = .ok h') :
      Step s (.removeChild parent data child) ⟨h', s.external⟩
  | decRef {s : State D} {id : HeapId} {h' : Heap D} (howned : 0 < s.external id)
      (hrun : s.heap.decRef id = .ok h') :
      Step s (.decRef id) ⟨h', fun x => s.external x - [id].count x⟩
  /-- Readers come and go. -/
  | setReaders {s : State D} {id : HeapId} {readers : Nat} {e : HeapEntry D}
      (he : s.heap.get? id = some e) :
      Step s (.setReaders id readers) ⟨s.heap.setEntry id { e with readers }, s.external⟩
  /-- Nothing is being read when cycles are collected. -/
  | collectCycles {s : State D} {h' : Heap D} {freed : Nat}
      (hreaders : ∀ x ∈ s.heap.live, s.heap.readers x = 0)
      (hrun : s.heap.collectCycles = .ok (h', freed)) :
      Step s .collectCycles ⟨h', s.external⟩
  /-- The weak indexes change: they own nothing. -/
  | reindex {s : State D} (weakIndex : WeakIndexKey → Option HeapId) :
      Step s (.reindex weakIndex) ⟨{ s.heap with weakIndex }, s.external⟩

/-- The entry is referenced from outside the heap. -/
def State.External (s : State D) (x : HeapId) : Prop := 0 < s.external x

/-- The heap of `Heap.new`, which owns its empty tuple. -/
def State.new (emptyTuple : D) : State D := ⟨Heap.new emptyTuple, fun x => if x = 0 then 1 else 0⟩

/-- The states reached by steps that satisfy `ok`, with untracked entries never on a cycle. -/
inductive Run (ok : State D → Op D → State D → Prop) : State D → Prop
  | new (emptyTuple : D) (hempty : forEachChildId emptyTuple = []) : Run ok (.new emptyTuple)
  | step {s s' : State D} {op : Op D} (hrun : Run ok s) (hstep : Step s op s') (hok : ok s op s')
      (hcycles : s'.heap.CyclesTracked) : Run ok s'

/-- Moving a reference into a payload does not cut that payload's own entry off. -/
def KeepsParent (s : State D) : Op D → State D → Prop
  | .addChild parent _ _, s' => ReachFrom s.heap.children s.External parent →
      ReachFrom s'.heap.children s'.External parent
  | _, _ => True

/-! ## The invariant -/

/-- Where the search for live entries starts: outside the heap, or at a candidate. -/
def State.Anchor (s : State D) (x : HeapId) : Prop := 0 < s.external x ∨ x ∈ s.heap.purple

/-- **The invariant of a run.** -/
structure Good (s : State D) : Prop where
  accounted : s.heap.Accounted s.external
  settled : s.heap.Settled
  purpleCount : s.heap.purpleCount = s.heap.purple.card
  positive : ∀ x ∈ s.heap.live, 0 < s.heap.refcount x
  /-- Garbage hangs off a candidate. -/
  anchored : ∀ x ∈ s.heap.live, ReachFrom s.heap.children s.Anchor x

variable {s : State D} {h' : Heap D} {data : D} {id : HeapId} {e : HeapEntry D}

/-- A step that adds an entry, which takes over the references of its payload. -/
theorem Good.withEntry (hg : Good s) (hget : ∀ x, h'.get? x = if x = id
      then some { refcount := 1, readers := 0, data, color := .black } else s.heap.get? x)
    (hfresh : s.heap.get? id = none) (hpc : h'.purpleCount = s.heap.purpleCount)
    (howned : ∀ x, (forEachChildId data).count x ≤ s.external x) :
    Good ⟨h', fun x => s.external x - (forEachChildId data).count x + if x = id then 1 else 0⟩ := by
  have hid := (hget id).trans (if_pos rfl)
  have hne : ∀ x ≠ id, h'.get? x = s.heap.get? x := fun x hx => (hget x).trans (if_neg hx)
  have hlive : h'.live = insert id s.heap.live := by
    ext x
    rw [mem_insert, mem_live, mem_live]
    by_cases hx : x = id
    · simp [hx, hid]
    · simp [hx, hne x hx]
  have hidchildren : h'.children id = forEachChildId data := children_of_get? hid
  have hidrefcount : h'.refcount id = 1 := refcount_of_get? hid
  have hidcolor : h'.color id = .black := color_of_get? hid
  have hnot : id ∉ s.heap.live := fun hmem => by
    rw [mem_live, hfresh] at hmem
    simp at hmem
  have hchildren : ∀ v ∈ s.heap.live, h'.children v = s.heap.children v := fun v hv => by
    rw [children, hne v fun hvid => hnot (hvid ▸ hv)]
    rfl
  have hzero := hg.accounted id
  rw [refcount, hfresh, Option.elim_none] at hzero
  have hpurple : h'.purple = s.heap.purple := by
    ext x
    rw [mem_purple_iff_get?, mem_purple_iff_get?]
    by_cases hx : x = id
    · simp [hx, hid, hfresh]
    · rw [hne x hx]
  have hpositive : ∀ x ∈ h'.live, 0 < h'.refcount x := by
    intro x hx
    by_cases hxid : x = id
    · rw [hxid, hidrefcount]
      exact one_pos
    · rw [refcount, hne x hxid]
      rw [hlive, mem_insert, or_iff_right hxid] at hx
      exact hg.positive x hx
  refine ⟨fun x => ?_, fun x hx => ?_, ?_, hpositive, fun x hx => ?_⟩
  · have hx := hg.accounted x
    have ho := howned x
    dsimp only
    rw [hlive, edgesInto_insert _ hnot, hidchildren, edgesInto_congr hchildren]
    by_cases hxid : x = id
    · subst hxid
      rw [if_pos rfl, hidrefcount]
      omega
    · rw [if_neg hxid, refcount, hne x hxid]
      change s.heap.refcount x = _
      omega
  · by_cases hxid : x = id
    · rw [hxid, hidcolor]
      decide
    · rw [color, hne x hxid]
      rw [hlive, mem_insert, or_iff_right hxid] at hx
      exact hg.settled x hx
  · rw [hpc, hpurple, hg.purpleCount]
  · have hbase : ReachFrom h'.children (State.Anchor ⟨h', fun x => s.external x
        - (forEachChildId data).count x + if x = id then 1 else 0⟩) id :=
      .base (.inl (by simp))
    rw [hlive, mem_insert] at hx
    rcases hx with rfl | hx
    · exact hbase
    refine (hg.anchored x hx).transfer (fun a ha => ?_) fun v w hw => ?_
    · -- an anchor whose last external reference moved into the payload hangs off the new entry
      rcases ha with hext | hp
      · by_cases hch : a ∈ forEachChildId data
        · exact hbase.step (by rwa [hidchildren])
        · refine .base (.inl ?_)
          dsimp only
          rw [count_eq_zero.mpr hch]
          omega
      · exact .base (.inr (by rwa [hpurple]))
    · rwa [hchildren v (mem_live_of_mem_children hw)]

theorem Good.new {emptyTuple : D} (hempty : forEachChildId emptyTuple = []) :
    Good (State.new emptyTuple) := by
  have hbare : Good (⟨⟨.empty, 0, 0, fun _ => none⟩, fun _ => 0⟩ : State D) := by
    refine ⟨fun x => rfl, fun x hx => ?_, rfl, fun x hx => ?_, fun x hx => ?_⟩ <;>
      exact absurd hx (notMem_empty x)
  have hgood : Good ⟨.new emptyTuple, _⟩ := hbare.withEntry (StableHeap.get?_allocate .empty _) rfl
    rfl (by rw [hempty]; exact fun _ => Nat.zero_le _)
  simp only [Nat.zero_sub, Nat.zero_add] at hgood
  exact hgood

theorem Good.allocate (hg : Good s) (howned : ∀ x, (forEachChildId data).count x ≤ s.external x) :
    Good ⟨(s.heap.allocate data).2, fun x => s.external x - (forEachChildId data).count x
      + if x = (s.heap.allocate data).1 then 1 else 0⟩ :=
  hg.withEntry (StableHeap.get?_allocate _ _) (StableHeap.get?_allocate_fst _ _) rfl howned

omit [HeapItem D] in
theorem State.count_le_external (howned : 0 < s.external id) (x : HeapId) :
    [id].count x ≤ s.external x := by
  by_cases hx : x = id
  · rw [hx, count_singleton_self]
    exact howned
  · rw [count_eq_zero.mpr (by simpa using hx)]
    exact Nat.zero_le _

/-- An entry whose payload keeps its references loses no edge. -/
theorem Heap.mem_children_setEntry {h : Heap D} {e' : HeapEntry D} (he : h.get? id = some e)
    (hsucc : ∀ w ∈ forEachChildId e.data, w ∈ forEachChildId e'.data) (v w : HeapId)
    (hw : w ∈ h.children v) : w ∈ (h.setEntry id e').children v := by
  rw [children_setEntry he]
  split_ifs with hv
  · rw [hv, children_of_get? he] at hw
    exact hsucc w hw
  · exact hw

section

variable (hg : Good s)

include hg

variable {external : HeapId → Nat}

/-- A step that overwrites one entry, keeping its colour, and loses no edge. -/
theorem Good.setEntry
    (he : s.heap.get? id = some e) (e' : HeapEntry D) (hcolor : e'.color = e.color)
    (hacc : (s.heap.setEntry id e').Accounted external) (hpos : 0 < e'.refcount)
    (hanchor : ∀ a, s.Anchor a → ReachFrom (s.heap.setEntry id e').children
      (State.Anchor ⟨s.heap.setEntry id e', external⟩) a)
    (hsucc : ∀ w ∈ forEachChildId e.data, w ∈ forEachChildId e'.data) :
    Good ⟨s.heap.setEntry id e', external⟩ := by
  have hlive : (s.heap.setEntry id e').live = s.heap.live := live_setEntry he e'
  have hpurple := purple_setEntry he e' hcolor
  refine ⟨hacc, fun x hx => ?_, ?_, fun x hx => ?_, fun x hx => ?_⟩
  · rw [color_setEntry_of_eq he e' x hcolor]
    exact hg.settled x (hlive ▸ hx)
  · exact hg.purpleCount.trans (congrArg card hpurple.symm)
  · rw [refcount_setEntry he]
    split_ifs with hxid
    · exact hpos
    · exact hg.positive x (hlive ▸ hx)
  exact (hg.anchored x (hlive ▸ hx)).transfer hanchor (mem_children_setEntry he hsucc)

theorem Good.incRef
    (hrun : s.heap.incRef id = .ok h') : Good ⟨h', fun x => s.external x + [id].count x⟩ := by
  obtain ⟨e, he, rfl⟩ : ∃ e, s.heap.get? id = some e ∧
      h' = s.heap.setEntry id { e with refcount := e.refcount + 1 } := by
    rw [Heap.incRef] at hrun
    cases hget : s.heap.get id with
    | error p => rw [hget] at hrun; contradiction
    | ok e => rw [hget] at hrun; cases hrun; exact ⟨e, get?_of_get hget, rfl⟩
  have hshape : SameShape s.heap (s.heap.setEntry id { e with refcount := e.refcount + 1 }) :=
    .setEntry he rfl
  refine hg.setEntry he { e with refcount := e.refcount + 1 } rfl (fun x => ?_) (Nat.succ_pos _)
    (fun a ha => .base ?_) fun w hw => hw
  · rw [hshape.children, hshape.live, refcount_setEntry he]
    have hx := hg.accounted x
    by_cases hxid : x = id
    · subst hxid
      rw [refcount_of_get? he] at hx
      rw [if_pos rfl, count_singleton_self]
      dsimp only
      omega
    · rw [if_neg hxid, count_singleton, beq_eq_false_iff_ne.mpr (Ne.symm hxid)]
      simpa using hx
  · rcases ha with hext | hp
    · exact .inl (Nat.lt_of_lt_of_le hext (Nat.le_add_right _ _))
    · exact .inr ((purple_setEntry he { e with refcount := e.refcount + 1 } rfl).symm ▸ hp)

theorem Good.addChild {parent child : HeapId} (he : s.heap.get? parent = some e)
    (hdata : (forEachChildId data).Perm (child :: forEachChildId e.data))
    (howned : 0 < s.external child)
    (hkeep : KeepsParent s (.addChild parent data child)
      ⟨s.heap.setEntry parent { e with data }, fun x => s.external x - [child].count x⟩) :
    Good ⟨s.heap.setEntry parent { e with data }, fun x => s.external x - [child].count x⟩ := by
  have hlive := live_setEntry he { e with data }
  have hparent : parent ∈ s.heap.live := mem_live.mpr ⟨e, he⟩
  have hpurple := purple_setEntry he { e with data } rfl
  have hpchildren : (s.heap.setEntry parent { e with data }).children parent
      = forEachChildId data := by rw [children_setEntry he, if_pos rfl]
  have hsucc : ∀ w ∈ forEachChildId e.data, w ∈ forEachChildId data := fun w hw =>
    hdata.mem_iff.mpr (mem_cons_of_mem _ hw)
  have hpos : 0 < e.refcount := refcount_of_get? he ▸ hg.positive parent hparent
  refine hg.setEntry he { e with data } rfl (fun x => ?_) hpos (fun a ha => ?_) hsucc
  · have hedges : edgesInto (s.heap.setEntry parent { e with data }).children s.heap.live x
        = [child].count x + edgesInto s.heap.children s.heap.live x := by
      refine edgesInto_update hparent (fun v _ hv => ?_) ?_
      · rw [children_setEntry he, if_neg hv]
      · rw [hpchildren, hdata.count_eq, children_of_get? he, ← count_append, singleton_append]
    have hle := State.count_le_external howned x
    rw [hlive, hedges, refcount_setEntry_of_eq he { e with data } x rfl, hg.accounted x]
    omega
  -- the reference that moved is now held by its new owner
  have hparent' : ReachFrom (s.heap.setEntry parent { e with data }).children
      (State.Anchor ⟨s.heap.setEntry parent { e with data },
        fun x => s.external x - [child].count x⟩) parent := by
    by_cases hext : ReachFrom s.heap.children s.External parent
    · exact (hkeep hext).mono fun a ha => .inl ha
    obtain ⟨a, ha, hap⟩ := hg.anchored parent hparent
    rcases ha with ha | ha
    · exact absurd ⟨a, ha, hap⟩ hext
    · exact .transfer (fun b hb => .base (.inr (hpurple.symm ▸ hb)))
        (mem_children_setEntry he hsucc) ⟨a, ha, hap⟩
  rcases ha with hext | hp
  · by_cases hac : a = child
    · refine hparent'.step ?_
      rw [hpchildren, hdata.mem_iff, hac]
      exact mem_cons_self
    · refine .base (.inl ?_)
      dsimp only
      rw [count_eq_zero.mpr (by simpa using hac)]
      exact hext
  · exact .base (.inr (hpurple.symm ▸ hp))

/-- **Giving up a reference keeps the invariant.**  `h1` is the heap `dec_ref` is called on: it may
have lost an edge to `start` since the state `s`, or `start` an external reference. -/
theorem Good.release {h1 : Heap D} {start : HeapId} (hrun : h1.decRef start = .ok h')
    (hlive : h1.live = s.heap.live) (hcolor : ∀ x, h1.color x = s.heap.color x)
    (hrefcount : ∀ x, h1.refcount x = s.heap.refcount x) (hpc : h1.purpleCount = s.heap.purpleCount)
    (hcount : ∀ x, s.external x + edgesInto s.heap.children s.heap.live x
      = external x + [start].count x + edgesInto h1.children s.heap.live x)
    (hedges : ∀ v, ∀ w ∈ s.heap.children v, w ∈ h1.children v ∨ w = start)
    (hexternal : ∀ x, 0 < s.external x → 0 < external x ∨ x = start)
    (hcycles : h'.CyclesTracked) : Good ⟨h', external⟩ := by
  have hpurple : h1.purple = s.heap.purple := by
    ext x
    rw [mem_purple, mem_purple, hlive, hcolor]
  obtain ⟨herr, -⟩ | ⟨h'', hok, hr⟩ := @decRef_spec D _ h1 external start
    (fun x => by rw [hrefcount, hlive, hg.accounted, hcount])
    (fun x hx => hrefcount x ▸ hg.positive x (hlive ▸ hx)) (by rw [hpc, hpurple, hg.purpleCount])
  · exact nomatch herr.symm.trans hrun
  obtain rfl := Except.ok.inj (hok.symm.trans hrun)
  have hchildren : ∀ v ∈ h''.live, h''.children v = h1.children v := fun v hv =>
    children_eq_of_shape (hr.shape v hv)
  have hacc : h''.Accounted external := fun x => by
    rw [hr.refcount, edgesInto_congr hchildren, count_nil, add_zero]
  have hlost : ∀ x ∈ h''.live, (x = start ∨ ∃ f, f ∉ h''.live ∧ x ∈ h1.children f) →
      h''.tracked x = true → x ∈ h''.purple := by
    intro x hx hor ht
    rw [tracked_eq_of_shape (hr.shape x hx)] at ht
    rcases hr.enrolled x hx hor with hnil | hp
    · exact absurd hnil not_mem_nil
    · exact mem_purple.mpr ⟨hx, hp ht⟩
  refine ⟨hacc, fun x hx => ?_, hr.purpleCount, hr.positive, fun x hx => ?_⟩
  · rcases hr.color x hx with hc | hc
    · rw [hc, hcolor]
      exact hg.settled x (hlive ▸ hr.live hx)
    · rw [hc]
      decide
  refine reachFrom_of_cut s.heap.children (fun x => h''.tracked x = true) (A := s.Anchor)
    (finite_toSet h''.live) ?_ ?_ ?_ ?_ ?_ hcycles hx
  · exact fun y hy => hg.anchored y (hlive ▸ hr.live hy)
  · exact fun v w hw => mem_live_of_mem_children hw
  · intro y hy
    have hpos := hr.positive y hy
    rw [hacc y] at hpos
    rcases eq_zero_or_pos (external y) with hzero | hext
    · rw [hzero, zero_add] at hpos
      exact .inr ((edgesInto_pos_iff _).mp hpos)
    · exact .inl (.inl hext)
  · rintro y hy (hext | hp) ht
    · rcases hexternal y hext with hext' | rfl
      · exact .inl hext'
      · exact .inr (hlost y hy (.inl rfl) ht)
    · rw [mem_purple, ← hcolor] at hp
      exact .inr (mem_purple.mpr ⟨hy, hr.purple y hy hp.2⟩)
  intro v y hvy hy
  rcases hedges v y hvy with hvy' | rfl
  · by_cases hv : v ∈ h''.live
    · exact .inl (hchildren v hv ▸ hvy')
    · exact .inr fun ht => .inr (hlost y hy (.inr ⟨v, hv, hvy'⟩) ht)
  · exact .inr fun ht => .inr (hlost y hy (.inl rfl) ht)

theorem Good.removeChild {parent child : HeapId} (he : s.heap.get? parent = some e)
    (hdata : (forEachChildId e.data).Perm (child :: forEachChildId data))
    (hrun : (s.heap.setEntry parent { e with data }).decRef child = .ok h')
    (hcycles : h'.CyclesTracked) : Good ⟨h', s.external⟩ := by
  refine hg.release hrun (live_setEntry he _) (fun x => color_setEntry_of_eq he _ x rfl)
    (fun x => refcount_setEntry_of_eq he _ x rfl) rfl (fun x => ?_) (fun v w hw => ?_)
    (fun x hx => .inl hx) hcycles
  · -- the edge that was cut is the reference about to be given up
    have hedges : edgesInto s.heap.children s.heap.live x = [child].count x
        + edgesInto (s.heap.setEntry parent { e with data }).children s.heap.live x := by
      refine edgesInto_update (mem_live.mpr ⟨e, he⟩) (fun v _ hv => ?_) ?_
      · rw [children_setEntry he, if_neg hv]
      · rw [children_setEntry he, if_pos rfl, children_of_get? he, hdata.count_eq,
          ← count_append, singleton_append]
    rw [hedges, add_assoc]
  rw [children_setEntry he]
  split_ifs with hv
  · rw [hv, children_of_get? he, hdata.mem_iff, mem_cons] at hw
    exact hw.symm
  · exact .inl hw

theorem Good.decRef (howned : 0 < s.external id) (hrun : s.heap.decRef id = .ok h')
    (hcycles : h'.CyclesTracked) : Good ⟨h', fun x => s.external x - [id].count x⟩ := by
  refine hg.release hrun rfl (fun _ => rfl) (fun _ => rfl) rfl (fun x => ?_) (fun v w hw => .inl hw)
    (fun x hx => ?_) hcycles
  · have hle := State.count_le_external howned x
    omega
  by_cases hxid : x = id
  · exact .inr hxid
  · left
    rw [count_eq_zero.mpr (by simpa using hxid)]
    exact hx

/-- Whether entries are being read does not matter. -/
theorem Good.of_readers (hget : ∀ x, (h'.get? x).map (fun e => { e with readers := 0 }) =
      (s.heap.get? x).map fun e => { e with readers := 0 })
    (hpc : h'.purpleCount = s.heap.purpleCount) : Good ⟨h', s.external⟩ := by
  have hfield {β : Type} (b : β) (f : HeapEntry D → β) (hf : ∀ e, f { e with readers := 0 } = f e)
      (x : HeapId) : (h'.get? x).elim b f = (s.heap.get? x).elim b f := by
    simpa [Function.comp_def, hf] using congrArg (·.elim b f) (hget x)
  have hrefcount : h'.refcount = s.heap.refcount := funext (hfield 0 _ fun _ => rfl)
  have hcolor : h'.color = s.heap.color := funext (hfield _ _ fun _ => rfl)
  have hchildren : h'.children = s.heap.children := funext (hfield [] _ fun _ => rfl)
  have hlive : h'.live = s.heap.live := by
    ext x
    rw [mem_live, mem_live, ← Option.isSome_iff_exists, ← Option.isSome_iff_exists]
    simpa using congrArg Option.isSome (hget x)
  have hpurple : h'.purple = s.heap.purple := by rw [purple, purple, hlive, hcolor]
  refine ⟨fun x => ?_, fun x hx => ?_, hpc.trans (hpurple ▸ hg.purpleCount), fun x hx => ?_,
    fun x hx => ?_⟩
  · rw [hrefcount, hchildren, hlive, hg.accounted]
  · exact hcolor ▸ hg.settled x (hlive ▸ hx)
  · exact hrefcount ▸ hg.positive x (hlive ▸ hx)
  · have hanchored := hg.anchored x (hlive ▸ hx)
    unfold State.Anchor at hanchored ⊢
    rwa [hchildren, hpurple]

theorem Good.setReaders {readers : Nat} (he : s.heap.get? id = some e) :
    Good ⟨s.heap.setEntry id { e with readers }, s.external⟩ := by
  refine hg.of_readers (fun x => ?_) rfl
  rw [get?_setEntry he]
  split_ifs with hx
  · rw [hx, he]
    rfl
  · rfl

/-- **After a collection everything is in use.** -/
theorem Good.reachFrom_of_collected (hreaders : ∀ x ∈ s.heap.live, s.heap.readers x = 0)
    {W : Finset HeapId} (hc : Collected s.heap s.external W h') {x : HeapId} (hx : x ∈ h'.live) :
    ReachFrom h'.children s.External x := by
  have hheld : ∀ a, s.heap.Held s.external a → s.External a := by
    rintro a (hext | hread)
    · exact hext
    · exact absurd (hreaders a (mem_live_of_readers_pos hread)) hread.ne'
  -- what no candidate reaches is reached from outside, by the invariant
  have hbefore : ReachFrom s.heap.children s.External x := by
    refine (hc.complete x hx).mem_of_closed ?_ fun v hv w hw => hv.step hw
    rintro a (ha | ⟨hal, hnot⟩)
    · exact .base (hheld a ha)
    · obtain ⟨b, hb | hb, hba⟩ := hg.anchored a hal
      · exact ⟨b, hb, hba⟩
      · refine absurd ⟨b, ⟨hb, hreaders b (mem_purple.mp hb).1⟩, hba⟩ hnot
  obtain ⟨a, ha, hax⟩ := hbefore
  have hchildren : ∀ v ∈ h'.live, h'.children v = s.heap.children v := fun v hv =>
    children_eq_of_shape (hc.shape v hv)
  refine ⟨a, ha, .congr (S := (· ∈ h'.live)) (fun v hv w hw => ?_) (fun v hv w hw => ?_) ?_ hax⟩
  · exact hc.accounted.closed (hchildren v hv ▸ hw)
  · rwa [hchildren v hv]
  · exact hc.accounted.mem_live ha

theorem Good.collectCycles {freed : Nat} (hreaders : ∀ x ∈ s.heap.live, s.heap.readers x = 0)
    (hrun : s.heap.collectCycles = .ok (h', freed)) : Good ⟨h', s.external⟩ := by
  obtain ⟨h'', W, hok, hc⟩ := collectCycles_spec hg.accounted hg.settled hg.purpleCount
  rw [hok] at hrun
  cases hrun
  have hreach : ∀ x ∈ h'.live, ReachFrom h'.children s.External x := fun x hx =>
    hg.reachFrom_of_collected hreaders hc hx
  have hempty : h'.purple = ∅ := by
    ext x
    rw [mem_purple]
    refine iff_of_false (fun hx => ?_) (notMem_empty x)
    rw [hc.black x hx.1] at hx
    exact absurd hx.2 (by decide)
  refine ⟨hc.accounted, fun x hx => ?_, ?_, fun x hx => ?_, fun x hx => ?_⟩
  · rw [hc.black x hx]
    decide
  · exact hc.purpleCount.trans (by rw [hempty, card_empty])
  · obtain ⟨a, ha, hax⟩ := hreach x hx
    rw [hc.accounted x]
    rcases hax.cases_tail with rfl | ⟨v, _, hvx⟩
    · exact Nat.add_pos_left ha _
    · exact Nat.add_pos_right _ ((edgesInto_pos_iff _).mpr ⟨v, mem_live_of_mem_children hvx, hvx⟩)
  · exact (hreach x hx).mono fun a ha => .inl ha

/-- **Every step keeps the invariant.** -/
theorem Good.step {s' : State D} {op : Op D} (hstep : Step s op s')
    (hok : KeepsParent s op s') (hcycles : s'.heap.CyclesTracked) : Good s' := by
  cases hstep with
  | allocate howned => exact hg.allocate howned
  | incRef hrun => exact hg.incRef hrun
  | addChild he hdata howned => exact hg.addChild he hdata howned hok
  | removeChild he hdata hrun => exact hg.removeChild he hdata hrun hcycles
  | decRef howned hrun => exact hg.decRef howned hrun hcycles
  | setReaders he => exact hg.setReaders he
  | collectCycles hreaders hrun => exact hg.collectCycles hreaders hrun
  | reindex weakIndex =>
    exact ⟨hg.accounted, hg.settled, hg.purpleCount, hg.positive, hg.anchored⟩

end

theorem Run.good (hrun : Run KeepsParent s) : Good s := by
  induction hrun with
  | new emptyTuple hempty => exact .new hempty
  | step _ hstep hok hcycles ih => exact ih.step hstep hok hcycles

/-- **No garbage is missed.**  In every state of a run, what is not reachable from outside is
reachable from a candidate; so once cycles have been collected, every live entry is reachable from
outside. -/
theorem Run.collectCycles_complete {s : State D} (hrun : Run KeepsParent s) :
    (∀ x ∈ s.heap.live, ¬ ReachFrom s.heap.children s.External x →
      ReachFrom s.heap.children (· ∈ s.heap.purple) x) ∧
    ((∀ x ∈ s.heap.live, s.heap.readers x = 0) →
      ∃ h' freed, s.heap.collectCycles = .ok (h', freed) ∧
        ∀ x ∈ h'.live, ReachFrom h'.children s.External x) := by
  have hg := hrun.good
  refine ⟨fun x hx hnot => ?_, fun hreaders => ?_⟩
  · obtain ⟨a, ha | ha, hax⟩ := hg.anchored x hx
    · exact absurd ⟨a, ha, hax⟩ hnot
    · exact ⟨a, ha, hax⟩
  · obtain ⟨h', W, hok, hc⟩ := collectCycles_spec hg.accounted hg.settled hg.purpleCount
    exact ⟨h', W.card, hok, fun x hx => hg.reachFrom_of_collected hreaders hc hx⟩

theorem cyclesTracked_of_forall {h : Heap D}
    (htracked : ∀ x ∈ h.live, h.tracked x = true ∨ h.children x = []) : h.CyclesTracked := by
  rintro x hx ⟨w, hw, -⟩
  refine (htracked x hx).resolve_right fun hnil => ?_
  rw [hnil] at hw
  exact not_mem_nil hw

end Steps

/-! ## A list that contains itself

The same two objects twice. Slot 0 is the empty tuple and slot 1 a list whose only item is the list
itself; nothing outside refers to the list any more. How the list came to be garbage makes the
difference. -/

/-- Only the empty tuple is referenced from outside, and it refers to nothing. -/
theorem not_reachFrom_selfLoop {s : State HeapData} (hext : ∀ a, s.External a → a = 0)
    (hempty : s.heap.children 0 = []) : ¬ ReachFrom s.heap.children s.External 1 := by
  intro hreach
  have hzero : 1 = 0 := hreach.mem_of_closed (S := (· = 0)) hext fun v hv w hw => by
    rw [show v = 0 from hv, hempty] at hw
    contradiction
  contradiction

/-- A list is appended to itself and then forgotten: the release enrols it, and the collection
frees it. -/
theorem Run.collectCycles_complete_selfLoop : ∃ s : State HeapData,
    1 ∈ s.heap.live ∧ ¬ ReachFrom s.heap.children s.External 1 ∧
    ReachFrom s.heap.children (· ∈ s.heap.purple) 1 ∧
    ∃ h' freed, s.heap.collectCycles = .ok (h', freed) ∧
      ∀ x ∈ h'.live, ReachFrom h'.children s.External x := by
  have r0 : Run KeepsParent (State.new (HeapData.tuple ⟨false, []⟩)) := .new _ rfl
  have r1 := r0.step (Step.allocate fun _ => Nat.zero_le _ :
    Step _ (.allocate (.list ⟨false, []⟩)) _) trivial (cyclesTracked_of_forall (by decide))
  have r2 := r1.step (Step.incRef rfl : Step _ (.incRef 1) _) trivial
    (cyclesTracked_of_forall (by decide))
  have r3 := r2.step (Step.addChild rfl (.refl _) (by decide) :
    Step _ (.addChild 1 (.list ⟨true, [.ref 1]⟩) 1) _)
    (fun _ => .base (by unfold State.External; decide)) (cyclesTracked_of_forall (by decide))
  have r4 := r3.step (Step.decRef (by decide) rfl : Step _ (.decRef 1) _) trivial
    (cyclesTracked_of_forall (by decide))
  refine ⟨_, by decide, ?hnot, (Run.collectCycles_complete r4).1 1 (by decide) ?hnot,
    (Run.collectCycles_complete r4).2 (by decide)⟩
  refine not_reachFrom_selfLoop (fun a ha => ?_) rfl
  match a with
  | 0 => rfl
  | 1 => exact absurd ha (lt_irrefl 0)
  | n + 2 => exact absurd ha (lt_irrefl 0)

/-- The last reference to a list is moved into the list: no reference is given up, so nothing is
enrolled, and the collection finds nothing to do. -/
theorem exists_unenrolled_garbage : ∃ s : State HeapData,
    Run (fun _ _ _ => True) s ∧ (∀ x ∈ s.heap.live, s.heap.readers x = 0) ∧
    1 ∈ s.heap.live ∧ ¬ ReachFrom s.heap.children s.External 1 ∧
    ¬ ReachFrom s.heap.children (· ∈ s.heap.purple) 1 ∧
    s.heap.collectCycles = .ok (s.heap, 0) := by
  have r0 : Run (fun _ _ _ => True) (State.new (HeapData.tuple ⟨false, []⟩)) := .new _ rfl
  have r1 := r0.step (.allocate fun _ => Nat.zero_le _ :
    Step _ (.allocate (.list ⟨false, []⟩)) _) trivial (cyclesTracked_of_forall (by decide))
  have r2 := r1.step (.addChild rfl (.refl _) (by decide) :
    Step _ (.addChild 1 (.list ⟨true, [.ref 1]⟩) 1) _) trivial
    (cyclesTracked_of_forall (by decide))
  refine ⟨_, r2, by decide, by decide, not_reachFrom_selfLoop (fun a ha => ?_) rfl, ?_, rfl⟩
  · match a with
    | 0 => rfl
    | 1 => exact absurd ha (lt_irrefl 0)
    | n + 2 => exact absurd ha (lt_irrefl 0)
  · rintro ⟨a, ha, _⟩
    exact absurd ha (Finset.eq_empty_iff_forall_notMem.mp (by decide) a)

end Monty
