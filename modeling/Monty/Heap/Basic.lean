import Monty.Heap.StableHeap
import Monty.Lib.Multigraph

/-!
# Heap entries, and the heap as a multigraph

A heap entry carries a reference count, the number of active readers, a payload, and the colour the
cycle collector gives it. The payload is any type with the operations the heap needs of one
(`HeapItem`): the two walkers over the references it owns, whether its kind can take part in a
reference cycle, and the key under which a weak index may know it.

Everything the collector does is about the multigraph whose vertices are the live entries and whose
edges are the references the payloads own. `Heap.children` is its successor function; of a freed
slot nothing is held: no count, no reader, `Black`.

* `Heap.get?_setEntry` and `Heap.get?_freeEntry` are the only facts about the arena that the
  collector's proofs use.
* `Heap.SameShape` relates two heaps that differ in counts and colours only: all that the marking
  phases of a collection may change.
* `Heap.Accounted` is the meaning of a reference count: what the outside of the heap owns, plus the
  edges from live entries.
-/

namespace Monty

open Multigraph Option StableHeap

/-- The colour the cycle collector gives an entry. `gray` and `white` occur during a collection
only. -/
inductive CcColor
  | black | gray | white | purple
  deriving DecidableEq, Repr

/-- The key of a payload in one of the heap's weak indexes: the name of an external function, the
uuid of a class or an instance that crossed the boundary, the type id of a host class. -/
inductive WeakIndexKey
  | extFunction (name : String)
  | boundary (uuid : Nat)
  | hostType (typeId : Nat)
  deriving DecidableEq, Repr

/-- What the heap asks of a payload. -/
class HeapItem (D : Type) where
  /-- The references the payload owns, in the order in which `for_each_child_id` reports them. -/
  forEachChildId : D → List HeapId
  /-- The references pushed on the work stack when the payload is freed, in order. -/
  pyDecRefIds : D → List HeapId
  /-- Whether entries of this kind can take part in a reference cycle. -/
  isGcTracked : D → Bool
  /-- The key that must leave the weak indexes when the entry is freed. -/
  weakIndexKey : D → Option WeakIndexKey
  /-- The two walkers report the same references, each as often. -/
  pyDecRefIds_perm : ∀ d, (pyDecRefIds d).Perm (forEachChildId d)

export HeapItem (forEachChildId pyDecRefIds isGcTracked weakIndexKey)

/-- One entry of the heap. -/
structure HeapEntry (D : Type) where
  refcount : Nat
  /-- Number of active readers, which keep the entry from being freed. -/
  readers : Nat
  data : D
  color : CcColor

/-- The heap. The three weak indexes of the source, one per kind of key, are one map here. -/
structure Heap (D : Type) where
  entries : StableHeap (HeapEntry D)
  /-- Kept equal to the number of `purple` entries. -/
  purpleCount : Nat
  allocationsSinceGc : UInt32
  weakIndex : WeakIndexKey → Option HeapId

/-- Everything of an entry but its count and its colour. -/
def HeapEntry.shape {D : Type} (e : HeapEntry D) : D × Nat := (e.data, e.readers)

namespace Heap

variable {D : Type}

def get? (h : Heap D) (id : HeapId) : Option (HeapEntry D) := h.entries.get? id

/-- The entry of an id that has to be live (`HeapPtr::entry`). -/
def get (h : Heap D) (id : HeapId) : Except Panic (HeapEntry D) := h.entries.get id

/-- Overwrites the entry of a live id. -/
def setEntry (h : Heap D) (id : HeapId) (e : HeapEntry D) : Heap D :=
  { h with entries := h.entries.set id e }

/-- Forgets a weak index key, unless the index has come to name another entry. -/
def removeWeakIndexEntry (h : Heap D) (key : Option WeakIndexKey) (id : HeapId) : Heap D :=
  match key with
  | none => h
  | some k =>
    if h.weakIndex k = some id then
      { h with weakIndex := fun k' => if k' = k then none else h.weakIndex k' }
    else h

/-- Removes the entry's weak index key and empties its slot. -/
def freeEntry [HeapItem D] (h : Heap D) (id : HeapId) (e : HeapEntry D) : Heap D :=
  let h := h.removeWeakIndexEntry (weakIndexKey e.data) id
  { h with entries := h.entries.free id }

/-! ## Reading the fields of an entry -/

def live (h : Heap D) : Finset HeapId := h.entries.live

/-- The reference count of an entry; `0` for a freed slot. -/
def refcount (h : Heap D) (id : HeapId) : Nat := (h.get? id).elim 0 (·.refcount)

/-- The number of active readers of an entry; `0` for a freed slot. -/
def readers (h : Heap D) (id : HeapId) : Nat := (h.get? id).elim 0 (·.readers)

/-- The colour of an entry; `black` for a freed slot. -/
def color (h : Heap D) (id : HeapId) : CcColor := (h.get? id).elim .black (·.color)

/-- The references an entry owns; none for a freed slot. -/
def children [HeapItem D] (h : Heap D) (id : HeapId) : List HeapId :=
  (h.get? id).elim [] (forEachChildId ·.data)

/-- Whether the entry's payload can take part in a cycle. -/
def tracked [HeapItem D] (h : Heap D) (id : HeapId) : Bool :=
  (h.get? id).elim false (isGcTracked ·.data)

variable {h : Heap D} {id : HeapId}

theorem mem_live : id ∈ h.live ↔ ∃ e, h.get? id = some e := StableHeap.mem_live

theorem lt_len_of_mem_live (hid : id ∈ h.live) : id < h.entries.len := by
  obtain ⟨e, he⟩ := mem_live.mp hid
  exact lt_len_of_get? he

theorem card_live_le_len (h : Heap D) : h.live.card ≤ h.entries.len := by
  have hsub : h.live ⊆ Finset.range h.entries.len := fun x hx =>
    Finset.mem_range.mpr (lt_len_of_mem_live hx)
  simpa using Finset.card_le_card hsub

variable {e : HeapEntry D}

theorem get_of_get? (he : h.get? id = some e) : h.get id = .ok e := StableHeap.get_of_get? he

theorem get?_of_get (he : h.get id = .ok e) : h.get? id = some e := StableHeap.get?_of_get he

section

variable (he : h.get? id = some e)

include he

theorem refcount_of_get? : h.refcount id = e.refcount := by
  rw [refcount, he, elim_some]

theorem readers_of_get? : h.readers id = e.readers := by
  rw [readers, he, elim_some]

theorem color_of_get? : h.color id = e.color := by
  rw [color, he, elim_some]

theorem children_of_get? [HeapItem D] : h.children id = forEachChildId e.data := by
  rw [children, he, elim_some]

theorem tracked_of_get? [HeapItem D] : h.tracked id = isGcTracked e.data := by
  rw [tracked, he, elim_some]

end

theorem get?_eq_none (hid : id ∉ h.live) : h.get? id = none := by
  cases he : h.get? id with
  | none => rfl
  | some e => exact absurd (mem_live.mpr ⟨e, he⟩) hid

theorem mem_live_of_refcount_pos (hpos : 0 < h.refcount id) : id ∈ h.live := by
  by_contra hid
  rw [refcount, get?_eq_none hid] at hpos
  exact absurd hpos (lt_irrefl 0)

theorem mem_live_of_readers_pos (hpos : 0 < h.readers id) : id ∈ h.live := by
  by_contra hid
  rw [readers, get?_eq_none hid] at hpos
  exact absurd hpos (lt_irrefl 0)

theorem children_eq_nil [HeapItem D] (hid : id ∉ h.live) : h.children id = [] := by
  rw [children, get?_eq_none hid, elim_none]

theorem mem_live_of_mem_children [HeapItem D] {c : HeapId}
    (hc : c ∈ h.children id) : id ∈ h.live := by
  by_contra hid
  rw [children_eq_nil hid] at hc
  contradiction

/-! ## Overwriting an entry -/

section

variable (he : h.get? id = some e) (e' : HeapEntry D) (j : HeapId)

include he

theorem get?_setEntry : (h.setEntry id e').get? j = if j = id then some e' else h.get? j :=
  get?_set he e' j

theorem live_setEntry : (h.setEntry id e').live = h.live := live_set he e'

theorem refcount_setEntry :
    (h.setEntry id e').refcount j = if j = id then e'.refcount else h.refcount j := by
  rw [refcount, get?_setEntry he]
  split_ifs <;> rfl

theorem color_setEntry : (h.setEntry id e').color j = if j = id then e'.color else h.color j := by
  rw [color, get?_setEntry he]
  split_ifs <;> rfl

theorem children_setEntry [HeapItem D] :
    (h.setEntry id e').children j = if j = id then forEachChildId e'.data else h.children j := by
  rw [children, get?_setEntry he]
  split_ifs <;> rfl

theorem refcount_setEntry_of_eq (heq : e'.refcount = e.refcount) :
    (h.setEntry id e').refcount j = h.refcount j := by
  rw [refcount_setEntry he, heq, ← refcount_of_get? he]
  exact ite_eq_right_iff.mpr fun hj => by rw [hj]

theorem color_setEntry_of_eq (heq : e'.color = e.color) :
    (h.setEntry id e').color j = h.color j := by
  rw [color_setEntry he, heq, ← color_of_get? he]
  exact ite_eq_right_iff.mpr fun hj => by rw [hj]

end

/-! ## Freeing an entry -/

@[simp] theorem entries_removeWeakIndexEntry (h : Heap D) (key : Option WeakIndexKey)
    (id : HeapId) : (h.removeWeakIndexEntry key id).entries = h.entries := by
  cases key with
  | none => rfl
  | some k =>
    rw [removeWeakIndexEntry]
    split_ifs <;> rfl

@[simp] theorem purpleCount_removeWeakIndexEntry (h : Heap D) (key : Option WeakIndexKey)
    (id : HeapId) : (h.removeWeakIndexEntry key id).purpleCount = h.purpleCount := by
  cases key with
  | none => rfl
  | some k =>
    rw [removeWeakIndexEntry]
    split_ifs <;> rfl

section

variable [HeapItem D] (h : Heap D) (id : HeapId) (e : HeapEntry D)

theorem get?_freeEntry (j : HeapId) :
    (h.freeEntry id e).get? j = if j = id then none else h.get? j := by
  simp only [get?, freeEntry, entries_removeWeakIndexEntry]
  exact get?_free h.entries id j

@[simp] theorem purpleCount_freeEntry : (h.freeEntry id e).purpleCount = h.purpleCount := by
  simp [freeEntry]

@[simp] theorem len_freeEntry : (h.freeEntry id e).entries.len = h.entries.len := by
  simp [freeEntry]

end

variable {h' : Heap D}

/-! ## Heaps that differ in counts and colours only -/

section

variable (hs : (h'.get? id).map HeapEntry.shape = (h.get? id).map HeapEntry.shape)

include hs

theorem readers_eq_of_shape : h'.readers id = h.readers id := by
  have hid := congrArg (Option.elim · 0 Prod.snd) hs
  simp only [elim_map] at hid
  exact hid

theorem children_eq_of_shape [HeapItem D] : h'.children id = h.children id := by
  have hid := congrArg (Option.elim · [] fun x => forEachChildId x.1) hs
  simp only [elim_map] at hid
  exact hid

theorem tracked_eq_of_shape [HeapItem D] : h'.tracked id = h.tracked id := by
  have hid := congrArg (Option.elim · false fun x => isGcTracked x.1) hs
  simp only [elim_map] at hid
  exact hid

end

/-- The two heaps hold the same payloads and readers in the same slots, and agree on everything
that is not an entry. Reference counts and colours may differ. -/
structure SameShape (h h' : Heap D) : Prop where
  shape : ∀ id, (h'.get? id).map HeapEntry.shape = (h.get? id).map HeapEntry.shape
  len : h'.entries.len = h.entries.len
  freeList : h'.entries.freeList = h.entries.freeList
  purpleCount : h'.purpleCount = h.purpleCount
  weakIndex : h'.weakIndex = h.weakIndex

namespace SameShape

variable {h'' : Heap D}

theorem refl (h : Heap D) : SameShape h h := ⟨fun _ => rfl, rfl, rfl, rfl, rfl⟩

theorem trans (h1 : SameShape h h') (h2 : SameShape h' h'') : SameShape h h'' :=
  ⟨fun id => (h2.shape id).trans (h1.shape id), h2.len.trans h1.len,
    h2.freeList.trans h1.freeList, h2.purpleCount.trans h1.purpleCount,
    h2.weakIndex.trans h1.weakIndex⟩

theorem setEntry (he : h.get? id = some e) {e' : HeapEntry D}
    (hshape : e'.shape = e.shape) : SameShape h (h.setEntry id e') := by
  refine ⟨fun j => ?_, len_set .., freeList_set .., rfl, rfl⟩
  rw [get?_setEntry he]
  split_ifs with hj
  · rw [hj, he, map_some, map_some, hshape]
  · rfl

theorem live (hs : SameShape h h') : h'.live = h.live := by
  ext id
  have hid := congrArg Option.isSome (hs.shape id)
  simp only [isSome_map] at hid
  rw [mem_live, mem_live, ← isSome_iff_exists, ← isSome_iff_exists, hid]

theorem readers (hs : SameShape h h') (id : HeapId) : h'.readers id = h.readers id :=
  readers_eq_of_shape (hs.shape id)

theorem children [HeapItem D] (hs : SameShape h h') : h'.children = h.children :=
  funext fun id => children_eq_of_shape (hs.shape id)

end SameShape

/-! ## Accounted heaps -/

/-- **The meaning of a reference count.**  Every count is the number of references owned outside
the heap plus the number of edges from live entries. The count of a freed slot being `0`, nothing
refers to a freed slot. -/
def Accounted [HeapItem D] (h : Heap D) (external : HeapId → Nat) : Prop :=
  ∀ id, h.refcount id = external id + edgesInto h.children h.live id

variable {external : HeapId → Nat}

theorem Accounted.closed [HeapItem D]
    (ha : h.Accounted external) {c : HeapId} (hc : c ∈ h.children id) : c ∈ h.live := by
  have hpos : 0 < edgesInto h.children h.live c :=
    (edgesInto_pos_iff _).mpr ⟨id, mem_live_of_mem_children hc, hc⟩
  exact mem_live_of_refcount_pos (by rw [ha c]; omega)

theorem Accounted.mem_live [HeapItem D]
    (ha : h.Accounted external) (hid : 0 < external id) : id ∈ h.live :=
  mem_live_of_refcount_pos (by rw [ha id]; omega)

/-- The entries enrolled as possible roots of garbage cycles. -/
def purple (h : Heap D) : Finset HeapId := h.live.filter fun id => h.color id = .purple

theorem mem_purple : id ∈ h.purple ↔ id ∈ h.live ∧ h.color id = .purple := Finset.mem_filter

theorem mem_purple_iff_get? : id ∈ h.purple ↔ ∃ e, h.get? id = some e ∧ e.color = .purple := by
  rw [mem_purple, mem_live]
  constructor
  · rintro ⟨⟨e, he⟩, hc⟩
    exact ⟨e, he, by rw [← hc, color_of_get? he]⟩
  · rintro ⟨e, he, hc⟩
    exact ⟨⟨e, he⟩, by rw [color_of_get? he, hc]⟩

theorem purple_setEntry (he : h.get? id = some e)
    (e' : HeapEntry D) (hcolor : e'.color = e.color) : (h.setEntry id e').purple = h.purple := by
  ext x
  rw [mem_purple, mem_purple, live_setEntry he, color_setEntry_of_eq he e' x hcolor]

end Heap

end Monty
