import Mathlib.Data.Finset.Basic
import Mathlib.Data.Finset.Image

/-!
# The arena of slots

`StableHeap` is the storage behind the interpreter's heap: a growing sequence of slots, each either
occupied or freed, and the stack of freed slots waiting to be reused. The source keeps the slots on
fixed pages so that they never move; which page a slot is on is not observable, so here the
initialised slots are one list, indexed by `HeapId`.

The free list is a `Vec` in the source, pushed and popped at its end. Here it is a list whose head
is the top of that stack. That it holds exactly the freed slots, each once, is part of the type
(`mem_freeList`, `nodup_freeList`): the source checks it with a debug assertion when it pops.
-/

namespace Monty

open List

/-- The index of a heap slot. -/
abbrev HeapId := Nat

/-- How a heap operation can panic. -/
inductive Panic
  /-- A `HeapId` past the last slot. -/
  | outOfBounds
  /-- A `HeapId` whose slot has been freed. -/
  | alreadyFreed
  /-- An entry with active readers would have been freed. -/
  | activeReaders
  /-- A reference count below zero. -/
  | underflow
  /-- The step bound of the model ran out: no operation of the source ends this way, and no run of
  the model does either. -/
  | outOfFuel
  deriving DecidableEq, Repr

/-- Slots, occupied or freed, and the stack of the freed ones. -/
structure StableHeap (α : Type) where
  slots : List (Option α)
  /-- Top of the stack first. -/
  freeList : List HeapId
  /-- The free list holds the freed slots. -/
  mem_freeList : ∀ id, id ∈ freeList ↔ slots[id]? = some none
  /-- No slot is on the free list twice. -/
  nodup_freeList : freeList.Nodup

namespace StableHeap

variable {α : Type}

/-- The arena without slots (`with_capacity`: pages hold no initialised slot yet). -/
def empty : StableHeap α where
  slots := []
  freeList := []
  mem_freeList := by simp
  nodup_freeList := .nil

variable (h : StableHeap α)

/-- Number of slots, freed ones included. -/
def len : Nat := h.slots.length

/-- The value of an occupied slot (`try_entry`, with an id past the end read as freed). -/
def get? (id : HeapId) : Option α := h.slots[id]?.join

/-- The value of a slot that has to be occupied (`StableHeap::get`, `HeapPtr::entry`). -/
def get (id : HeapId) : Except Panic α :=
  match h.slots[id]? with
  | none => .error .outOfBounds
  | some none => .error .alreadyFreed
  | some (some a) => .ok a

/-- The slot's value, `none` if it has been freed (`StableHeap::entry`). -/
def entry (id : HeapId) : Except Panic (Option α) :=
  match h.slots[id]? with
  | none => .error .outOfBounds
  | some a => .ok a

variable {h : StableHeap α} {id : HeapId} {a : α}

theorem get?_eq_some_iff : h.get? id = some a ↔ h.slots[id]? = some (some a) := by
  rw [get?, Option.join_eq_some_iff]

theorem get_of_get? (ha : h.get? id = some a) : h.get id = .ok a := by
  rw [get, get?_eq_some_iff.mp ha]

theorem get?_of_get (ha : h.get id = .ok a) : h.get? id = some a := by
  rw [get] at ha
  rw [get?_eq_some_iff]
  split at ha
  · contradiction
  · contradiction
  · next b hb => cases ha; exact hb

theorem entry_of_lt (hid : id < h.len) : h.entry id = .ok (h.get? id) := by
  rw [entry, get?, getElem?_eq_getElem hid]
  rfl

theorem lt_len_of_get? (ha : h.get? id = some a) : id < h.len :=
  (List.getElem?_eq_some_iff.mp (get?_eq_some_iff.mp ha)).1

theorem notMem_freeList_of_get? (ha : h.get? id = some a) : id ∉ h.freeList := by
  rw [h.mem_freeList, get?_eq_some_iff.mp ha]
  simp

/-! ## Replacing a value -/

/-- Overwrites the value of an occupied slot; other slots are left as they are. -/
def set (h : StableHeap α) (id : HeapId) (a : α) : StableHeap α :=
  match hid : h.get? id with
  | none => h
  | some _ =>
    { h with
      slots := h.slots.set id (some a)
      mem_freeList := by
        intro j
        rw [getElem?_set]
        split_ifs with hj hlt
        · subst hj
          simpa using notMem_freeList_of_get? hid
        · exact absurd (lt_len_of_get? hid) (hj ▸ hlt)
        · exact h.mem_freeList j }

theorem get?_set {b : α} (hb : h.get? id = some b) (a : α)
    (j : HeapId) : (h.set id a).get? j = if j = id then some a else h.get? j := by
  rw [set]
  split
  next hnone => rw [hnone] at hb; contradiction
  next hid =>
    rw [get?, getElem?_set]
    split_ifs with h1 h2 h3 h3 h3
    · rfl
    · exact absurd h1.symm h3
    · exact absurd (lt_len_of_get? hid) (h1 ▸ h2)
    · exact absurd (lt_len_of_get? hid) (h1 ▸ h2)
    · exact absurd h3.symm h1
    · rfl

@[simp] theorem len_set (h : StableHeap α) (id : HeapId) (a : α) : (h.set id a).len = h.len := by
  rw [set]
  split
  · rfl
  · simp [len]

@[simp] theorem freeList_set (h : StableHeap α) (id : HeapId) (a : α) :
    (h.set id a).freeList = h.freeList := by
  rw [set]
  split <;> rfl

/-! ## Freeing a slot -/

/-- Empties an occupied slot and pushes it on the free list (`StableHeapEntry::free`). -/
def free (h : StableHeap α) (id : HeapId) : StableHeap α :=
  match hid : h.get? id with
  | none => h
  | some _ =>
    { slots := h.slots.set id none
      freeList := id :: h.freeList
      mem_freeList := by
        intro j
        rw [mem_cons, getElem?_set]
        split_ifs with hj hlt
        · simp [hj]
        · exact absurd (lt_len_of_get? hid) (hj ▸ hlt)
        · rw [h.mem_freeList]
          simp [Ne.symm hj]
      nodup_freeList := h.nodup_freeList.cons (notMem_freeList_of_get? hid) }

theorem get?_free (h : StableHeap α) (id j : HeapId) :
    (h.free id).get? j = if j = id then none else h.get? j := by
  rw [free]
  split
  next hnone => split_ifs with hj <;> simp [hj, hnone]
  next hid =>
    rw [get?, getElem?_set]
    split_ifs with h1 h2 h3 h3 h3
    · rfl
    · exact absurd h1.symm h3
    · rfl
    · exact absurd (lt_len_of_get? hid) (h1 ▸ h2)
    · exact absurd h3.symm h1
    · rfl

@[simp] theorem len_free (h : StableHeap α) (id : HeapId) : (h.free id).len = h.len := by
  rw [free]
  split
  · rfl
  · simp [len]

/-! ## Taking a slot -/

/-- Stores a value in the slot on top of the free list, or in a new slot at the end. -/
def allocate (h : StableHeap α) (a : α) : HeapId × StableHeap α :=
  match hfree : h.freeList with
  | [] =>
    (h.slots.length,
      { slots := h.slots ++ [some a]
        freeList := []
        mem_freeList := by
          intro j
          have hj := h.mem_freeList j
          rw [hfree] at hj
          rw [getElem?_append]
          split_ifs with hlt
          · exact hj
          · cases hk : j - h.slots.length <;> simp
        nodup_freeList := .nil })
  | id :: rest =>
    (id,
      { slots := h.slots.set id (some a)
        freeList := rest
        mem_freeList := by
          intro j
          have hj := h.mem_freeList j
          have hnd := h.nodup_freeList
          rw [hfree] at hj hnd
          rw [getElem?_set]
          split_ifs with hji hlt
          · subst hji
            simpa using (nodup_cons.mp hnd).1
          · subst hji
            simpa using (nodup_cons.mp hnd).1
          · rw [← hj, mem_cons]
            simp [Ne.symm hji]
        nodup_freeList := (nodup_cons.mp (hfree ▸ h.nodup_freeList)).2 })

theorem get?_allocate_fst (h : StableHeap α) (a : α) : h.get? (h.allocate a).1 = none := by
  rw [allocate]
  split
  next => simp [get?]
  next id rest hfree =>
    have hid := (h.mem_freeList id).mp (by simp [hfree])
    rw [get?, hid]
    rfl

theorem slots_allocate (h : StableHeap α) (a : α) (j : HeapId) : (h.allocate a).2.slots[j]? =
    if j = (h.allocate a).1 then some (some a) else h.slots[j]? := by
  rw [allocate]
  split
  next =>
    rw [getElem?_append]
    rcases Nat.lt_trichotomy j h.slots.length with hj | rfl | hj
    · rw [if_pos hj, if_neg hj.ne]
    · simp
    · have hpast : [some a].length ≤ j - h.slots.length := by simp only [length_singleton]; omega
      rw [if_neg hj.not_gt, if_neg hj.ne', getElem?_eq_none hpast, getElem?_eq_none hj.le]
  next id rest hfree =>
    have hid := (h.mem_freeList id).mp (by simp [hfree])
    have hlt : id < h.slots.length := (List.getElem?_eq_some_iff.mp hid).1
    rw [getElem?_set]
    simp only [eq_comm (a := j), hlt, if_true]

theorem get?_allocate (h : StableHeap α) (a : α) (j : HeapId) :
    (h.allocate a).2.get? j = if j = (h.allocate a).1 then some a else h.get? j := by
  rw [get?, slots_allocate]
  split <;> rfl

/-! ## The occupied slots -/

/-- The occupied slots. -/
def live (h : StableHeap α) : Finset HeapId :=
  (Finset.range h.len).filter fun id => (h.get? id).isSome

theorem mem_live : id ∈ h.live ↔ ∃ a, h.get? id = some a := by
  rw [live, Finset.mem_filter, Finset.mem_range, Option.isSome_iff_exists]
  refine ⟨And.right, fun ⟨a, ha⟩ => ⟨lt_len_of_get? ha, a, ha⟩⟩

theorem live_set {b : α} (hb : h.get? id = some b) (a : α) : (h.set id a).live = h.live := by
  ext j
  rw [mem_live, mem_live, get?_set hb]
  split_ifs with hj
  · subst hj
    simp [hb]
  · rfl

/-! ## Dumping and loading -/

/-- The arena that is loaded from a dump: the slots are those that were dumped, and the free list is
made from the freed ones, so that the last of them is reused first. -/
def reload (h : StableHeap α) (f : α → α) : StableHeap α where
  slots := h.slots.map (Option.map f)
  freeList := ((range h.len).filter fun id => (h.get? id).isNone).reverse
  mem_freeList id := by
    rw [mem_reverse, mem_filter, mem_range, getElem?_map, get?, len]
    by_cases hid : id < h.slots.length
    · rw [getElem?_eq_getElem hid]
      cases h.slots[id] <;> simp [hid]
    · rw [getElem?_eq_none (not_lt.mp hid)]
      simp [hid]
  nodup_freeList := nodup_reverse.mpr (nodup_range.filter _)

theorem get?_reload (h : StableHeap α) (f : α → α) (id : HeapId) :
    (h.reload f).get? id = (h.get? id).map f := by
  rw [get?, get?, reload, getElem?_map]
  cases h.slots[id]? with
  | none => rfl
  | some slot => cases slot <;> rfl

/-! ## Runs -/

/-- What is done to an arena. -/
inductive Op (α : Type)
  | allocate (a : α)
  /-- Through `entry`, so that only an occupied slot is freed. -/
  | free (id : HeapId)
  /-- A dump is loaded. -/
  | reload

def step (h : StableHeap α) : Op α → StableHeap α
  | .allocate a => (h.allocate a).2
  | .free id => h.free id
  | .reload => h.reload fun a => a

def run (h : StableHeap α) (ops : List (Op α)) : StableHeap α := ops.foldl step h

theorem get?_step (ha : h.get? id = some a) {op : Op α} (hop : op ≠ .free id) :
    (h.step op).get? id = some a := by
  cases op with
  | allocate b =>
    have hne : id ≠ (h.allocate b).1 := by
      rintro rfl
      rw [get?_allocate_fst] at ha
      contradiction
    rw [step, get?_allocate, if_neg hne, ha]
  | free j => rw [step, get?_free, if_neg fun hj => hop (by rw [hj]), ha]
  | reload => rw [step, get?_reload, ha, Option.map_some]

theorem get?_run (ha : h.get? id = some a) {ops : List (Op α)} (hops : .free id ∉ ops) :
    (h.run ops).get? id = some a := by
  induction ops generalizing h with
  | nil => exact ha
  | cons op ops ih =>
    rw [mem_cons, not_or] at hops
    exact ih (get?_step ha (.symm hops.1)) hops.2

/-- **Slots are recycled.** However an arena is used, its free list holds the empty slots, each
once; an allocation takes an empty slot and leaves the others as they are; and what was stored under
an id is read until that id is freed. -/
theorem slots_recycled (ops : List (Op α)) : let h := (empty : StableHeap α).run ops
    ((∀ id, id ∈ h.freeList ↔ h.slots[id]? = some none) ∧ h.freeList.Nodup) ∧
    (∀ a, h.get? (h.allocate a).1 = none ∧ (h.allocate a).2.get? (h.allocate a).1 = some a ∧
      ∀ j ≠ (h.allocate a).1, (h.allocate a).2.slots[j]? = h.slots[j]?) ∧
    ∀ id a, h.get? id = some a → ∀ later, .free id ∉ later → (h.run later).get id = .ok a := by
  intro h
  refine ⟨⟨h.mem_freeList, h.nodup_freeList⟩, fun a => ⟨h.get?_allocate_fst a, ?_, fun j hj => ?_⟩,
    fun id a ha later hlater => get_of_get? (get?_run ha hlater)⟩
  · rw [get?_allocate, if_pos rfl]
  · rw [slots_allocate, if_neg hj]

theorem slots_recycled_second : let h := (empty : StableHeap Nat).run [.allocate 7, .allocate 8]
    h.get? 1 = some 8 ∧ (h.run [.free 0, .reload, .allocate 9]).get 1 = .ok 8 :=
  ⟨rfl, (slots_recycled [.allocate 7, .allocate 8]).2.2 1 8 rfl _ (by simp)⟩

end StableHeap

end Monty
