import Monty.Heap.Payload
import Monty.Heap.Release

/-!
# What a release frees

When a reference is given up, an entry has to go once every reference to it is the one given up or
comes from entries that go, each counted as often as it occurs. `Heap.Drained` says of a set of
entries that it leaves no such entry out, and `decRef_frees_least` that `dec_ref` frees the least
set of this kind: nothing else is freed, and nothing that lost no reference is touched.

The loop may push an entry many times, once for each reference that is given up, but an entry is
freed when the last of them is popped, so none is left on the stack for a slot that is free.
-/

namespace Monty

open Multigraph List Finset

namespace Heap

variable {D : Type} [HeapItem D]

/-- How many references `x` loses when the one to `start` is given up and `S` is freed. -/
def lost (h : Heap D) (start : HeapId) (S : Finset HeapId) (x : HeapId) : Nat :=
  [start].count x + edgesInto h.children S x

/-- An entry that loses a reference, and all of them, is in the set. -/
def Drained (h : Heap D) (start : HeapId) (S : Finset HeapId) : Prop :=
  ∀ x ∈ h.live, 0 < h.lost start S x → h.refcount x = h.lost start S x → x ∈ S

/-- The entry is in every set that leaves no drained entry out. -/
def MustGo (h : Heap D) (start x : HeapId) : Prop := ∀ S, S ⊆ h.live → h.Drained start S → x ∈ S

/-- The invariant of the cascade: what was freed had to go, and what lost a reference and is left
has others. -/
structure Cascading (h : Heap D) (external : HeapId → Nat) (start : HeapId)
    (pending : List HeapId) (h' : Heap D) : Prop extends Underway h external pending h' where
  pending_le : ∀ x, pending.count x ≤ h.lost start (h.live \ h'.live) x
  mustGo : ∀ x ∈ h.live \ h'.live, h.MustGo start x
  positive : ∀ x ∈ h'.live, 0 < h.lost start (h.live \ h'.live) x → 0 < h'.refcount x
  untouched : ∀ x ∈ h'.live, h.lost start (h.live \ h'.live) x = 0 → h'.get? x = h.get? x
  purpleCount : h'.purpleCount = h'.purple.card

section Cascade

variable {h h' h'' : Heap D} {external : HeapId → Nat} {start id : HeapId} {stack : List HeapId}
  {e : HeapEntry D} {S : Finset HeapId}

theorem lost_mono {T : Finset HeapId} (hST : S ⊆ T) (x : HeapId) :
    h.lost start S x ≤ h.lost start T x :=
  Nat.add_le_add_left (edgesInto_mono _ hST x) _

theorem lost_insert (hid : id ∉ S) (x : HeapId) :
    h.lost start (insert id S) x = h.lost start S x + (h.children id).count x := by
  rw [lost, lost, edgesInto_insert _ hid]
  omega

/-- **The books balance**: what an entry had, it has or lost, but for what is still pending. -/
theorem Underway.balance {pending : List HeapId} (hu : Underway h external pending h')
    (hcount : ∀ x, h.refcount x = external x + [start].count x + edgesInto h.children h.live x)
    (x : HeapId) :
    h.refcount x + pending.count x = h'.refcount x + h.lost start (h.live \ h'.live) x := by
  have hsplit := edgesInto_sdiff h.children hu.live x
  have hold := hcount x
  have hnew := hu.refcount x
  rw [lost]
  omega

variable (hcount : ∀ x, h.refcount x = external x + [start].count x + edgesInto h.children h.live x)

include hcount in
theorem lost_le_refcount (hS : S ⊆ h.live) (x : HeapId) : h.lost start S x ≤ h.refcount x := by
  have hle := edgesInto_mono h.children hS x
  have hold := hcount x
  rw [lost]
  omega

section

variable (hc : Cascading h external start (id :: stack) h')

include hc

theorem Cascading.lower (he : h'.get? id = some e) (hmany : 1 < e.refcount)
    (hget : ∀ x, h''.get? x = if x = id then some (lowered e) else h'.get? x)
    (hpurple : h''.purpleCount = h''.purple.card) : Cascading h external start stack h'' := by
  have hlive := live_of_lowered he hget
  refine ⟨hc.toUnderway.lower he hmany hget, fun x => ?_, ?_, fun x hx hlost => ?_,
    fun x hx hlost => ?_, hpurple⟩
  · rw [hlive]
    exact (count_le_count_cons).trans (hc.pending_le x)
  · rw [hlive]
    exact hc.mustGo
  · rw [hlive] at hx hlost
    rw [Heap.refcount, hget]
    split_ifs
    · exact Nat.sub_pos_of_lt hmany
    · exact hc.positive x hx hlost
  rw [hlive] at hx hlost
  -- the entry that was lowered has lost a reference
  have hne : x ≠ id := by
    rintro rfl
    have hle := hc.pending_le x
    rw [count_cons_self] at hle
    omega
  rw [hget, if_neg hne]
  exact hc.untouched x hx hlost

include hcount in
/-- An entry that gives up its last reference has lost as many as it had. -/
theorem Cascading.mustGo_of_last
    (he : h'.get? id = some e) (hlast : e.refcount ≤ 1) : h.MustGo start id := by
  intro S hS hdrained
  have hfreed : h.live \ h'.live ⊆ S := fun x hx => hc.mustGo x hx S hS hdrained
  have hbalance := hc.toUnderway.balance hcount id
  have hpending := hc.pending_le id
  have hrefcount := hc.refcount id
  have hmono : h.lost start (h.live \ h'.live) id ≤ h.lost start S id := lost_mono hfreed id
  have hle := lost_le_refcount hcount hS id
  rw [refcount_of_get? he] at hbalance hrefcount
  rw [count_cons_self] at hbalance hpending hrefcount
  exact hdrained id (hc.live hc.mem_live) (by omega) (by omega)

include hcount in
theorem Cascading.free (he : h'.get? id = some e) (hlast : e.refcount ≤ 1)
    (hget : ∀ x, h''.get? x = if x = id then none else h'.get? x)
    (hpurple : h''.purpleCount = h''.purple.card) :
    Cascading h external start ((pyDecRefIds e.data).reverse ++ stack) h'' := by
  have hu := hc.toUnderway.free he hlast hget
  have hlive := live_of_freed hget
  have hid := hc.mem_live
  have hnot : id ∉ h.live \ h'.live := fun hmem => (mem_sdiff.mp hmem).2 hid
  have hfreed : h.live \ h''.live = insert id (h.live \ h'.live) := by
    rw [hlive, sdiff_erase (hc.live hid)]
  have hlost : ∀ x, h.lost start (h.live \ h''.live) x
      = h.lost start (h.live \ h'.live) x + (h.children id).count x := fun x => by
    rw [hfreed, lost_insert hnot]
  have hpending : ∀ x, ((pyDecRefIds e.data).reverse ++ stack).count x
      ≤ h.lost start (h.live \ h''.live) x := by
    intro x
    have hold := (count_le_count_cons).trans (hc.pending_le x)
    rw [hc.toUnderway.count_pushed he, hlost]
    omega
  refine ⟨hu, hpending, ?_, fun x hx hpos => ?_, fun x hx hzero => ?_, hpurple⟩
  · rw [hfreed]
    intro x hx
    rcases mem_insert.mp hx with rfl | hx
    · exact hc.mustGo_of_last hcount he hlast
    · exact hc.mustGo x hx
  · by_cases hch : 0 < (h.children id).count x
    · -- a reference that is still pending counts
      rw [hu.refcount, hc.toUnderway.count_pushed he]
      omega
    rw [hlive, mem_erase] at hx
    rw [Heap.refcount, hget, if_neg hx.1]
    refine hc.positive x hx.2 ?_
    rw [hlost] at hpos
    omega
  rw [hlive, mem_erase] at hx
  rw [hget, if_neg hx.1]
  refine hc.untouched x hx.2 ?_
  rw [hlost] at hzero
  omega

end

end Cascade

/-- **What giving up a reference does.** Let every count be the references owned outside plus the
edges from live entries, and let nothing that has to go be in use. Then releasing an entry that is
owned outside returns. Every count is again what is owned outside, now once less for the entry, plus
the edges from what is live; what was freed is the least set of live entries that leaves no drained
entry out; what is left keeps its payload, and what lost no reference is as it was. -/
theorem decRef_frees_least {h : Heap D} {external : HeapId → Nat} {start : HeapId}
    (haccounted : h.Accounted external) (hpurple : h.purpleCount = h.purple.card)
    (howned : 0 < external start) (hreaders : ∀ x, h.MustGo start x → h.readers x = 0) :
    ∃ h', h.decRef start = .ok h' ∧ h'.Accounted (fun x => external x - [start].count x) ∧
      h'.live ⊆ h.live ∧
      IsLeast {S | S ⊆ h.live ∧ h.Drained start S} (h.live \ h'.live) ∧
      (∀ x ∈ h'.live, (h'.get? x).map HeapEntry.shape = (h.get? x).map HeapEntry.shape ∧
        h'.refcount x + h.lost start (h.live \ h'.live) x = h.refcount x ∧
        (h.lost start (h.live \ h'.live) x = 0 → h'.get? x = h.get? x)) ∧
      h'.purpleCount = h'.purple.card := by
  have hcount : ∀ x, h.refcount x = external x - [start].count x + [start].count x
      + edgesInto h.children h.live x := by
    intro x
    have hx := haccounted x
    by_cases hxs : x = start
    · subst hxs
      rw [count_cons_self, count_nil]
      omega
    · rw [count_cons_of_ne (Ne.symm hxs), count_nil]
      omega
  have hnone : h.live \ h.live = ∅ := Finset.sdiff_self _
  have hinit : Cascading h (fun x => external x - [start].count x) start [start] h := by
    refine ⟨⟨Finset.Subset.refl _, fun _ _ => rfl, hcount⟩, fun x => ?_, ?_, fun x _ hpos => ?_,
      fun x _ _ => rfl, hpurple⟩
    · exact Nat.le_add_right _ _
    · rw [hnone]
      exact fun x hx => absurd hx (notMem_empty x)
    · rw [hnone, lost, edgesInto_empty] at hpos
      have hx := hcount x
      omega
  obtain ⟨h', hrun, hc⟩ : ∃ h', h.decRef start = .ok h' ∧ Cascading h _ start [] h' :=
    (releaseLoop_rule (fun hc => ⟨hc.toUnderway, hc.purpleCount⟩) Cascading.lower
      (fun hc => hc.free hcount)
      (fun hc he hlast hread => hread (hreaders _ (hc.mustGo_of_last hcount he hlast)))
      h.totalRefs hinit le_rfl).resolve_left And.right
  have hbalance : ∀ x,
      h'.refcount x + h.lost start (h.live \ h'.live) x = h.refcount x := fun x => by
    rw [← hc.toUnderway.balance hcount x, count_nil, Nat.add_zero]
  have hchildren : ∀ v ∈ h'.live, h'.children v = h.children v := fun v hv =>
    children_eq_of_shape (hc.shape v hv)
  refine ⟨h', hrun, fun x => ?_, hc.live, ⟨⟨sdiff_subset, fun x hx hpos hall => ?_⟩, ?_⟩,
    fun x hx => ⟨hc.shape x hx, hbalance x, hc.untouched x hx⟩, hc.purpleCount⟩
  · rw [hc.refcount, count_nil, Nat.add_zero, edgesInto_congr hchildren]
  · -- an entry left that lost all its references would have none
    by_contra hleft
    have hx' : x ∈ h'.live := by
      by_contra hx'
      exact hleft (mem_sdiff.mpr ⟨hx, hx'⟩)
    have hx'pos := hc.positive x hx' hpos
    have hx'bal := hbalance x
    omega
  · rintro S ⟨hS, hdrained⟩ x hx
    exact hc.mustGo x hx S hS hdrained

/-! ## A cascade -/

/-- A list that holds another one twice, and a third one that is also held from outside. The empty
tuple in slot 0 is held by the heap and by the list in slot 2. -/
def nested : Heap HeapData where
  entries :=
    { slots := [
        some { refcount := 2, readers := 0, data := .tuple ⟨false, []⟩, color := .black },
        some { refcount := 1, readers := 0, data := .list ⟨true, [.ref 2, .ref 3, .ref 2]⟩,
               color := .black },
        some { refcount := 2, readers := 0, data := .list ⟨true, [.ref 0]⟩, color := .purple },
        some { refcount := 2, readers := 0, data := .list ⟨true, []⟩, color := .black }]
      freeList := []
      mem_freeList := fun id => by
        match id with
        | 0 | 1 | 2 | 3 | n + 4 => simp
      nodup_freeList := List.nodup_nil }
  purpleCount := 1
  allocationsSinceGc := 0
  weakIndex := fun _ => none

/-- What is held from outside. -/
def nestedExternal (id : HeapId) : Nat := if id = 0 ∨ id = 1 ∨ id = 3 then 1 else 0

theorem nested_accounted : nested.Accounted nestedExternal := by
  intro id
  match id with
  | 0 | 1 | 2 | 3 => decide
  | n + 4 =>
    rfl

/-- Releasing the outer list frees it and the one it held twice. -/
theorem decRef_frees_least_nested : ∃ h', nested.decRef 1 = .ok h' ∧ h'.live = {0, 3} ∧
    IsLeast {S | S ⊆ nested.live ∧ nested.Drained 1 S} (nested.live \ h'.live) := by
  have hreaders : ∀ x, nested.MustGo 1 x → nested.readers x = 0 := by
    intro x _
    match x with
    | 0 | 1 | 2 | 3 | n + 4 => rfl
  obtain ⟨h', hrun, -, -, hleast, -⟩ :=
    decRef_frees_least nested_accounted (by decide) (by decide) hreaders
  obtain ⟨h1, hrun1, hlive⟩ : ∃ h1, nested.decRef 1 = .ok h1 ∧ h1.live = {0, 3} :=
    ⟨_, rfl, by decide⟩
  obtain rfl : h1 = h' := Except.ok.inj (hrun1.symm.trans hrun)
  exact ⟨h1, hrun, hlive, hleast⟩

end Heap

end Monty
