import Monty.Heap.Scan

/-!
# Allocating, retaining and releasing

`decRef` gives up one reference: an entry that keeps other references has its count lowered and, if
its kind can take part in a cycle, is enrolled as `purple`; an entry that gives up its last one is
freed, and the references it owned are released in turn, from a work stack.

During the loop every count is the external references, plus the occurrences on the stack, plus the
edges from live entries (`Underway.refcount`). What matters to the collector is
`Releasing.enrolled`: an entry that lost a reference and lived on is `purple`, if its kind can take
part in a cycle at all.
-/

namespace Monty

open Multigraph List HeapEntry
open Finset hiding mem_cons

namespace Heap

variable {D : Type} [HeapItem D]

/-- Stores a payload in a fresh entry, owned once by the caller. -/
def allocate (h : Heap D) (data : D) : HeapId × Heap D :=
  let slot := h.entries.allocate { refcount := 1, readers := 0, data, color := .black }
  (slot.1, { h with
    entries := slot.2
    allocationsSinceGc := h.allocationsSinceGc + if isGcTracked data then 1 else 0 })

omit [HeapItem D] in
/-- Takes one more reference. -/
def incRef (h : Heap D) (id : HeapId) : Except Panic (Heap D) := do
  let e ← h.get id
  return h.setEntry id { e with refcount := e.refcount + 1 }

/-- One round of `dec_ref`: gives up one reference to `id`, and returns the references that are to
be given up with it. -/
def release (h : Heap D) (id : HeapId) : Except Panic (Heap D × List HeapId) := do
  let e ← h.get id
  if 1 < e.refcount then
    if isGcTracked e.data ∧ e.color ≠ .purple then
      -- the count survived: a cycle that just became unreachable may be hiding here
      return ({ h.setEntry id { e with refcount := e.refcount - 1, color := .purple } with
        purpleCount := h.purpleCount + 1 }, [])
    else
      return (h.setEntry id { e with refcount := e.refcount - 1 }, [])
  else if e.readers ≠ 0 then
    .error .activeReaders
  else if e.color = .purple then
    if h.purpleCount = 0 then
      .error .underflow
    else
      return ({ h.freeEntry id e with purpleCount := h.purpleCount - 1 }, pyDecRefIds e.data)
  else
    return (h.freeEntry id e, pyDecRefIds e.data)

/-- The loop of `dec_ref`. -/
def releaseLoop : Nat → Heap D → HeapId → List HeapId → Except Panic (Heap D)
  | 0, _, _, _ => .error .outOfFuel
  | fuel + 1, h, id, stack => do
    let (h', children) ← h.release id
    match children.reverse ++ stack with
    | [] => .ok h'
    | next :: stack' => releaseLoop fuel h' next stack'

omit [HeapItem D] in
/-- The number of references to live entries. -/
def totalRefs (h : Heap D) : Nat := ∑ id ∈ h.live, h.refcount id

/-- Gives up one reference to `id`, freeing what is no longer referred to. -/
def decRef (h : Heap D) (id : HeapId) : Except Panic (Heap D) := h.releaseLoop h.totalRefs id []

/-! ## One round -/

/-- An entry that gave up one of several references: a cycle that just became unreachable may be
hiding here. -/
def lowered (e : HeapEntry D) : HeapEntry D := { e with
    refcount := e.refcount - 1
    color := if isGcTracked e.data then .purple else e.color }

variable {e : HeapEntry D}

/-- **What a round does.** It lowers the count of an entry that keeps other references, and frees
one that does not, unless it is being read. -/
theorem release_cases {h : Heap D} {id : HeapId} (he : h.get? id = some e)
    (hcount : h.purpleCount = h.purple.card) :
    (1 < e.refcount ∧ ∃ h', h.release id = .ok (h', []) ∧
      (∀ x, h'.get? x = if x = id then some (lowered e) else h.get? x) ∧
      h'.purpleCount = h'.purple.card ∧ h'.weakIndex = h.weakIndex) ∨
    (e.refcount ≤ 1 ∧ e.readers ≠ 0 ∧ h.release id = .error .activeReaders) ∨
    (e.refcount ≤ 1 ∧ e.readers = 0 ∧ ∃ h', h.release id = .ok (h', pyDecRefIds e.data) ∧
      (∀ x, h'.get? x = if x = id then none else h.get? x) ∧
      h'.purpleCount = h'.purple.card ∧
      h'.weakIndex = (h.removeWeakIndexEntry (weakIndexKey e.data) id).weakIndex) := by
  rw [release, get_of_get? he]
  simp only [bind, Except.bind]
  by_cases hmany : 1 < e.refcount
  · left
    refine ⟨hmany, ?_⟩
    rw [if_pos hmany]
    by_cases henrol : isGcTracked e.data = true ∧ e.color ≠ .purple
    · rw [if_pos henrol]
      set h' : Heap D := { h.setEntry id { e with refcount := e.refcount - 1, color := .purple }
        with purpleCount := h.purpleCount + 1 } with hdef
      have hget : ∀ x, h'.get? x = if x = id then some (lowered e) else h.get? x := by
        rw [lowered, if_pos henrol.1]
        exact get?_setEntry he _
      have hpurple : h'.purple = insert id h.purple := by
        ext x
        rw [mem_insert, mem_purple_iff_get?, mem_purple_iff_get?, hget, lowered, if_pos henrol.1]
        split_ifs with hx <;> simp [hx]
      have hnew : id ∉ h.purple := fun hmem => by
        rw [mem_purple, color_of_get? he] at hmem
        exact henrol.2 hmem.2
      refine ⟨h', rfl, hget, ?_, rfl⟩
      rw [hpurple, card_insert_of_notMem hnew, ← hcount]
    · rw [if_neg henrol]
      set h' : Heap D := h.setEntry id { e with refcount := e.refcount - 1 } with hdef
      have hcolor : (lowered e).color = e.color := by
        rw [lowered]
        split_ifs with htracked
        · exact (not_not.mp fun hne => henrol ⟨htracked, hne⟩).symm
        · rfl
      have hget : ∀ x, h'.get? x = if x = id then some (lowered e) else h.get? x := by
        have heq : lowered e = { e with refcount := e.refcount - 1 } :=
          congrArg (fun c => ({ e with refcount := e.refcount - 1, color := c } : HeapEntry D))
            hcolor
        rw [heq]
        exact get?_setEntry he _
      refine ⟨h', rfl, hget, ?_, rfl⟩
      have hpurple : h'.purple = h.purple := purple_setEntry he _ rfl
      rw [hpurple]
      exact hcount
  · right
    have hlast : e.refcount ≤ 1 := by omega
    rw [if_neg hmany]
    by_cases hreaders : e.readers ≠ 0
    · left
      rw [if_pos hreaders]
      exact ⟨hlast, hreaders, rfl⟩
    right
    rw [if_neg hreaders]
    refine ⟨hlast, not_not.mp hreaders, ?_⟩
    have hget : ∀ x, (h.freeEntry id e).get? x = if x = id then none else h.get? x :=
      get?_freeEntry h id e
    have hpurple : (h.freeEntry id e).purple = h.purple.erase id := by
      ext x
      rw [mem_erase, mem_purple_iff_get?, mem_purple_iff_get?, hget]
      split_ifs with hx <;> simp [hx]
    by_cases hc : e.color = .purple
    · have hmem : id ∈ h.purple := by
        rw [mem_purple, color_of_get? he]
        exact ⟨mem_live.mpr ⟨e, he⟩, hc⟩
      have hcard := Finset.card_pos.mpr ⟨id, hmem⟩
      rw [if_pos hc, if_neg (by rw [hcount]; omega)]
      refine ⟨_, rfl, hget, ?_, rfl⟩
      change h.purpleCount - 1 = (h.freeEntry id e).purple.card
      rw [hpurple, card_erase_of_mem hmem, hcount]
    rw [if_neg hc]
    refine ⟨_, rfl, hget, ?_, rfl⟩
    have hnot : id ∉ h.purple := fun hmem => by
      rw [mem_purple, color_of_get? he] at hmem
      exact hc hmem.2
    rw [hpurple, erase_eq_of_notMem hnot, purpleCount_freeEntry, hcount]

/-- Every count is what is owned outside the heap, plus the occurrences among the references still
to be given up, plus the edges from the entries of `h` that are left in `h'`. -/
structure Underway (h : Heap D) (external : HeapId → Nat) (pending : List HeapId) (h' : Heap D) :
    Prop where
  live : h'.live ⊆ h.live
  shape : ∀ x ∈ h'.live, (h'.get? x).map HeapEntry.shape = (h.get? x).map HeapEntry.shape
  refcount : ∀ x, h'.refcount x = external x + pending.count x + edgesInto h.children h'.live x

variable {h h' h'' : Heap D} {external : HeapId → Nat} {id : HeapId} {stack : List HeapId}
  {e : HeapEntry D} (he : h'.get? id = some e)

theorem Underway.mem_live (hu : Underway h external (id :: stack) h') : id ∈ h'.live := by
  refine mem_live_of_refcount_pos ?_
  rw [hu.refcount, count_cons_self]
  omega

theorem Underway.entry (hu : Underway h external (id :: stack) h') :
    ∃ e, h'.get? id = some e ∧ 0 < e.refcount := by
  obtain ⟨e, he⟩ := Heap.mem_live.mp hu.mem_live
  refine ⟨e, he, ?_⟩
  rw [← refcount_of_get? he, hu.refcount, count_cons_self]
  omega

include he in
theorem live_of_lowered (hget : ∀ x, h''.get? x = if x = id then some (lowered e) else h'.get? x) :
    h''.live = h'.live := by
  ext x
  rw [mem_live, mem_live, hget]
  split_ifs with hx <;> simp [hx, he]

omit [HeapItem D] in
theorem live_of_freed (hget : ∀ x, h''.get? x = if x = id then none else h'.get? x) :
    h''.live = h'.live.erase id := by
  ext x
  rw [mem_erase, mem_live, mem_live, hget]
  split_ifs with hx <;> simp [hx]

section

variable (hu : Underway h external (id :: stack) h') (he : h'.get? id = some e)

include hu he

theorem Underway.lower (hmany : 1 < e.refcount)
    (hget : ∀ x, h''.get? x = if x = id then some (lowered e) else h'.get? x) :
    Underway h external stack h'' := by
  have hlive := live_of_lowered he hget
  refine ⟨hlive ▸ hu.live, fun x hx => ?_, fun x => ?_⟩
  · rw [← hu.shape x (hlive ▸ hx), hget]
    split_ifs with hxid
    · rw [hxid, he]
      rfl
    · rfl
  have hold := hu.refcount x
  rw [hlive, Heap.refcount, hget]
  split_ifs with hx
  · subst hx
    rw [count_cons_self, refcount_of_get? he] at hold
    change e.refcount - 1 = _
    omega
  · rw [count_cons_of_ne (Ne.symm hx)] at hold
    exact hold

theorem Underway.count_pushed (x : HeapId) :
    ((pyDecRefIds e.data).reverse ++ stack).count x = (h.children id).count x + stack.count x := by
  rw [count_append, count_reverse, (HeapItem.pyDecRefIds_perm e.data).count_eq,
    ← children_of_get? he, children_eq_of_shape (hu.shape id hu.mem_live)]

theorem Underway.free
    (hlast : e.refcount ≤ 1) (hget : ∀ x, h''.get? x = if x = id then none else h'.get? x) :
    Underway h external ((pyDecRefIds e.data).reverse ++ stack) h'' := by
  have hlive := live_of_freed hget
  refine ⟨?_, fun x hx => ?_, fun x => ?_⟩
  · rw [hlive]
    exact (erase_subset _ _).trans hu.live
  · rw [hlive, mem_erase] at hx
    rw [hget, if_neg hx.1]
    exact hu.shape x hx.2
  have hold := hu.refcount x
  have hedges := edgesInto_erase h.children hu.mem_live x
  rw [hu.count_pushed he, hlive, Heap.refcount, hget]
  split_ifs with hx
  · -- the last reference was the one given up: no other is left
    subst hx
    rw [count_cons_self, refcount_of_get? he] at hold
    dsimp only [Option.elim_none]
    omega
  · rw [count_cons_of_ne (Ne.symm hx)] at hold
    change h'.refcount x = _
    omega

end

/-- **The invariant of a release in progress**, relative to the heap `h` it started from: `pending`
are the references still to be given up. -/
structure Releasing (h : Heap D) (external : HeapId → Nat) (start : HeapId)
    (pending : List HeapId) (h' : Heap D) : Prop extends Underway h external pending h' where
  positive : ∀ x ∈ h'.live, 0 < h'.refcount x
  color : ∀ x ∈ h'.live, h'.color x = h.color x ∨ h'.color x = .purple
  purple : ∀ x ∈ h'.live, h.color x = .purple → h'.color x = .purple
  purpleCount : h'.purpleCount = h'.purple.card
  /-- An entry that lost a reference is `purple`, unless its kind cannot be part of a cycle. -/
  enrolled : ∀ x ∈ h'.live, (x = start ∨ ∃ f, f ∉ h'.live ∧ x ∈ h.children f) →
    x ∈ pending ∨ (h.tracked x = true → h'.color x = .purple)

variable {start : HeapId} {h'' : Heap D} (hr : Releasing h external start (id :: stack) h')

include hr he in
/-- The entry lives on: its count is lowered, and it is enrolled if its kind can be part of a
cycle. -/
theorem Releasing.lower (hmany : 1 < e.refcount)
    (hget : ∀ x, h''.get? x = if x = id then some (lowered e) else h'.get? x)
    (hcount : h''.purpleCount = h''.purple.card) : Releasing h external start stack h'' := by
  have hlive := live_of_lowered he hget
  have hid : h''.get? id = some (lowered e) := by rw [hget, if_pos rfl]
  have hne : ∀ {x}, x ≠ id → h''.get? x = h'.get? x := fun hx => by rw [hget, if_neg hx]
  have hcolor : ∀ x, h''.color x = h'.color x ∨ h''.color x = .purple := fun x => by
    by_cases hxid : x = id
    · rw [hxid, color_of_get? hid, color_of_get? he, lowered]
      split_ifs
      · exact .inr rfl
      · exact .inl rfl
    · rw [Heap.color, hne hxid]
      exact .inl rfl
  refine ⟨hr.toUnderway.lower he hmany hget, fun x hx => ?_, fun x hx => ?_, fun x hx hp => ?_,
    hcount, fun x hx hlost => ?_⟩
  · by_cases hxid : x = id
    · rw [hxid, refcount_of_get? hid]
      exact Nat.sub_pos_of_lt hmany
    · rw [Heap.refcount, hne hxid]
      exact hr.positive x (hlive ▸ hx)
  · rcases hcolor x with hc | hc
    · exact hc ▸ hr.color x (hlive ▸ hx)
    · exact .inr hc
  · rcases hcolor x with hc | hc
    · exact hc.trans (hr.purple x (hlive ▸ hx) hp)
    · exact hc
  · rw [hlive] at hx hlost
    by_cases hxid : x = id
    · subst hxid
      right
      rw [← tracked_eq_of_shape (hr.shape x hx), tracked_of_get? he, color_of_get? hid]
      intro htracked
      rw [lowered, if_pos htracked]
    · rw [Heap.color, hne hxid]
      have hold := hr.enrolled x hx hlost
      rw [mem_cons, or_iff_right hxid] at hold
      exact hold

include hr he in
/-- The entry is freed: its references join the pending ones. -/
theorem Releasing.free (hlast : e.refcount ≤ 1)
    (hget : ∀ x, h''.get? x = if x = id then none else h'.get? x)
    (hcount : h''.purpleCount = h''.purple.card) :
    Releasing h external start ((pyDecRefIds e.data).reverse ++ stack) h'' := by
  have hids := hr.toUnderway.count_pushed he
  have hne : ∀ {x}, x ≠ id → h''.get? x = h'.get? x := fun hx => by rw [hget, if_neg hx]
  have hlive := live_of_freed hget
  have hlive' : ∀ {x}, x ∈ h''.live → x ≠ id ∧ x ∈ h'.live := fun hx =>
    Finset.mem_erase.mp (hlive ▸ hx)
  refine ⟨hr.toUnderway.free he hlast hget, fun x hx => ?_, fun x hx => ?_, fun x hx hp => ?_,
    hcount, fun x hx hlost => ?_⟩
  · rw [Heap.refcount, hne (hlive' hx).1]
    exact hr.positive x (hlive' hx).2
  · rw [Heap.color, hne (hlive' hx).1]
    exact hr.color x (hlive' hx).2
  · rw [Heap.color, hne (hlive' hx).1]
    exact hr.purple x (hlive' hx).2 hp
  obtain ⟨hxid, hxl⟩ := hlive' hx
  have hpending : x ∈ h.children id → x ∈ (pyDecRefIds e.data).reverse ++ stack := fun hch => by
    rw [← count_pos_iff, hids]
    have := count_pos_iff.mpr hch
    omega
  have hkeep : (x = start ∨ ∃ f, f ∉ h'.live ∧ x ∈ h.children f) →
      x ∈ (pyDecRefIds e.data).reverse ++ stack ∨ (h.tracked x = true → h''.color x = .purple) := by
    intro hlost
    rw [Heap.color, hne hxid]
    have hold := hr.enrolled x hxl hlost
    rw [mem_cons, or_iff_right hxid] at hold
    exact hold.imp_left (mem_append_right _)
  rcases hlost with hs | ⟨f, hf, hxf⟩
  · exact hkeep (.inl hs)
  by_cases hfid : f = id
  · exact .inl (hpending (hfid ▸ hxf))
  · refine hkeep (.inr ⟨f, fun hfl => hf ?_, hxf⟩)
    rw [hlive]
    exact Finset.mem_erase.mpr ⟨hfid, hfl⟩

/-! ## The cascade -/

include he in
omit [HeapItem D] in
theorem totalRefs_eq : h'.totalRefs = e.refcount + ∑ x ∈ h'.live.erase id, h'.refcount x := by
  rw [totalRefs, ← add_sum_erase _ _ (mem_live.mpr ⟨e, he⟩), refcount_of_get? he]

omit [HeapItem D] in
theorem sum_refcount_congr {S : Finset HeapId} (hget : ∀ x, x ≠ id → h''.get? x = h'.get? x) :
    ∑ x ∈ S.erase id, h''.refcount x = ∑ x ∈ S.erase id, h'.refcount x :=
  sum_congr rfl fun x hx => by rw [refcount, hget x (ne_of_mem_erase hx)]; rfl

include he in
theorem totalRefs_lower (hpos : 0 < e.refcount)
    (hget : ∀ x, h''.get? x = if x = id then some (lowered e) else h'.get? x) :
    h''.totalRefs + 1 = h'.totalRefs := by
  have hid : h''.get? id = some (lowered e) := by rw [hget, if_pos rfl]
  rw [totalRefs_eq he, totalRefs_eq hid, live_of_lowered he hget,
    sum_refcount_congr fun x hx => (hget x).trans (if_neg hx)]
  change e.refcount - 1 + _ + 1 = _
  omega

include he in
omit [HeapItem D] in
theorem totalRefs_free (hone : e.refcount = 1)
    (hget : ∀ x, h''.get? x = if x = id then none else h'.get? x) :
    h''.totalRefs + 1 = h'.totalRefs := by
  rw [totalRefs_eq he, totalRefs, live_of_freed hget,
    sum_refcount_congr fun x hx => (hget x).trans (if_neg hx), hone, Nat.add_comm]

omit he in
/-- **An invariant of the loop of `dec_ref`**, of the references still to be given up and the heap,
holds at the end, unless an entry has to go that is being read. -/
theorem releaseLoop_rule {P : List HeapId → Heap D → Prop} {E : Prop}
    (hP : ∀ {pending h'}, P pending h' →
      Underway h external pending h' ∧ h'.purpleCount = h'.purple.card)
    (hlower : ∀ {id stack h' h'' e}, P (id :: stack) h' → h'.get? id = some e → 1 < e.refcount →
      (∀ x, h''.get? x = if x = id then some (lowered e) else h'.get? x) →
      h''.purpleCount = h''.purple.card → P stack h'')
    (hfree : ∀ {id stack h' h'' e}, P (id :: stack) h' → h'.get? id = some e → e.refcount ≤ 1 →
      (∀ x, h''.get? x = if x = id then none else h'.get? x) →
      h''.purpleCount = h''.purple.card → P ((pyDecRefIds e.data).reverse ++ stack) h'')
    (hread : ∀ {id stack h' e}, P (id :: stack) h' → h'.get? id = some e → e.refcount ≤ 1 →
      h.readers id ≠ 0 → E)
    (fuel : Nat) (hp : P (id :: stack) h') (hfuel : h'.totalRefs ≤ fuel) :
    (h'.releaseLoop fuel id stack = .error .activeReaders ∧ E) ∨
      ∃ h'', h'.releaseLoop fuel id stack = .ok h'' ∧ P [] h'' := by
  induction fuel generalizing h' id stack with
  | zero =>
    obtain ⟨e, he, hpos⟩ := (hP hp).1.entry
    rw [totalRefs_eq he] at hfuel
    omega
  | succ fuel ih =>
    obtain ⟨hu, hpurple⟩ := hP hp
    obtain ⟨e, he, hpos⟩ := hu.entry
    -- what is left of the loop after a round that pushed `children`
    have hrest : ∀ {h'' children}, h'.release id = .ok (h'', children) →
        P (children.reverse ++ stack) h'' → h''.totalRefs + 1 = h'.totalRefs →
        (h'.releaseLoop (fuel + 1) id stack = .error .activeReaders ∧ E) ∨
          ∃ h'', h'.releaseLoop (fuel + 1) id stack = .ok h'' ∧ P [] h'' := by
      intro h'' children hrun hp' htotal
      rw [releaseLoop, hrun]
      simp only [bind, Except.bind]
      cases hst : children.reverse ++ stack with
      | nil => exact .inr ⟨h'', rfl, hst ▸ hp'⟩
      | cons next rest => exact ih (hst ▸ hp') (by omega)
    rcases release_cases he hpurple with ⟨hmany, h'', hrun, hget, hcount, -⟩ |
        ⟨hlast, hreaders, hrun⟩ | ⟨hlast, -, h'', hrun, hget, hcount, -⟩
    · exact hrest hrun (hlower hp he hmany hget hcount) (totalRefs_lower he hpos hget)
    · rw [← readers_of_get? he, readers_eq_of_shape (hu.shape id hu.mem_live)] at hreaders
      exact .inl ⟨by rw [releaseLoop, hrun]; rfl, hread hp he hlast hreaders⟩
    · exact hrest hrun (hfree hp he hlast hget hcount) (totalRefs_free he (by omega) hget)

/-- **Giving up a reference.**  In a heap whose counts include the reference given up, `dec_ref`
returns, unless it would free an entry that is being read. -/
theorem decRef_spec
    (hcount : ∀ x, h.refcount x = external x + [start].count x + edgesInto h.children h.live x)
    (hpos : ∀ x ∈ h.live, 0 < h.refcount x) (hpurple : h.purpleCount = h.purple.card) :
    (h.decRef start = .error .activeReaders ∧ ∃ x ∈ h.live, h.readers x ≠ 0) ∨
    ∃ h', h.decRef start = .ok h' ∧ Releasing h external start [] h' := by
  have hinit : Releasing h external start [start] h := by
    refine ⟨⟨Finset.Subset.refl _, fun _ _ => rfl, hcount⟩, hpos, fun _ _ => .inl rfl,
      fun _ _ hp => hp, hpurple, fun x hx hlost => ?_⟩
    rcases hlost with rfl | ⟨f, hf, hxf⟩
    · exact .inl mem_cons_self
    · exact absurd (mem_live_of_mem_children hxf) hf
  exact releaseLoop_rule (fun hr => ⟨hr.toUnderway, hr.purpleCount⟩) (fun hr he => hr.lower he)
    (fun hr he => hr.free he) (fun hr _ _ hread => ⟨_, hr.live hr.mem_live, hread⟩) _ hinit le_rfl

end Heap

end Monty
