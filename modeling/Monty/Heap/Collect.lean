import Monty.Heap.Payload
import Monty.Heap.Scan

/-!
# Freeing the white entries, and the collection as a whole

Phase 3 walks from the roots through `white` entries and frees them. Since every `white` entry is
reached from a root through `white` entries, all of them are freed, and nothing else is
(`collectWhite_spec`).

`collectCycles_spec` puts the three phases together. A collection of an accounted heap returns,
frees a set `W` of entries, and leaves every other entry's payload alone. The heap is accounted
again, with the same external references. `W` contains nothing reachable from an entry with an
external reference or a reader, and conversely what is left is reachable from such an entry or from
an entry that no enrolled candidate reaches.
-/

namespace Monty

open Multigraph List Finset HeapEntry

namespace Heap

variable {D : Type} [HeapItem D]

/-! ## Phase 3 -/

/-- **The invariant of phase 3**: of the `white` set `W`, the entries in `F` have been freed. -/
structure Sweeping (h : Heap D) (W F : Finset HeapId) (roots stack : List HeapId)
    (h' : Heap D) : Prop where
  get? : ∀ x, h'.get? x = if x ∈ F then none else h.get? x
  len : h'.entries.len = h.entries.len
  freed : F ⊆ W
  stack_lt : ∀ s ∈ stack, s < h.entries.len
  /-- The next `white` entries to free are on the stack. -/
  covered : ∀ w ∈ W, w ∉ F → (w ∈ roots ∨ ∃ f ∈ F, w ∈ h.children f) → w ∈ stack

section Sweep

variable {h : Heap D} {W F : Finset HeapId} {roots stack : List HeapId} {h' : Heap D} {id : HeapId}

theorem Sweeping.drop (hs : Sweeping h W F roots (id :: stack) h')
    (hid : id ∈ W → id ∈ F) : Sweeping h W F roots stack h' := by
  refine { hs with
    stack_lt := fun s hmem => hs.stack_lt s (mem_cons_of_mem _ hmem)
    covered := fun w hw hwF hor => ?_ }
  refine (mem_cons.mp (hs.covered w hw hwF hor)).resolve_left fun heq => ?_
  exact hwF (heq ▸ hid (heq ▸ hw))

/-- A `white` entry is freed and its children are looked at next. -/
theorem Sweeping.free (hclosed : ∀ v, ∀ w ∈ h.children v, w ∈ h.live) {e : HeapEntry D}
    (hs : Sweeping h W F roots (id :: stack) h') (he : h.get? id = some e) (hW : id ∈ W) :
    Sweeping h W (insert id F) roots ((pyDecRefIds e.data).reverse ++ stack)
      (h'.freeEntry id e) := by
  have hchildren : ∀ x, x ∈ pyDecRefIds e.data ↔ x ∈ h.children id := fun x => by
    rw [children_of_get? he]
    exact (HeapItem.pyDecRefIds_perm e.data).mem_iff
  refine ⟨fun x => ?_, (len_freeEntry h' id e).trans hs.len, insert_subset hW hs.freed,
    fun s hmem => ?_, fun w hw hwF hor => ?_⟩
  · rw [get?_freeEntry, hs.get?]
    by_cases hx : x = id <;> simp [hx]
  · rcases mem_append.mp hmem with hmem | hmem
    · exact lt_len_of_mem_live (hclosed id s ((hchildren s).mp (mem_reverse.mp hmem)))
    · exact hs.stack_lt s (mem_cons_of_mem _ hmem)
  rw [mem_insert, not_or] at hwF
  have hold : (w ∈ roots ∨ ∃ f ∈ F, w ∈ h.children f) → w ∈ stack := fun hor =>
    (mem_cons.mp (hs.covered w hw hwF.2 hor)).resolve_left hwF.1
  rw [mem_append, mem_reverse, hchildren]
  rcases hor with hr | ⟨f, hf, hwf⟩
  · exact .inr (hold (.inl hr))
  · rcases mem_insert.mp hf with rfl | hf
    · exact .inl hwf
    · exact .inr (hold (.inr ⟨f, hf, hwf⟩))

/-- With the stack empty every `white` entry has been freed. -/
theorem Sweeping.finish (hwhite : ∀ x, x ∈ W ↔ x ∈ h.live ∧ h.color x = .white)
    (hpath : ∀ x ∈ W, ∃ r ∈ roots, h.color r = .white ∧ Relation.ReflTransGen h.WhiteEdge r x)
    (hs : Sweeping h W F roots [] h') : F = W := by
  refine Finset.Subset.antisymm hs.freed fun x hx => ?_
  have hnext : ∀ w ∈ W, (w ∈ roots ∨ ∃ f ∈ F, w ∈ h.children f) → w ∈ F := by
    intro w hw hor
    by_contra hF
    exact absurd (hs.covered w hw hF hor) not_mem_nil
  obtain ⟨r, hr, hrw, hrx⟩ := hpath x hx
  induction hrx with
  | refl => exact hnext r hx (.inl hr)
  | @tail y z hry hyz ih =>
    have hyW : y ∈ W := (hwhite y).mpr ⟨mem_live_of_mem_children hyz.1, hyz.2.1⟩
    exact hnext z hx (.inr ⟨y, ih hyW, hyz.1⟩)

/-- **Phase 3.** -/
theorem collectWhite_spec (hwhite : ∀ x, x ∈ W ↔ x ∈ h.live ∧ h.color x = .white)
    (hreaders : ∀ x ∈ W, h.readers x = 0) (hclosed : ∀ v, ∀ w ∈ h.children v, w ∈ h.live) :
    ∀ (fuel : Nat) (F : Finset HeapId) (h' : Heap D) (stack : List HeapId),
    Sweeping h W F roots stack h' →
    stack.length + ∑ id ∈ W \ F, (h.children id).length ≤ fuel →
    ∃ h'' F', collectWhite fuel h' stack F.card = .ok (h'', F'.card) ∧ Sweeping h W F' roots [] h''
  | fuel, F, h', [], hs, _ => ⟨h', F, by cases fuel <;> rfl, hs⟩
  | 0, F, h', id :: stack, hs, hfuel => by simp at hfuel
  | fuel + 1, F, h', id :: stack, hs, hfuel => by
    rw [length_cons] at hfuel
    have hlt : id < h'.entries.len := hs.len ▸ hs.stack_lt id mem_cons_self
    have hget : h'.entries.get? id = if id ∈ F then none else h.get? id := hs.get? id
    rw [collectWhite, StableHeap.entry_of_lt hlt, hget]
    simp only [bind, Except.bind]
    by_cases hF : id ∈ F
    · rw [if_pos hF]
      exact collectWhite_spec hwhite hreaders hclosed fuel F h' stack (hs.drop fun _ => hF)
        (by omega)
    rw [if_neg hF]
    cases he : h.get? id with
    | none =>
      have hnot : id ∉ W := fun hW => by
        have hl := ((hwhite id).mp hW).1
        rw [mem_live, he] at hl
        simp at hl
      exact collectWhite_spec hwhite hreaders hclosed fuel F h' stack
        (hs.drop fun hW => absurd hW hnot) (by omega)
    | some e =>
      dsimp only
      have hWiff : id ∈ W ↔ e.color = .white := by
        rw [hwhite, color_of_get? he]
        exact and_iff_right (mem_live.mpr ⟨e, he⟩)
      split_ifs with hc hr
      · exact collectWhite_spec hwhite hreaders hclosed fuel F h' stack
          (hs.drop fun hW => absurd (hWiff.mp hW) hc) (by omega)
      · have h0 := hreaders id (hWiff.mpr (not_not.mp hc))
        rw [readers_of_get? he] at h0
        exact absurd h0 hr
      have hW : id ∈ W := hWiff.mpr (not_not.mp hc)
      have hcard : (insert id F).card = F.card + 1 := card_insert_of_notMem hF
      have hlen : (pyDecRefIds e.data).length = (h.children id).length := by
        rw [children_of_get? he]
        exact (HeapItem.pyDecRefIds_perm e.data).length_eq
      have hwork : ∑ x ∈ W \ insert id F, (h.children x).length + (h.children id).length
          = ∑ x ∈ W \ F, (h.children x).length := by
        rw [sdiff_insert]
        exact sum_erase_add _ _ (mem_sdiff.mpr ⟨hW, hF⟩)
      rw [← hcard]
      refine collectWhite_spec hwhite hreaders hclosed fuel (insert id F) _ _
        (hs.free hclosed he hW) ?_
      rw [length_append, length_reverse, hlen]
      omega

end Sweep

/-! ## The collection -/

/-- An entry that the outside still holds on to. -/
def Held (h : Heap D) (external : HeapId → Nat) (a : HeapId) : Prop :=
  0 < external a ∨ 0 < h.readers a

/-- An entry that a collection starts from. -/
def Enrolled (h : Heap D) (a : HeapId) : Prop := a ∈ h.purple ∧ h.readers a = 0

/-- **What a collection does**: `W` is the set of entries it frees. -/
structure Collected (h : Heap D) (external : HeapId → Nat) (W : Finset HeapId)
    (h' : Heap D) : Prop where
  freed : W ⊆ h.live
  live : h'.live = h.live \ W
  shape : ∀ x ∈ h'.live, (h'.get? x).map HeapEntry.shape = (h.get? x).map HeapEntry.shape
  accounted : h'.Accounted external
  black : ∀ x ∈ h'.live, h'.color x = .black
  purpleCount : h'.purpleCount = 0
  /-- Nothing in use is freed. -/
  sound : ∀ x ∈ W, ¬ ReachFrom h.children (h.Held external) x
  /-- What is left is in use, or hangs off an entry that was not investigated. -/
  complete : ∀ x ∈ h'.live, ReachFrom h.children
    (fun a => h.Held external a ∨ a ∈ h.live ∧ ¬ ReachFrom h.children h.Enrolled a) x

section Collect

variable {h : Heap D} {external : HeapId → Nat} {P : Finset HeapId} {roots : List HeapId}
  {h2 h3 : Heap D}

/-- The entries condemned by phase 2. -/
def condemned (h h2 : Heap D) : Finset HeapId := h.live.filter (h2.color · = .white)

variable {x : HeapId}

omit [HeapItem D] in
theorem mem_condemned : x ∈ condemned h h2 ↔ x ∈ h.live ∧ h2.color x = .white := mem_filter

section

variable (hs : Scanned h external P roots h2)

include hs

theorem Scanned.mem_candidates (hx : x ∈ condemned h h2) : x ∈ P := by
  rw [mem_condemned] at hx
  by_contra hP
  rw [hs.outside x hx.1 hP] at hx
  exact absurd hx.2 (by decide)

theorem Scanned.black_of_live (hx : x ∈ h.live \ condemned h h2) : h2.color x = .black := by
  rw [mem_sdiff, mem_condemned] at hx
  by_cases hP : x ∈ P
  · exact (hs.decided x hP).resolve_left fun hw => hx.2 ⟨hx.1, hw⟩
  · exact hs.outside x hx.1 hP

/-- Counts after phase 2: external references and edges from what is not condemned. -/
theorem Scanned.refcount_eq (x : HeapId) :
    h2.refcount x = external x + edgesInto h.children (h.live \ condemned h h2) x := by
  rw [hs.refcount]
  congr 2
  ext y
  rw [Finset.mem_filter]
  refine ⟨fun hy => ?_, fun hy => ⟨(mem_sdiff.mp hy).1, hs.black_of_live hy⟩⟩
  rw [mem_sdiff, mem_condemned]
  refine ⟨hy.1, fun hw => ?_⟩
  rw [hw.2] at hy
  exact absurd hy.2 (by decide)

/-- A condemned entry has nothing left to keep it. -/
theorem Scanned.condemned_zero (hx : x ∈ condemned h h2) :
    external x = 0 ∧ h.readers x = 0 ∧ ∀ v ∈ h.live \ condemned h h2, x ∉ h.children v := by
  obtain ⟨hzero, hreaders⟩ := hs.white x (hs.mem_candidates hx) (mem_condemned.mp hx).2
  rw [hs.refcount_eq] at hzero
  have hedges : edgesInto h.children (h.live \ condemned h h2) x = 0 := by omega
  exact ⟨by omega, hreaders, (edgesInto_eq_zero_iff _).mp hedges⟩

end

/-- Phases 2 and 3 together, as the heap that is left. -/
theorem Scanned.collected (hacc : h.Accounted external)
    (hd : ∃ h1, Discovered h h.entries.len P roots h1) (hs : Scanned h external P roots h2)
    (hget : ∀ x, h3.get? x = if x ∈ condemned h h2 then none else h2.get? x)
    (hcount : h3.purpleCount = 0) : Collected h external (condemned h h2) h3 := by
  obtain ⟨h1, hd⟩ := hd
  have hlive : h3.live = h.live \ condemned h h2 := by
    ext x
    rw [mem_sdiff, mem_live, hget, ← hs.shape.live, mem_live]
    split_ifs with hx <;> simp [hx]
  have hkept : ∀ x ∈ h3.live, h3.get? x = h2.get? x := by
    intro x hx
    rw [hlive, mem_sdiff] at hx
    rw [hget, if_neg hx.2]
  have hchildren : ∀ x ∈ h3.live, h3.children x = h.children x := by
    intro x hx
    rw [← hs.shape.children, children, children, hkept x hx]
  have hrefcount : ∀ x, h3.refcount x = h2.refcount x := by
    intro x
    rw [refcount, hget]
    split_ifs with hx
    · exact (hs.white x (hs.mem_candidates hx) (mem_condemned.mp hx).2).1.symm
    · rfl
  refine ⟨filter_subset _ _, hlive, ?_, ?_, ?_, hcount, ?_, ?_⟩
  · intro x hx
    rw [hkept x hx]
    exact hs.shape.shape x
  · intro x
    rw [hrefcount, hs.refcount_eq, ← hlive, edgesInto_congr hchildren]
  · intro x hx
    rw [color, hkept x hx]
    exact hs.black_of_live (hlive ▸ hx)
  · intro x hx hreach
    -- what is not condemned is closed under children and contains everything held
    refine (mem_sdiff.mp (ReachFrom.mem_of_closed
      (S := (· ∈ h.live \ condemned h h2)) ?_ ?_ hreach)).2 hx
    · rintro a (hext | hread)
      · exact mem_sdiff.mpr ⟨hacc.mem_live hext, fun ha =>
          hext.ne' (hs.condemned_zero ha).1⟩
      · exact mem_sdiff.mpr ⟨mem_live_of_readers_pos hread, fun ha =>
          hread.ne' (hs.condemned_zero ha).2.1⟩
    · intro v hv w hw
      exact mem_sdiff.mpr ⟨hacc.closed hw, fun hc =>
        (hs.condemned_zero hc).2.2 v hv hw⟩
  · intro x hx
    rw [hlive] at hx
    have houtside : ∀ a ∈ h.live, a ∉ P → ¬ ReachFrom h.children h.Enrolled a := by
      intro a _ haP hreach
      refine haP (ReachFrom.mem_of_closed (S := (· ∈ P)) ?_ hd.closed hreach)
      rintro b ⟨hb, hb0⟩
      rw [mem_purple] at hb
      exact hd.enrolled b hb.1 (lt_len_of_mem_live hb.1) hb.2 hb0
    have hxl := (mem_sdiff.mp hx).1
    by_cases hP : x ∈ P
    · refine (hs.alive x hP (hs.black_of_live hx)).mono ?_
      rintro a (hext | hread | ⟨hal, haP⟩)
      · exact .inl (.inl hext)
      · exact .inl (.inr hread)
      · exact .inr ⟨hal, houtside a hal haP⟩
    · exact .base (.inr ⟨hxl, houtside x hxl hP⟩)

theorem collectCyclesInner_spec (hacc : h.Accounted external) (hset : h.Settled) :
    ∃ h' W, h.collectCyclesInner = .ok (h', W.card) ∧ Collected h external W h' := by
  have hclosed : ∀ v, ∀ w ∈ h.children v, w ∈ h.live := fun v w hw => hacc.closed hw
  obtain ⟨h1, P, roots, hrun1, hd⟩ := discoverRoots_spec hset hacc h.entries.len 0 h ∅ [] (.start h)
  rw [Nat.zero_add] at hd
  have hwork1 := grayWork_le_edgeCount h h1
  obtain ⟨h2, hrun2, hs⟩ := scan_spec hclosed hd.live hd.closed (roots.length + h.edgeCount) h1
    roots (.start hacc hd) (by omega)
  have hs := hs.finish hd.reach hd.roots_mem hd.closed
  have hwhite : ∀ x, x ∈ condemned h h2 ↔ x ∈ h2.live ∧ h2.color x = .white := fun x => by
    rw [mem_condemned, hs.shape.live]
  have hsweep : Sweeping h2 (condemned h h2) ∅ roots roots h2 := by
    refine ⟨by simp, rfl, empty_subset _, fun s hr => ?_, fun w _ _ hor => ?_⟩
    · rw [hs.shape.len]
      exact lt_len_of_mem_live (hd.live (hd.roots_mem s hr))
    · simpa using hor
  have hwork2 : ∑ id ∈ condemned h h2 \ ∅, (h2.children id).length ≤ h.edgeCount := by
    rw [sdiff_empty, hs.shape.children]
    exact sum_le_sum_of_subset (filter_subset _ _)
  obtain ⟨h3, F, hrun3, hsw⟩ := collectWhite_spec hwhite
    (fun x hx => by rw [hs.shape.readers]; exact (hs.condemned_zero hx).2.1)
    (by rw [hs.shape.children, hs.shape.live]; exact hclosed)
    (roots.length + h.edgeCount) ∅ h2 roots hsweep (by omega)
  obtain rfl : F = condemned h h2 := hsw.finish hwhite fun x hx =>
    hs.whitePath x (hs.mem_candidates hx) (mem_condemned.mp hx).2
  refine ⟨{ h3 with purpleCount := 0, allocationsSinceGc := 0 }, condemned h h2, ?_,
    hs.collected hacc ⟨h1, hd⟩ hsw.get? rfl⟩
  rw [collectCyclesInner, range_eq_range', hrun1]
  simp only [bind, Except.bind, hrun2]
  rw [card_empty] at hrun3
  rw [hrun3]
  rfl

/-- **A collection of an accounted heap.** -/
theorem collectCycles_spec (hacc : h.Accounted external) (hset : h.Settled)
    (hpurple : h.purpleCount = h.purple.card) :
    ∃ h' W, h.collectCycles = .ok (h', W.card) ∧ Collected h external W h' := by
  by_cases hzero : h.purpleCount = 0
  · refine ⟨h, ∅, by rw [collectCycles, if_pos hzero]; rfl, ?_⟩
    have hnone : h.purple = ∅ := card_eq_zero.mp (hpurple ▸ hzero)
    have hblack : ∀ x ∈ h.live, h.color x = .black := by
      intro x hx
      have hp : h.color x ≠ .purple := fun hp => by
        have hmem := mem_purple.mpr ⟨hx, hp⟩
        rw [hnone] at hmem
        exact absurd hmem (notMem_empty x)
      have hsx := hset x hx
      cases hc : h.color x <;> simp_all
    refine ⟨empty_subset _, sdiff_empty.symm, fun _ _ => rfl, hacc, hblack, hzero,
      by simp, fun x hx => .base (.inr ⟨hx, ?_⟩)⟩
    rintro ⟨a, ⟨ha, _⟩, _⟩
    rw [hnone] at ha
    exact absurd ha (notMem_empty a)
  · rw [collectCycles, if_neg hzero]
    exact collectCyclesInner_spec hacc hset

/-- **A collection is sound.**  It returns; no entry is freed that an externally referenced entry or
an entry with readers reaches; what is left is accounted for again, refers to nothing freed and is
`black`; and the number returned is the number of entries freed. -/
theorem collectCycles_sound (h : Heap D) (external : HeapId → Nat) (hacc : h.Accounted external)
    (hpurple : h.purpleCount = h.purple.card) (hset : h.Settled) :
    ∃ h' freed, h.collectCycles = .ok (h', freed) ∧ h'.live ⊆ h.live ∧
      (∀ x ∈ h'.live, (h'.get? x).map HeapEntry.shape = (h.get? x).map HeapEntry.shape) ∧
      (∀ x, ReachFrom h.children (h.Held external) x → x ∈ h'.live) ∧
      (∀ x ∈ h'.live, h'.refcount x = external x + edgesInto h'.children h'.live x) ∧
      (∀ x ∈ h'.live, ∀ c ∈ h'.children x, c ∈ h'.live) ∧
      (∀ x ∈ h'.live, h'.color x = .black) ∧
      h'.purpleCount = 0 ∧
      freed = (h.live \ h'.live).card := by
  obtain ⟨h', W, hrun, hc⟩ := collectCycles_spec hacc hset hpurple
  refine ⟨h', W.card, hrun, ?_, hc.shape, fun x hx => ?_, fun x _ => hc.accounted x,
    fun x _ c hcx => hc.accounted.closed hcx, hc.black, hc.purpleCount, ?_⟩
  · rw [hc.live]
    exact sdiff_subset
  · have hlive : x ∈ h.live := by
      refine ReachFrom.mem_of_closed ?_ (fun _ _ w hw => hacc.closed hw) hx
      rintro a (hext | hread)
      · exact hacc.mem_live hext
      · exact mem_live_of_readers_pos hread
    rw [hc.live, mem_sdiff]
    exact ⟨hlive, fun hW => hc.sound x hW hx⟩
  · rw [hc.live, Finset.sdiff_sdiff_eq_self hc.freed]

end Collect

/-! ## A small heap

Slot 0 is the empty tuple. Slot 1 is a list that contains itself and nothing else refers to: a
garbage cycle. Slot 2 is a list that contains itself and the empty tuple, and is held from
outside. -/

/-- The heap, with both lists enrolled. -/
def twoLists : Heap HeapData where
  entries :=
    { slots := [
        some { refcount := 2, readers := 0, data := .tuple ⟨false, []⟩, color := .black },
        some { refcount := 1, readers := 0, data := .list ⟨true, [.ref 1]⟩, color := .purple },
        some { refcount := 2, readers := 0, data := .list ⟨true, [.ref 2, .ref 0]⟩,
               color := .purple }]
      freeList := []
      mem_freeList := fun id => by
        match id with
        | 0 | 1 | 2 | n + 3 => simp
      nodup_freeList := List.nodup_nil }
  purpleCount := 2
  allocationsSinceGc := 0
  weakIndex := fun _ => none

/-- The interpreter holds the empty tuple and the second list. -/
def twoListsExternal (id : HeapId) : Nat := if id = 0 ∨ id = 2 then 1 else 0

theorem twoLists_accounted : twoLists.Accounted twoListsExternal := by
  intro id
  match id with
  | 0 | 1 | 2 => decide
  | n + 3 =>
    rfl

/-- The garbage cycle is freed and the list in use is not. -/
theorem collectCycles_sound_twoLists :
    (∃ h', twoLists.collectCycles = .ok (h', 1) ∧ h'.live = {0, 2}) ∧
    ∃ h' freed, twoLists.collectCycles = .ok (h', freed) ∧
      (∀ x, ReachFrom twoLists.children (twoLists.Held twoListsExternal) x → x ∈ h'.live) ∧
      freed = (twoLists.live \ h'.live).card := by
  refine ⟨⟨_, rfl, by decide⟩, ?_⟩
  obtain ⟨h', freed, hrun, _, _, hkeep, _, _, _, _, hfreed⟩ :=
    collectCycles_sound twoLists twoListsExternal twoLists_accounted (by decide)
      (by unfold Settled; decide)
  exact ⟨h', freed, hrun, hkeep, hfreed⟩

end Heap

end Monty
