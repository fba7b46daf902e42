import Monty.Heap.Release
import Monty.Lib.Fallible

/-!
# Freeing and the weak indexes

The weak indexes own no reference, so an entry may go while an index names it. Every path that frees
an entry takes its key out of the index first: the cascade of `dec_ref` and the sweep of a
collection do nothing to the indexes but that (`decRef_remains`, `collectCycles_remains`). The
marking phases change counts and colours only.
-/

namespace Monty

open Fallible Except

namespace Heap

variable {D : Type} [HeapItem D]

/-- The key under which a weak index may know an entry; none for a freed slot. -/
def key (h : Heap D) (id : HeapId) : Option WeakIndexKey :=
  (h.get? id).bind fun e => weakIndexKey e.data

/-- What the indexes name is an entry with that key. -/
def Indexed (h : Heap D) : Prop := ∀ k id, h.weakIndex k = some id → h.key id = some k

variable {id : HeapId} {h : Heap D}

theorem key_of_get? {e : HeapEntry D} (he : h.get? id = some e) :
    h.key id = weakIndexKey e.data := by
  rw [key, he, Option.bind_some]

theorem mem_live_of_key {k : WeakIndexKey} (hk : h.key id = some k) : id ∈ h.live := by
  obtain ⟨e, he, -⟩ := Option.bind_eq_some_iff.mp hk
  exact mem_live.mpr ⟨e, he⟩

/-- What is left of a heap: some entries, with their keys, and what the indexes say of them. -/
structure Remains (h h' : Heap D) : Prop where
  live : h'.live ⊆ h.live
  key : ∀ id ∈ h'.live, h'.key id = h.key id
  index : ∀ k id, h'.weakIndex k = some id ↔ h.weakIndex k = some id ∧ id ∈ h'.live

variable {h h' : Heap D}

section

variable {h'' : Heap D} {e e' : HeapEntry D}

theorem Indexed.remains_refl (hi : h.Indexed) : Remains h h :=
  ⟨Finset.Subset.refl _, fun _ _ => rfl, fun k id =>
    ⟨fun hk => ⟨hk, mem_live_of_key (hi k id hk)⟩, And.left⟩⟩

theorem Remains.trans (h1 : Remains h h') (h2 : Remains h' h'') : Remains h h'' where
  live := h2.live.trans h1.live
  key id hid := (h2.key id hid).trans (h1.key id (h2.live hid))
  index k id := by
    rw [h2.index, h1.index, and_assoc]
    exact and_congr_right fun _ => ⟨And.right, fun hid => ⟨h2.live hid, hid⟩⟩

theorem Remains.indexed (hr : Remains h h') (hi : h.Indexed) : h'.Indexed := by
  intro k id hk
  obtain ⟨hk, hid⟩ := (hr.index k id).mp hk
  rw [hr.key id hid]
  exact hi k id hk

/-- An entry is overwritten, its payload is not. -/
theorem Indexed.remains_set (hi : h.Indexed) (he : h.get? id = some e)
    (hget : ∀ x, h'.get? x = if x = id then some e' else h.get? x) (hdata : e'.data = e.data)
    (hindex : h'.weakIndex = h.weakIndex) : Remains h h' := by
  have hlive : h'.live = h.live := by
    ext x
    rw [mem_live, mem_live, hget]
    split_ifs with hx <;> simp [hx, he]
  refine ⟨hlive.subset, fun x _ => ?_, fun k x => ?_⟩
  · rw [key, hget]
    split_ifs with hx
    · rw [hx, key_of_get? he, ← hdata]
      rfl
    · rfl
  · rw [hindex, hlive]
    exact hi.remains_refl.index k x

/-- An entry is freed: whatever index names it does so under the entry's key, which is taken out. -/
theorem Indexed.remains_free (hi : h.Indexed) (he : h.get? id = some e)
    (hget : ∀ x, h'.get? x = if x = id then none else h.get? x)
    (hindex : h'.weakIndex = (h.removeWeakIndexEntry (weakIndexKey e.data) id).weakIndex) :
    Remains h h' := by
  have hlive := live_of_freed hget
  refine ⟨hlive ▸ Finset.erase_subset _ _, fun x hx => ?_, fun k x => ?_⟩
  · rw [hlive, Finset.mem_erase] at hx
    rw [key, hget, if_neg hx.1]
    rfl
  have hmem : h.weakIndex k = some x ∧ x ∈ h'.live ↔ h.weakIndex k = some x ∧ x ≠ id := by
    rw [hlive, Finset.mem_erase]
    exact and_congr_right fun hk => ⟨And.left, fun hx => ⟨hx, mem_live_of_key (hi k x hk)⟩⟩
  -- an index that names the entry does so under its key
  have hnamed : ∀ {k}, h.weakIndex k = some id → weakIndexKey e.data = some k := fun hk =>
    (key_of_get? he).symm.trans (hi _ id hk)
  rw [hindex, hmem]
  cases hkey : weakIndexKey e.data with
  | none =>
    refine ⟨fun hk => ⟨hk, ?_⟩, And.left⟩
    rintro rfl
    exact nomatch hkey.symm.trans (hnamed hk)
  | some k0 =>
    have hk0 : ∀ {k}, h.weakIndex k = some id → k = k0 := fun hk =>
      Option.some.inj ((hnamed hk).symm.trans hkey)
    rw [removeWeakIndexEntry]
    split_ifs with hnames
    · dsimp only
      split_ifs with hkk
      · subst hkk
        simp [hnames, eq_comm]
      · refine ⟨fun hk => ⟨hk, ?_⟩, And.left⟩
        rintro rfl
        exact hkk (hk0 hk)
    · refine ⟨fun hk => ⟨hk, ?_⟩, And.left⟩
      rintro rfl
      exact hnames (hk0 hk ▸ hk)

end

/-! ## Releasing -/

variable {stack : List HeapId}

theorem release_remains (hi : h.Indexed) {children : List HeapId}
    (hrun : h.release id = .ok (h', children)) : Remains h h' := by
  obtain ⟨e, hget, hrun⟩ := bind_eq_ok.mp hrun
  have he := get?_of_get hget
  split_ifs at hrun <;> cases hrun
  · exact hi.remains_set he (get?_setEntry he _) rfl rfl
  · exact hi.remains_set he (get?_setEntry he _) rfl rfl
  · exact hi.remains_free he (get?_freeEntry h id e) rfl
  · exact hi.remains_free he (get?_freeEntry h id e) rfl

theorem releaseLoop_remains (fuel : Nat) (hi : h.Indexed)
    (hrun : h.releaseLoop fuel id stack = .ok h') : Remains h h' := by
  induction fuel generalizing h id stack with
  | zero => cases hrun
  | succ fuel ih =>
    obtain ⟨⟨h1, children⟩, hround, hrun⟩ := bind_eq_ok.mp hrun
    have hr := release_remains hi hround
    dsimp only at hrun
    cases hstack : children.reverse ++ stack with
    | nil =>
      rw [hstack] at hrun
      exact ok.inj hrun ▸ hr
    | cons next rest =>
      rw [hstack] at hrun
      exact hr.trans (ih (hr.indexed hi) hrun)

/-- **A release purges the indexes of what it frees.** -/
theorem decRef_remains (hi : h.Indexed) (hrun : h.decRef id = .ok h') : Remains h h' :=
  releaseLoop_remains _ hi hrun

/-! ## Collecting -/

section

variable {c : CcColor} {δ : ℤ}

theorem markChildren_remains (cs : List HeapId) {stack' : List HeapId} (hi : h.Indexed)
    (hrun : markChildren c δ cs h stack = .ok (h', stack')) : Remains h h' := by
  induction cs generalizing h stack with
  | nil =>
    cases hrun
    exact hi.remains_refl
  | cons child cs ih =>
    obtain ⟨e, hget, hrun⟩ := bind_eq_ok.mp hrun
    obtain ⟨refcount, -, hrun⟩ := bind_eq_ok.mp hrun
    have he := get?_of_get hget
    have hr : Remains h (h.setEntry child { e with refcount, color := c }) :=
      hi.remains_set he (get?_setEntry he _) rfl rfl
    exact hr.trans (ih (hr.indexed hi) hrun)

theorem markLoop_remains (fuel : Nat) {ptr : HeapId} (hi : h.Indexed)
    (hrun : markLoop c δ fuel h ptr stack = .ok h') : Remains h h' := by
  induction fuel generalizing h ptr stack with
  | zero => cases hrun
  | succ fuel ih =>
    obtain ⟨e, -, hrun⟩ := bind_eq_ok.mp hrun
    obtain ⟨⟨h1, stack1⟩, hchildren, hrun⟩ := bind_eq_ok.mp hrun
    have hr := markChildren_remains _ hi hchildren
    cases stack1 with
    | nil => exact ok.inj hrun ▸ hr
    | cons next rest => exact hr.trans (ih (hr.indexed hi) hrun)

theorem mark_remains {ptr : HeapId} (hi : h.Indexed) (hrun : h.mark c δ ptr = .ok h') :
    Remains h h' := by
  obtain ⟨e, hget, hrun⟩ := bind_eq_ok.mp hrun
  have he := get?_of_get hget
  have hr : Remains h (h.setEntry ptr { e with color := c }) :=
    hi.remains_set he (get?_setEntry he _) rfl rfl
  exact hr.trans (markLoop_remains _ (hr.indexed hi) hrun)

theorem discoverRoots_remains (ids : List HeapId) {roots roots' : List HeapId} (hi : h.Indexed)
    (hrun : discoverRoots ids h roots = .ok (h', roots')) : Remains h h' := by
  induction ids generalizing h roots with
  | nil =>
    cases hrun
    exact hi.remains_refl
  | cons id ids ih =>
    rw [discoverRoots] at hrun
    cases he : h.get? id with
    | none =>
      rw [he] at hrun
      exact ih hi hrun
    | some e =>
      rw [he] at hrun
      dsimp only at hrun
      split_ifs at hrun
      · exact ih hi hrun
      · have hr : Remains h (h.setEntry id { e with color := .black }) :=
          hi.remains_set he (get?_setEntry he _) rfl rfl
        exact hr.trans (ih (hr.indexed hi) hrun)
      · obtain ⟨h1, hmark, hrun⟩ := bind_eq_ok.mp hrun
        have hr := mark_remains hi hmark
        exact hr.trans (ih (hr.indexed hi) hrun)

theorem scan_remains (fuel : Nat) (hi : h.Indexed)
    (hrun : scan fuel h stack = .ok h') : Remains h h' := by
  induction fuel generalizing h stack with
  | zero =>
    cases stack with
    | nil => exact ok.inj hrun ▸ hi.remains_refl
    | cons ptr stack => cases hrun
  | succ fuel ih =>
    cases stack with
    | nil => exact ok.inj hrun ▸ hi.remains_refl
    | cons ptr stack =>
      obtain ⟨e, hget, hrun⟩ := bind_eq_ok.mp hrun
      have he := get?_of_get hget
      split_ifs at hrun
      · exact ih hi hrun
      · obtain ⟨stack', -, hrun⟩ := bind_eq_ok.mp hrun
        have hr : Remains h (h.setEntry ptr { e with color := .white }) :=
          hi.remains_set he (get?_setEntry he _) rfl rfl
        exact hr.trans (ih (hr.indexed hi) hrun)
      · obtain ⟨h1, hmark, hrun⟩ := bind_eq_ok.mp hrun
        have hr := mark_remains hi hmark
        exact hr.trans (ih (hr.indexed hi) hrun)

theorem collectWhite_remains (fuel : Nat) {freed freed' : Nat} (hi : h.Indexed)
    (hrun : collectWhite fuel h stack freed = .ok (h', freed')) : Remains h h' := by
  induction fuel generalizing h stack freed with
  | zero =>
    cases stack with
    | nil =>
      cases hrun
      exact hi.remains_refl
    | cons id stack => cases hrun
  | succ fuel ih =>
    cases stack with
    | nil =>
      cases hrun
      exact hi.remains_refl
    | cons id stack =>
      obtain ⟨slot, hslot, hrun⟩ := bind_eq_ok.mp hrun
      cases slot with
      | none => exact ih hi hrun
      | some e =>
        have he : h.get? id = some e := by
          rw [StableHeap.entry] at hslot
          split at hslot
          · cases hslot
          · next heq => exact StableHeap.get?_eq_some_iff.mpr (heq.trans (by rw [ok.inj hslot]))
        dsimp only at hrun
        split_ifs at hrun
        · exact ih hi hrun
        · have hr : Remains h (h.freeEntry id e) := hi.remains_free he (get?_freeEntry h id e) rfl
          exact hr.trans (ih (hr.indexed hi) hrun)

/-- **A collection purges the indexes of what it frees.** -/
theorem collectCycles_remains (hi : h.Indexed) {freed : Nat}
    (hrun : h.collectCycles = .ok (h', freed)) : Remains h h' := by
  rw [collectCycles] at hrun
  split_ifs at hrun
  · cases hrun
    exact hi.remains_refl
  obtain ⟨⟨h1, roots⟩, hdiscover, hrun⟩ := bind_eq_ok.mp hrun
  obtain ⟨h2, hscan, hrun⟩ := bind_eq_ok.mp hrun
  obtain ⟨⟨h3, n⟩, hcollect, hrun⟩ := bind_eq_ok.mp hrun
  cases hrun
  have hr1 := discoverRoots_remains _ hi hdiscover
  have hr2 := hr1.trans (scan_remains _ (hr1.indexed hi) hscan)
  have hr3 := hr2.trans (collectWhite_remains _ (hr2.indexed hi) hcollect)
  exact ⟨hr3.live, hr3.key, hr3.index⟩

end

end Heap

end Monty
