import Monty.Sorting.Runs
import Mathlib.GroupTheory.Perm.Basic
import Mathlib.Data.Fintype.EquivFin

/-!
# Applying a permutation in place

`applyPermutation` moves `items[indices[i]]` to `i` for every `i`, by swaps along the cycles of the
permutation, and marks in the indices what is in place.

What is still to be done at any time is a permutation `ρ`: the list that is wanted is the items read
through `ρ`. The indices are `ρ`, except that within a cycle that began at `i` and has come to
`current` they say `i` where `ρ` says `current` (`Chasing`): the element that was at `i` is carried
along, and is at `current` now.
-/

namespace Monty.Sorting

open Fallible List Equiv

variable {α : Type}

/-- What is rearranged, and the indices of what goes where. -/
structure Chase (α : Type) where
  items : List α
  indices : List Nat

abbrev ChaseM (α : Type) := EStateM Stop (Chase α)

/-- Exchanges two items. -/
def swapItems (a b : Nat) : ChaseM α Unit := do
  let s ← get
  let x ← item s.items a
  let y ← item s.items b
  modify fun s => { s with items := (s.items.set a y).set b x }

/-- Follows the cycle that began at `i` from `current` on. -/
def chaseFrom (i : Nat) : Nat → Nat → ChaseM α Unit
  | 0, _ => throw .diverged
  | fuel + 1, current => do
    let s ← get
    let target ← item s.indices current
    modify fun s => { s with indices := s.indices.set current current }
    if target = i then pure ()
    else do
      swapItems current target
      chaseFrom i fuel target

/-- Brings the cycle through `i` into place. -/
def chase (i : Nat) : ChaseM α Unit := do
  let s ← get
  let target ← item s.indices i
  if target = i then pure () else chaseFrom i (s.indices.length + 1) i

/-- Rearranges the items: `items[i]` becomes what was at `items[indices[i]]`. -/
def applyPermutation : ChaseM α Unit := do
  let s ← get
  (range s.items.length).forM chase

/-! ## Following a cycle -/

/-- Where the chase along the cycle of `i` stands. -/
structure Chasing (final : List α) (ρ : Equiv.Perm Nat) (i current : Nat) (s : Chase α) : Prop where
  length : s.items.length = final.length
  outside : ∀ k, final.length ≤ k → ρ k = k
  indices : ∀ k, s.indices[k]? =
    if k < final.length then some (if ρ k = current then i else ρ k) else none
  reads : ∀ k, final[k]? = s.items[ρ k]?

/-- How many items are not in place. -/
def moved (n : Nat) (ρ : Equiv.Perm Nat) : Nat := ((Finset.range n).filter fun k => ρ k ≠ k).card

section Cycle

variable {final : List α} {ρ : Equiv.Perm Nat} {i current : Nat} {s : Chase α}

theorem moved_le (n : Nat) (ρ : Equiv.Perm Nat) : moved n ρ ≤ n :=
  (Finset.card_filter_le _ _).trans (Finset.card_range n).le

/-- What a swap does to what is still to be done: `c` is in place, and nothing that was is not. -/
theorem swap_mul_apply_self (c : Nat) : (swap c (ρ c) * ρ) c = c := by
  rw [Equiv.Perm.mul_apply, swap_apply_right]

theorem swap_mul_apply_of_fixed {c k : Nat} (hk : ρ k = k) : (swap c (ρ c) * ρ) k = k := by
  by_cases hc : k = c
  · rw [hc, swap_mul_apply_self]
  · have hne : k ≠ ρ c := fun h => hc (ρ.injective (hk.trans h))
    rw [Equiv.Perm.mul_apply, hk, swap_apply_of_ne_of_ne hc hne]

theorem moved_swap_mul_lt {n c : Nat} (hc : c < n) (hmoved : ρ c ≠ c) :
    moved n (swap c (ρ c) * ρ) < moved n ρ := by
  refine Finset.card_lt_card (Finset.ssubset_iff_of_subset (fun k hk => ?_) |>.mpr ⟨c, ?_, ?_⟩)
  · rw [Finset.mem_filter] at hk ⊢
    exact ⟨hk.1, fun hfixed => hk.2 (swap_mul_apply_of_fixed hfixed)⟩
  · simpa [hc] using hmoved
  · rw [Finset.mem_filter, not_and_not_right]
    exact fun _ => swap_mul_apply_self c

theorem Chasing.apply_lt (h : Chasing final ρ i current s) {k : Nat} (hk : k < final.length) :
    ρ k < final.length := by
  by_contra hge
  have := ρ.injective (h.outside (ρ k) (Nat.not_lt.mp hge))
  omega

/-- Swapped items are read through a transposition. -/
theorem getElem?_swapped {l : List α} {a b : Nat} (ha : a < l.length)
    (hb : b < l.length) (k : Nat) : ((l.set a l[b]).set b l[a])[k]? = l[swap a b k]? := by
  rw [swap_apply_def, getElem?_set, getElem?_set, length_set]
  by_cases hkb : b = k
  · subst hkb
    by_cases hab : b = a
    · subst hab
      simp [hb]
    · simp [hb, hab, ha]
  · by_cases hka : a = k
    · subst hka
      simp [hkb, ha, hb]
    · simp [hkb, hka, Ne.symm hka, Ne.symm hkb]

theorem swapItems_eq {a b : Nat} (ha : a < s.items.length) (hb : b < s.items.length) :
    swapItems a b s = .ok () { s with items := (s.items.set a s.items[b]).set b s.items[a] } := by
  rw [swapItems, get_bind_apply, item_eq ha, pure_bind_apply, item_eq hb, pure_bind_apply,
    modify_apply]

section

variable (h : Chasing final ρ i current s)

include h

/-- The end of a cycle: what is carried along has arrived. -/
theorem Chasing.arrived (hcurrent : current < final.length) (hfixed : ρ current = current)
    (j : Nat) : Chasing final ρ j j { s with indices := s.indices.set current current } := by
  refine ⟨h.length, h.outside, fun k => ?_, h.reads⟩
  have hlen : current < s.indices.length := by
    have hread := h.indices current
    rw [if_pos hcurrent] at hread
    exact (List.getElem?_eq_some_iff.mp hread).1
  have hj : (if ρ k = j then j else ρ k) = ρ k := by
    split_ifs with hk
    · exact hk.symm
    · rfl
  rw [hj, getElem?_set]
  by_cases hk : current = k
  · subst hk
    simp [hlen, hcurrent, hfixed]
  · have hne : ρ k ≠ current := fun heq => hk (ρ.injective (hfixed.trans heq.symm))
    rw [if_neg hk, h.indices k, if_neg hne]

theorem Chasing.swapped (hcurrent : current < s.items.length)
    (htarget : ρ current < s.items.length) (hne : ρ current ≠ current) :
    Chasing final (swap current (ρ current) * ρ) i (ρ current)
      ⟨(s.items.set current s.items[ρ current]).set (ρ current) s.items[current],
        s.indices.set current current⟩ := by
  have hlen := h.length
  refine ⟨by simp [hlen], fun k hk => swap_mul_apply_of_fixed (h.outside k hk), fun k => ?_,
    fun k => ?_⟩
  · have hread := h.indices current
    rw [if_pos (by omega)] at hread
    have hlen' : current < s.indices.length := (List.getElem?_eq_some_iff.mp hread).1
    rw [getElem?_set]
    by_cases hk : current = k
    · subst hk
      simp [swap_mul_apply_self, hlen', ← hlen, hcurrent, hne.symm]
    rw [if_neg hk, h.indices k, Equiv.Perm.mul_apply]
    have hk' : ρ k ≠ ρ current := fun heq => hk (ρ.injective heq).symm
    by_cases hcur : ρ k = current
    · rw [hcur, swap_apply_left, if_pos rfl, if_pos rfl]
    · rw [swap_apply_of_ne_of_ne hcur hk', if_neg hcur, if_neg hk']
  · rw [getElem?_swapped hcurrent htarget, Equiv.Perm.mul_apply, swap_apply_self, h.reads k]

/-- **The chase along a cycle ends**, with the whole cycle in place and everything that was. -/
theorem Chasing.ensures_chaseFrom {fuel : Nat} (hfuel : moved final.length ρ < fuel)
    (hcurrent : current < final.length) (hi : current = i ∨ ρ i = i) :
    Ensures (chaseFrom i fuel current) s
      (fun _ s' => ∃ ρ', (∀ j, Chasing final ρ' j j s') ∧ ρ' i = i ∧ ∀ k, ρ k = k → ρ' k = k)
      fun _ _ => False := by
  induction fuel generalizing ρ current s with
  | zero => omega
  | succ fuel ih =>
    have hread := h.indices current
    rw [if_pos hcurrent] at hread
    refine .get_bind ?_
    rw [item, hread]
    simp only [pure_bind]
    refine .modify_bind _ ?_
    by_cases hfixed : ρ current = current
    · rw [if_pos hfixed, if_pos rfl]
      refine .pure ⟨ρ, h.arrived hcurrent hfixed, ?_, fun _ hk => hk⟩
      rcases hi with rfl | hi
      · exact hfixed
      · exact hi
    have hnot : ρ current ≠ i := by
      rcases hi with rfl | hi
      · exact hfixed
      · exact fun heq => hfixed (by rw [heq, ← ρ.injective (heq.trans hi.symm)])
    have hlen := h.length
    have htarget := h.apply_lt hcurrent
    rw [if_neg hfixed, if_neg hnot]
    refine .bind_of_eq (swapItems_eq (by simp only; omega) (by simp only; omega)) ?_
    have hi' : (swap current (ρ current) * ρ) i = i := by
      rcases hi with rfl | hi
      · exact swap_mul_apply_self current
      · exact swap_mul_apply_of_fixed hi
    refine (ih (h.swapped (by omega) (by omega) hfixed)
      (by have := moved_swap_mul_lt hcurrent hfixed; omega) htarget (.inr hi')).mono ?_
      fun _ _ he => he
    rintro - s' ⟨ρ', hρ', hi'', hkeep⟩
    exact ⟨ρ', hρ', hi'', fun k hk => hkeep k (swap_mul_apply_of_fixed hk)⟩

theorem Chasing.length_indices : s.indices.length = final.length := by
  have hsome (k : Nat) : k < s.indices.length ↔ k < final.length := by
    have hk := h.indices k
    by_cases hlt : k < final.length
    · rw [if_pos hlt] at hk
      exact iff_of_true (List.getElem?_eq_some_iff.mp hk).1 hlt
    · rw [if_neg hlt, List.getElem?_eq_none_iff] at hk
      exact iff_of_false hk.not_gt hlt
  have h1 := hsome s.indices.length
  have h2 := hsome final.length
  omega

end

theorem ensures_chase (h : ∀ j, Chasing final ρ j j s) (hi : i < final.length) : Ensures (chase i) s
      (fun _ s' => ∃ ρ', (∀ j, Chasing final ρ' j j s') ∧ ρ' i = i ∧ ∀ k, ρ k = k → ρ' k = k)
      fun _ _ => False := by
  have hread := (h i).indices i
  rw [if_pos hi] at hread
  refine .get_bind ?_
  rw [item, hread]
  simp only [pure_bind]
  by_cases hfixed : ρ i = i
  · rw [if_pos hfixed, if_pos rfl]
    exact .pure ⟨ρ, h, hfixed, fun _ hk => hk⟩
  · rw [if_neg hfixed, if_neg hfixed]
    refine (h i).ensures_chaseFrom ?_ hi (.inl rfl)
    rw [(h i).length_indices]
    exact Nat.lt_succ_of_le (moved_le _ _)

/-- The outer loop: every cycle it comes to is in place, and stays there. -/
theorem ensures_forM_chase {ks : List Nat} (hks : ∀ k ∈ ks, k < final.length)
    (h : ∀ j, Chasing final ρ j j s) :
    Ensures (ks.forM chase) s
      (fun _ s' => ∃ ρ', (∀ j, Chasing final ρ' j j s') ∧ (∀ k ∈ ks, ρ' k = k) ∧
        ∀ k, ρ k = k → ρ' k = k)
      fun _ _ => False := by
  induction ks generalizing ρ s with
  | nil => exact .pure ⟨ρ, h, by simp, fun _ hk => hk⟩
  | cons k ks ih =>
    refine (ensures_chase h (hks k (by simp))).bind ?_
    rintro - s1 ⟨ρ1, h1, hk1, hkeep1⟩
    refine (ih (fun j hj => hks j (by simp [hj])) h1).mono ?_ fun _ _ he => he
    rintro - s2 ⟨ρ2, h2, hks2, hkeep2⟩
    exact ⟨ρ2, h2, forall_mem_cons.mpr ⟨hkeep2 k hk1, hks2⟩, fun j hj => hkeep2 j (hkeep1 j hj)⟩

end Cycle

/-! ## The whole permutation -/

theorem exists_perm_of_indices {n : Nat} {p : List (Fin n)} (hp : p.Perm (finRange n)) :
    ∃ ρ : Equiv.Perm Nat, (∀ k, n ≤ k → ρ k = k) ∧
      ∀ k, (p.map Fin.val)[k]? = if k < n then some (ρ k) else none := by
  have hlen : p.length = n := by simpa using hp.length_eq
  have hinj : Function.Injective fun k : Fin n => p.get (k.cast hlen.symm) := fun a b hab => by
    simpa [Fin.ext_iff] using (hp.nodup_iff.mpr (nodup_finRange n)).injective_get hab
  let e : Equiv.Perm (Fin n) := ofBijective _ (Finite.injective_iff_bijective.mp hinj)
  refine ⟨e.extendDomain Fin.equivSubtype, fun k hk => ?_, fun k => ?_⟩
  · exact e.extendDomain_apply_not_subtype _ (by omega)
  split_ifs with hk
  · rw [e.extendDomain_apply_subtype Fin.equivSubtype hk, getElem?_map,
      getElem?_eq_getElem (by omega)]
    rfl
  · rw [getElem?_eq_none_iff, length_map]
    omega

/-- **A permutation is applied**: position `k` ends up with what was at the `k`-th index, and the
indices say that nothing is to be moved. -/
theorem applyPermutation_eq {n : Nat} {items : List α} (hn : n = items.length) {p : List (Fin n)}
    (hp : p.Perm (finRange n)) :
    ∃ s, applyPermutation ⟨items, p.map Fin.val⟩ = .ok () s ∧
      (s.items = p.map fun i => items.get (i.cast hn)) ∧ s.indices = range n := by
  subst hn
  obtain ⟨ρ, houtside, hindices⟩ := exists_perm_of_indices hp
  have hlen : (p.map items.get).length = items.length := by simpa using hp.length_eq
  have hstart (j : Nat) : Chasing (p.map items.get) ρ j j ⟨items, p.map Fin.val⟩ := by
    refine ⟨hlen.symm, by rwa [hlen], fun k => ?_, fun k => ?_⟩
    · have hj : (if ρ k = j then j else ρ k) = ρ k := by
        split_ifs with hk
        · exact hk.symm
        · rfl
      rw [hj, hlen, hindices]
    have hk := hindices k
    rw [getElem?_map] at hk ⊢
    cases hpk : p[k]? with
    | none =>
      have hge : items.length ≤ k := by
        rw [getElem?_eq_none_iff, ← length_map items.get, hlen] at hpk
        exact hpk
      rw [houtside k hge, Option.map_none, eq_comm, getElem?_eq_none_iff]
      exact hge
    | some f =>
      rw [hpk, Option.map_some] at hk
      split_ifs at hk
      rw [← Option.some.inj hk, Option.map_some, getElem?_eq_getElem f.isLt, get_eq_getElem]
  have hdone : Ensures (applyPermutation : ChaseM α Unit) ⟨items, p.map Fin.val⟩ _ _ :=
    .get_bind (ensures_forM_chase (fun k hk => by rw [hlen]; simpa using hk) hstart)
  obtain ⟨_, s, happlied, ρ', hρ', hfixed, -⟩ | ⟨_, _, _, hfalse⟩ := hdone.cases
  · have hk (k : Nat) : ρ' k = k := by
      by_cases hlt : k < items.length
      · exact hfixed k (mem_range.mpr hlt)
      · exact (hρ' 0).outside k (by omega)
    refine ⟨s, happlied, ext_getElem? fun k => ?_, ext_getElem? fun k => ?_⟩
    · exact (congrArg (s.items[·]?) (hk k).symm).trans ((hρ' 0).reads k).symm
    · rw [(hρ' k).indices, hk, if_pos rfl, hlen]
      split_ifs with hlt
      · rw [getElem?_range hlt]
      · simpa using hlt
  · exact hfalse.elim

end Monty.Sorting
