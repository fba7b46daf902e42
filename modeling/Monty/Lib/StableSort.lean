import Monty.Lib.Rearrange

/-!
# Stable sorting by a comparison

What it means that a list is sorted stably by a strict weak order given as a comparison. There is
only one such list, whatever algorithm finds it; sorting the reversed list and reversing the result
sorts in the opposite order, still stably.
-/

namespace Rearrange

open List Bool

variable {α β : Type*} {lt : α → α → Bool} {l l' : List α}

/-- Neither is less than the other. -/
def alike (lt : α → α → Bool) (x y : α) : Bool := !lt x y && !lt y x

/-- `l'` is `l` sorted: nothing is less than something before it, and those that are alike are in
the order they had. -/
structure StableSort (lt : α → α → Bool) (l l' : List α) : Prop where
  perm : l'.Perm l
  ascending : l'.Pairwise fun a b => lt b a = false
  stable : ∀ x ∈ l, l'.filter (alike lt x) = l.filter (alike lt x)

/-- The comparison, or its converse. -/
def directed (reverse : Bool) (lt : α → α → Bool) : α → α → Bool :=
  if reverse then fun a b => lt b a else lt

/-- **Alike elements stay in order.** -/
theorem StableSort.pair_sublist (h : StableSort lt l l') {a b : α} (hab : [a, b].Sublist l)
    (hirrefl : lt a a = false) (halike : alike lt a b = true) : [a, b].Sublist l' := by
  have hmem : a ∈ l := hab.subset (by simp)
  have hself : alike lt a a = true := by simp [alike, hirrefl]
  have hfilter : [a, b].filter (alike lt a) = [a, b] := by simp [halike, hself]
  have hsub := hab.filter (alike lt a)
  rw [hfilter, ← h.stable a hmem] at hsub
  exact hsub.trans filter_sublist

/-! ## Comparing by a key -/

section

variable {key : α → Nat} (hkey : ∀ a ∈ l, ∀ b ∈ l, (lt a b = true ↔ key a < key b))
include hkey

theorem alike_iff {a b : α} (ha : a ∈ l) (hb : b ∈ l) : alike lt a b = true ↔ key a = key b := by
  have hab := hkey a ha b hb
  have hba := hkey b hb a ha
  simp only [alike, and_eq_true, not_eq_true', ← not_eq_true, hab, hba]
  omega

theorem stableSort_iff : StableSort lt l l' ↔ Rearranged True key l' l ∧ Ascending key l' := by
  have hfilter {x : α} (hx : x ∈ l) {m : List α} (hm : ∀ a ∈ m, a ∈ l) :
      m.filter (alike lt x) = m.filter (key · = key x) := by
    refine filter_congr fun a ha => ?_
    rw [Bool.eq_iff_iff, alike_iff hkey hx (hm a ha), decide_eq_true_iff, eq_comm]
  have hle {a b : α} (ha : a ∈ l) (hb : b ∈ l) : lt b a = false ↔ key a ≤ key b := by
    rw [← not_eq_true, hkey b hb a ha, Nat.not_lt]
  constructor
  · rintro ⟨hperm, hasc, hstable⟩
    refine ⟨⟨hperm, fun _ k => ?_⟩, hasc.imp_of_mem fun ha hb hab =>
      (hle (hperm.mem_iff.mp ha) (hperm.mem_iff.mp hb)).mp hab⟩
    by_cases hk : ∃ x ∈ l, key x = k
    · obtain ⟨x, hx, rfl⟩ := hk
      rw [← hfilter hx fun a ha => hperm.mem_iff.mp ha, ← hfilter hx fun a ha => ha, hstable x hx]
    have hnil {m : List α} (hm : ∀ a ∈ m, a ∈ l) : m.filter (key · = k) = [] := by
      rw [filter_eq_nil_iff]
      intro a ha hak
      exact hk ⟨a, hm a ha, by simpa using hak⟩
    rw [hnil fun a ha => hperm.mem_iff.mp ha, hnil fun a ha => ha]
  · rintro ⟨hre, hasc⟩
    refine ⟨hre.perm, hasc.imp_of_mem fun ha hb hab =>
      (hle (hre.mem_iff.mp ha) (hre.mem_iff.mp hb)).mpr hab, fun x hx => ?_⟩
    rw [hfilter hx fun a ha => hre.mem_iff.mp ha, hfilter hx fun a ha => ha, hre.stable trivial]

end

/-- **There is only one stable sort.** -/
theorem StableSort.unique {l1 l2 : List α} (hlt : StrictWeak lt l) (h1 : StableSort lt l l1)
    (h2 : StableSort lt l l2) : l1 = l2 := by
  obtain ⟨key, hkey⟩ := hlt.exists_key
  obtain ⟨hre1, hasc1⟩ := (stableSort_iff hkey).mp h1
  obtain ⟨hre2, hasc2⟩ := (stableSort_iff hkey).mp h2
  exact (hre1.trans hre2.symm).unique hasc1 hasc2

/-! ## Images and the opposite order -/

/-- Sorting names of elements sorts the elements. -/
theorem StableSort.map {lt' : β → β → Bool} {f : α → β} (h : StableSort lt l l')
    (hf : ∀ a ∈ l, ∀ b ∈ l, lt' (f a) (f b) = lt a b) : StableSort lt' (l.map f) (l'.map f) := by
  have hmem {a : α} (ha : a ∈ l') : a ∈ l := h.perm.mem_iff.mp ha
  refine ⟨h.perm.map f, ?_, fun y hy => ?_⟩
  · rw [pairwise_map]
    exact h.ascending.imp_of_mem fun ha hb hab => (hf _ (hmem hb) _ (hmem ha)).trans hab
  obtain ⟨x, hx, rfl⟩ := mem_map.mp hy
  have hfilter {m : List α} (hm : ∀ a ∈ m, a ∈ l) :
      (m.map f).filter (alike lt' (f x)) = (m.filter (alike lt x)).map f := by
    rw [filter_map]
    refine congrArg (List.map f) (filter_congr fun a ha => ?_)
    rw [Function.comp, alike, alike, hf x hx a (hm a ha), hf a (hm a ha) x hx]
  rw [hfilter fun a ha => hmem ha, hfilter fun a ha => ha, h.stable x hx]

/-- **Sorting the reversed list and reversing the result sorts in the opposite order.** -/
theorem StableSort.reverse (h : StableSort lt l.reverse l') :
    StableSort (fun a b => lt b a) l l'.reverse := by
  refine ⟨l'.reverse_perm.trans (h.perm.trans l.reverse_perm), pairwise_reverse.mpr h.ascending,
    fun x hx => ?_⟩
  have halike : alike (fun a b => lt b a) x = alike lt x := by
    funext y
    exact and_comm _ _
  rw [halike, filter_reverse, h.stable x (by simpa using hx), filter_reverse, reverse_reverse]

/-- A strict weak order on what elements name is one on the elements. -/
theorem StrictWeak.comap {m : List β} {f : β → α} (h : StrictWeak lt l) (hf : ∀ b ∈ m, f b ∈ l) :
    StrictWeak (fun a b => lt (f a) (f b)) m :=
  ⟨fun a ha => h.irrefl _ (hf a ha),
    fun a ha b hb c hc => h.trans _ (hf a ha) _ (hf b hb) _ (hf c hc),
    fun a ha b hb c hc => h.equiv _ (hf a ha) _ (hf b hb) _ (hf c hc)⟩

theorem StrictWeak.of_perm (h : StrictWeak lt l) (hperm : l'.Perm l) : StrictWeak lt l' :=
  h.comap fun _ hb => hperm.mem_iff.mp hb

theorem StrictWeak.directed (h : StrictWeak lt l) (reverse : Bool) :
    StrictWeak (directed reverse lt) l := by
  cases reverse with
  | false => exact h
  | true =>
    exact ⟨h.irrefl, fun a ha b hb c hc hab hbc => h.trans c hc b hb a ha hbc hab,
      fun a ha b hb c hc hab hba hbc hcb => h.equiv c hc b hb a ha hbc hcb hab hba⟩

/-- What is asked of a stable sort has one answer. -/
theorem StableSort.iff_eq (h : StableSort lt l l') (hlt : StrictWeak lt l) {l1 : List α} :
    StableSort lt l l1 ↔ l1 = l' :=
  ⟨fun h1 => h1.unique hlt h, fun h1 => h1 ▸ h⟩

/-! ## The library's sort -/

/-- The library's merge sort is stable, where it is given the order's `≤`. -/
theorem stableSort_mergeSort {le : α → α → Bool} (hlt : StrictWeak lt l)
    (hle : ∀ a ∈ l, ∀ b ∈ l, le a b = !lt b a) : StableSort lt l (l.mergeSort le) := by
  obtain ⟨key, hkey⟩ := hlt.exists_key
  -- outside the list `le` may be anything, so the list is sorted by the key's order instead
  have hcongr : l.mergeSort le = l.mergeSort fun a b => decide (key a ≤ key b) := by
    have hmap := map_mergeSort (f := id) (r := le)
      (s := fun a b => decide (key a ≤ key b)) fun a ha b hb => by
        rw [hle a ha b hb, Bool.eq_iff_iff, not_eq_true', ← not_eq_true, hkey b hb a ha]
        simp
    rwa [map_id, map_id] at hmap
  have htrans (a b c : α) (hab : decide (key a ≤ key b) = true)
      (hbc : decide (key b ≤ key c) = true) :
      decide (key a ≤ key c) = true := by
    simp only [decide_eq_true_iff] at hab hbc ⊢
    exact hab.trans hbc
  have htotal (a b : α) : (decide (key a ≤ key b) || decide (key b ≤ key a)) = true := by
    simpa using Nat.le_total _ _
  have hperm := mergeSort_perm l fun a b => decide (key a ≤ key b)
  rw [hcongr]
  refine (stableSort_iff hkey).mpr ⟨⟨hperm, fun _ k => ?_⟩, ?_⟩
  · have hsub : (l.filter (key · = k)).Sublist (l.mergeSort fun a b => decide (key a ≤ key b)) := by
      refine sublist_mergeSort htrans htotal ?_ filter_sublist
      exact (ascending_of_key_eq fun a ha => by simpa using (mem_filter.mp ha).2).imp
        fun hab => by simpa using hab
    have hfilter := hsub.filter (key · = k)
    rw [filter_filter] at hfilter
    simp only [Bool.and_self] at hfilter
    exact (hfilter.eq_of_length (hperm.filter _).length_eq.symm).symm
  · exact (pairwise_mergeSort htrans htotal l).imp fun hab => by simpa using hab

end Rearrange
