import Mathlib.Data.List.Perm.Basic
import Mathlib.Data.List.Sort

/-!
# Stable rearrangements

`Rearranged C key l l'` says that `l` is a permutation of `l'`, and under the condition `C` a stable
one: elements of equal key stay in order. Sorting code that is run with an honest comparison and one
that is run with an arbitrary one are then the same argument, with `C` true and false.

* `Rearranged.swap`: two neighbouring blocks change places if no element of the one has the key of
  an element of the other;
* `Rearranged.unique`: a list has one stable ascending rearrangement;
* `StrictWeak.exists_key`: a strict weak order on the elements of a list comes from a key.
-/

namespace Rearrange

open List

variable {α : Type*} {C : Prop} {key : α → Nat} {l l' l1 l2 l1' l2' x y : List α}

/-- The keys do not descend. -/
def Ascending (key : α → Nat) (l : List α) : Prop := l.Pairwise fun a b => key a ≤ key b

/-- A permutation, which is stable if `C`. -/
structure Rearranged (C : Prop) (key : α → Nat) (l l' : List α) : Prop where
  perm : l.Perm l'
  stable : C → ∀ k, l.filter (key · = k) = l'.filter (key · = k)

namespace Rearranged

theorem refl (l : List α) : Rearranged C key l l := ⟨.refl l, fun _ _ => rfl⟩

theorem symm (h : Rearranged C key l l') : Rearranged C key l' l :=
  ⟨h.perm.symm, fun hC k => (h.stable hC k).symm⟩

theorem trans (h : Rearranged C key l l1) (h' : Rearranged C key l1 l') : Rearranged C key l l' :=
  ⟨h.perm.trans h'.perm, fun hC k => (h.stable hC k).trans (h'.stable hC k)⟩

theorem append (h1 : Rearranged C key l1 l1') (h2 : Rearranged C key l2 l2') :
    Rearranged C key (l1 ++ l2) (l1' ++ l2') :=
  ⟨h1.perm.append h2.perm, fun hC k => by
    rw [filter_append, filter_append, h1.stable hC k, h2.stable hC k]⟩

theorem append_left (l : List α) (h : Rearranged C key l1 l2) :
    Rearranged C key (l ++ l1) (l ++ l2) := (refl l).append h

theorem append_right (l : List α) (h : Rearranged C key l1 l2) :
    Rearranged C key (l1 ++ l) (l2 ++ l) := h.append (refl l)

theorem mem_iff (h : Rearranged C key l l') {a : α} : a ∈ l ↔ a ∈ l' := h.perm.mem_iff

theorem length_eq (h : Rearranged C key l l') : l.length = l'.length := h.perm.length_eq

/-- **Two blocks without a common key change places.** -/
theorem swap (h : C → ∀ a ∈ x, ∀ b ∈ y, key a ≠ key b) : Rearranged C key (x ++ y) (y ++ x) := by
  refine ⟨perm_append_comm, fun hC k => ?_⟩
  by_cases hx : x.filter (key · = k) = []
  · simp [hx]
  obtain ⟨a, ha⟩ := exists_mem_of_ne_nil _ hx
  rw [mem_filter, decide_eq_true_iff] at ha
  have hy : y.filter (key · = k) = [] := by
    rw [filter_eq_nil_iff]
    intro b hb hk
    exact h hC a ha.1 b hb (ha.2.trans (decide_eq_true_iff.mp hk).symm)
  simp [hy]

/-- A block moves past another one. -/
theorem swap_mid (l l' : List α) (h : C → ∀ a ∈ x, ∀ b ∈ y, key a ≠ key b) :
    Rearranged C key (l ++ (x ++ (y ++ l'))) (l ++ (y ++ (x ++ l'))) := by
  rw [← append_assoc x, ← append_assoc y]
  exact ((swap h).append_right l').append_left l

theorem cons_of_cons {a : α} (h : Rearranged C key (a :: l) (a :: l')) : Rearranged C key l l' := by
  refine ⟨h.perm.cons_inv, fun hC k => ?_⟩
  have := h.stable hC k
  rw [filter_cons, filter_cons] at this
  split at this
  · exact (List.cons.inj this).2
  · exact this

end Rearranged

theorem Ascending.key_head_le {a b : α} (h : Ascending key (a :: l)) (hb : b ∈ a :: l) :
    key a ≤ key b := by
  rcases mem_cons.mp hb with rfl | hb
  · exact le_rfl
  · exact (pairwise_cons.mp h).1 b hb

/-- **There is one stable ascending rearrangement.** -/
theorem Rearranged.unique (h : Rearranged True key l l') (hl : Ascending key l)
    (hl' : Ascending key l') : l = l' := by
  induction l generalizing l' with
  | nil => exact h.perm.nil_eq
  | cons a l ih =>
    cases l' with
    | nil => exact absurd h.perm.length_eq (by simp)
    | cons b l' =>
      have hkey : key a = key b := le_antisymm (hl.key_head_le (h.mem_iff.mpr (by simp)))
          (hl'.key_head_le (h.mem_iff.mp (by simp)))
      have hfirst := h.stable trivial (key a)
      rw [filter_cons_of_pos (by simp), filter_cons_of_pos (by simp [hkey])] at hfirst
      obtain rfl : a = b := (List.cons.inj hfirst).1
      rw [ih h.cons_of_cons (pairwise_cons.mp hl).2 (pairwise_cons.mp hl').2]

/-! ## Ascending lists -/

theorem ascending_append : Ascending key (l ++ l') ↔
    Ascending key l ∧ Ascending key l' ∧ ∀ a ∈ l, ∀ b ∈ l', key a ≤ key b :=
  pairwise_append

theorem ascending_of_key_eq {k : Nat} (h : ∀ a ∈ l, key a = k) : Ascending key l :=
  pairwise_iff_forall_sublist.mpr fun hsub => by
    rw [h _ (hsub.subset (by simp)), h _ (hsub.subset (by simp))]

theorem ascending_nil : Ascending key [] := .nil

theorem ascending_singleton (a : α) : Ascending key [a] := pairwise_singleton _ a

theorem Ascending.concat {a b : α} (h : Ascending key (l ++ [a])) (hle : key a ≤ key b) :
    Ascending key (l ++ [a] ++ [b]) := by
  refine ascending_append.mpr ⟨h, ascending_singleton b, fun c hc b' hb' => ?_⟩
  obtain rfl : b' = b := by simpa using hb'
  rcases mem_append.mp hc with hc | hc
  · exact ((ascending_append.mp h).2.2 c hc a (by simp)).trans hle
  · obtain rfl : c = a := by simpa using hc
    exact hle

theorem Ascending.le_key_last {a b : α} (h : Ascending key (l ++ [a])) (hb : b ∈ l ++ [a]) :
    key b ≤ key a := by
  rcases mem_append.mp hb with hb | hb
  · exact (ascending_append.mp h).2.2 b hb a (by simp)
  · obtain rfl : b = a := by simpa using hb
    exact le_rfl

theorem Ascending.getElem_le (h : Ascending key l) {i j : Nat} (hij : i ≤ j) (hj : j < l.length) :
    key l[i] ≤ key l[j] := by
  rcases hij.eq_or_lt with rfl | hlt
  · exact le_rfl
  · exact pairwise_iff_getElem.mp h i j (hlt.trans hj) hj hlt

/-! ## Strict weak orders -/

/-- A strict weak order on the elements of a list: being neither less nor greater is an
equivalence. -/
structure StrictWeak (lt : α → α → Bool) (l : List α) : Prop where
  irrefl : ∀ a ∈ l, lt a a = false
  trans : ∀ a ∈ l, ∀ b ∈ l, ∀ c ∈ l, lt a b = true → lt b c = true → lt a c = true
  equiv : ∀ a ∈ l, ∀ b ∈ l, ∀ c ∈ l, lt a b = false → lt b a = false → lt b c = false →
    lt c b = false → lt a c = false

namespace StrictWeak

variable {lt : α → α → Bool}

theorem lt_of_lt_of_not_lt (h : StrictWeak lt l) {a b c : α} (ha : a ∈ l) (hb : b ∈ l) (hc : c ∈ l)
    (hab : lt a b = true) (hcb : lt c b = false) : lt a c = true := by
  by_contra hac
  rw [Bool.not_eq_true] at hac
  have hca : lt c a = false := by
    by_contra hca
    rw [Bool.not_eq_false] at hca
    rw [h.trans c hc a ha b hb hca hab] at hcb
    exact absurd hcb (by decide)
  have hbc : lt b c = false := by
    by_contra hbc
    rw [Bool.not_eq_false] at hbc
    rw [h.trans a ha b hb c hc hab hbc] at hac
    exact absurd hac (by decide)
  rw [h.equiv a ha c hc b hb hac hca hcb hbc] at hab
  exact absurd hab (by decide)

/-- **A strict weak order on a list comes from a key**, the number of smaller elements. -/
theorem exists_key (h : StrictWeak lt l) :
    ∃ key : α → Nat, ∀ a ∈ l, ∀ b ∈ l, (lt a b = true ↔ key a < key b) := by
  refine ⟨fun a => l.countP (lt · a), fun a ha b hb => ⟨fun hab => ?_, fun hlt => ?_⟩⟩
  · obtain ⟨l1, l2, rfl⟩ := append_of_mem ha
    have hle (l' : List α) (hsub : ∀ c ∈ l', c ∈ l1 ++ a :: l2) :
        l'.countP (lt · a) ≤ l'.countP (lt · b) :=
      countP_mono_left fun c hc hca => h.trans c (hsub c hc) a ha b hb hca hab
    have h1 := hle l1 fun c hc => by simp [hc]
    have h2 := hle l2 fun c hc => by simp [hc]
    simp only [countP_append, countP_cons, h.irrefl a ha, hab, if_true]
    simp only [Bool.false_eq_true, if_false]
    omega
  · by_contra hab
    rw [Bool.not_eq_true] at hab
    refine absurd (countP_mono_left fun c hc hcb => ?_) (Nat.not_le.mpr hlt)
    exact h.lt_of_lt_of_not_lt hc hb ha hcb hab

end StrictWeak

end Rearrange
