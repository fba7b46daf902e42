import Monty.Sorting.Values

/-!
# Short lists

A list with less than 64 elements is sorted in place by `sortShort`, without ids. It makes no
difference: the short sort is timsort with a single run (`timsort_eq_sortShort`), and it does to
elements what it does to the ids that stand for them (`maps_sortShort`).
-/

namespace Monty.Sorting

open Fallible
open List hiding after

variable {σ α β γ : Type}

/-- The slice of what the elements of a slice stand for. -/
def Slice.map (f : α → β) (t : Slice σ α) : Slice σ β := ⟨t.cmp, t.items.map f⟩

/-- Compares what the elements stand for. -/
def Compare.on (lt : Compare σ β) (f : α → β) : Compare σ α := fun a b => lt (f a) (f b)

section

variable {τ : Type} {f : α → β} {φ : σ → τ} {lt : Compare σ β}

theorem maps_sub (a b : Nat) : Maps φ id (sub a b) (sub a b) := .ite (.pure _) (.throw _)

theorem maps_item (a : List α) (i : Nat) : Maps φ f (item a i) (item (a.map f) i) := by
  rw [item, item, getElem?_map]
  cases a[i]? with
  | none => exact .throw _
  | some x => exact .pure x

theorem maps_slice (a : List α) (i len : Nat) :
    Maps φ (map f) (slice a i len) (slice (a.map f) i len) := by
  rw [slice, slice, length_map, ← map_drop, ← map_take]
  exact .ite (.pure _) (.throw _)

theorem maps_overwritten (a : List α) (i : Nat) (xs : List α) :
    Maps φ (map f) (overwritten a i xs) (overwritten (a.map f) i (xs.map f)) := by
  rw [overwritten, overwritten, length_map, length_map, ← map_drop, ← map_take,
    ← map_append, ← map_append]
  exact .ite (.pure _) (.throw _)

theorem maps_asking (x : EStateM Stop σ γ) :
    Maps (Slice.map f) id (Slice.asking x) (Slice.asking x) := by
  intro t
  rw [Slice.asking, Slice.asking, zoom, zoom, Slice.map]
  cases x t.cmp <;> rfl

theorem maps_ltAt (i j : Nat) : Maps (Slice.map f) id (ltAt (lt.on f) i j) (ltAt lt i j) :=
  Maps.get.bind fun t => (maps_item t.items i).bind fun _ => (maps_item t.items j).bind fun _ =>
    maps_asking _

theorem maps_put (items : List α) : Maps (Slice.map f) id
    (modify fun t => { t with items } : SliceM σ α PUnit)
    (modify fun t => { t with items := items.map f }) := fun _ => rfl

variable (f σ) in
theorem maps_reverseRange (i j : Nat) :
    Maps (Slice.map (σ := σ) f) id (reverseRange i j) (reverseRange i j) :=
  Maps.get.bind fun t => (maps_sub j i).bind fun len => (maps_slice t.items i len).bind fun xs => by
    rw [← map_reverse]
    exact (maps_overwritten t.items i xs.reverse).bind maps_put

theorem maps_rotateRight (l ok : Nat) :
    Maps (Slice.map (σ := σ) f) id (rotateRight l ok) (rotateRight l ok) :=
  Maps.get.bind fun t => (maps_sub ok l).bind fun len => (maps_item t.items ok).bind fun x =>
    (maps_slice t.items l len).bind fun xs => (maps_overwritten t.items l (x :: xs)).bind maps_put

theorem maps_binaryInsert (ok : Nat) :
    Maps (Slice.map f) id (binaryInsert (lt.on f) ok) (binaryInsert lt ok) := by
  have hitem (a : List α) (i : Nat) (k : β → EStateM Stop σ Bool) :
      (item (a.map f) i >>= k) = item a i >>= fun x => k (f x) := by
    rw [item, item, getElem?_map]
    cases a[i]? <;> rfl
  refine Maps.get.bind fun t => ?_
  simp only [Slice.map, hitem]
  exact (maps_asking _).bind fun l => maps_rotateRight l ok

theorem maps_binarySort (ok : Nat) :
    Maps (Slice.map f) id (binarySort (lt.on f) ok) (binarySort lt ok) := by
  refine Maps.get.bind fun t => ?_
  rw [Slice.map, length_map]
  generalize range' _ _ = ks
  induction ks with
  | nil => exact .pure _
  | cons k ks ih => exact (maps_binaryInsert k).bind fun _ => ih

theorem maps_climb (remaining n : Nat) :
    Maps (Slice.map f) id (climb (lt.on f) remaining n) (climb lt remaining n) := by
  fun_induction climb (lt.on f) remaining n with
  | case1 n hn ih =>
    rw [climb.eq_def lt, if_pos hn]
    exact (maps_sub n 1).bind fun p => (maps_ltAt n p).bind fun b => .ite (.pure _) ih
  | case2 n hn =>
    rw [climb.eq_def lt, if_neg hn]
    exact .pure _

theorem maps_reverseLastEqual (n neq : Nat) :
    Maps (Slice.map (σ := σ) f) id (reverseLastEqual n neq) (reverseLastEqual n neq) :=
  .ite ((maps_sub _ _).bind fun start => maps_reverseRange σ f start n) (.pure _)

theorem maps_descend (remaining n neq : Nat) : Maps (Slice.map f) id
    (descend (lt.on f) remaining n neq) (descend lt remaining n neq) := by
  fun_induction descend (lt.on f) remaining n neq with
  | case1 n neq hn ih ih' =>
    rw [descend.eq_def lt, if_pos hn]
    refine (maps_sub n 1).bind fun p => (maps_ltAt n p).bind fun b => .ite ?_ ?_
    · exact (maps_reverseLastEqual n neq).bind fun _ => ih
    · exact (maps_ltAt p n).bind fun b => .ite (.pure _) ih'
  | case2 n neq hn =>
    rw [descend.eq_def lt, if_neg hn]
    exact .pure _

theorem maps_countRun : Maps (Slice.map f) id (countRun (lt.on f)) (countRun lt) := by
  refine Maps.get.bind fun t => ?_
  rw [Slice.map, length_map]
  refine (maps_climb _ 1).bind fun n => .ite (.pure _)
    (.bind (g := id) ?_ fun b => .ite (.pure _) ?_)
  · exact .ite ((maps_sub n 1).bind fun p => maps_ltAt 0 p) (.pure _)
  · exact (Maps.ite (maps_reverseRange σ f 0 n) (.pure _)).bind fun _ => (maps_descend _ _ 0).bind
      fun r => (maps_reverseLastEqual r.1 r.2).bind fun _ => (maps_reverseRange σ f 0 r.1).bind
      fun _ => maps_climb _ r.1

/-- **The short sort does to elements what it does to what stands for them.** -/
theorem maps_sortShort : Maps (Slice.map f) id (sortShort (lt.on f)) (sortShort lt) := by
  refine Maps.get.bind fun t => ?_
  rw [Slice.map, length_map]
  exact .ite (.pure _) (maps_countRun.bind fun n => .ite (maps_binarySort n) (.pure _))

end

/-- A comparison that writes down what it is asked. -/
def recording (lt : Compare σ α) : Compare (List (α × α) × σ) α := fun a b s =>
  ((lt a b s.2).1, s.1 ++ [(a, b)], (lt a b s.2).2)

/-- **Permutations are applied in place, and short lists are sorted as their ids would be**: with
the same questions about the same elements in the same order, and the same arrangement in the
end. -/
theorem applies_permutations :
    (∀ (items : List α) (indices : List Nat), indices.Perm (range items.length) →
      ∃ c, applyPermutation ⟨items, indices⟩ = .ok () c ∧ c.items.length = items.length ∧
        (∀ i : Nat, c.items[i]? = indices[i]?.bind fun j => items[j]?) ∧
        c.indices = range items.length) ∧
    ∀ (lt : Compare σ α) (values : List α) (s : σ), values.length < 64 →
      let sort := timsort ((recording lt).on values.get)
      let ids := ⟨([], s), identityPermutation values.length⟩
      ∃ c, applyPermutation ⟨values, (after sort ids).items.map Fin.val⟩ = .ok () c ∧
        answer (sortShort (recording lt)) ⟨([], s), values⟩ = answer sort ids ∧
        after (sortShort (recording lt)) ⟨([], s), values⟩ = ⟨(after sort ids).cmp, c.items⟩ := by
  refine ⟨fun items indices hperm => ?_, fun lt values s hshort => ?_⟩
  · obtain ⟨p, rfl⟩ : ∃ p : List (Fin items.length), p.map Fin.val = indices :=
      ⟨indices.pmap Fin.mk fun i hi => List.mem_range.mp (hperm.subset hi), by simp [map_pmap]⟩
    rw [← map_coe_finRange_eq_range, map_perm_map_iff Fin.val_injective] at hperm
    obtain ⟨c, happlied, hitems, hindices⟩ := applyPermutation_eq rfl hperm
    refine ⟨c, happlied, ?_, fun i => ?_, hindices⟩
    · simpa [hitems] using hperm.length_eq
    · rw [hitems, getElem?_map, getElem?_map]
      cases p[i]? <;> simp
  intro sort ids
  have hperm : (after sort ids).items.Perm ids.items := by
    obtain ⟨t, hperm, (h : sort ids = _) | (h : sort ids = _)⟩ := timsort_perm _ ids <;>
      rwa [after, h]
  obtain ⟨c, happlied, hitems, -⟩ := applyPermutation_eq rfl hperm
  have hids : sort ids = sortShort _ ids :=
    timsort_eq_sortShort (by simpa [ids, identityPermutation, maxMinrun] using hshort)
  have hvalues : Slice.map values.get ids = ⟨([], s), values⟩ :=
    congrArg (Slice.mk _) (map_get_finRange values)
  have hmaps : Maps (.map values.get) id _ (sortShort (recording lt)) := maps_sortShort
  rw [← hvalues, hmaps.answer, hmaps.after]
  refine ⟨c, happlied, ?_, ?_⟩
  · rw [answer, answer, hids]
  · rw [hitems, after, after, hids]
    rfl

/-- A cycle of three is applied, and three truth values are sorted. -/
theorem applies_permutations_three :
    (∃ c, applyPermutation ⟨[7, 8, 9], [2, 0, 1]⟩ = .ok () c ∧ c.indices = [0, 1, 2]) ∧
    ∃ c, applyPermutation ⟨[true, false, true], (after (timsort ((recording
        fun a b (s : Unit) => (some (!a && b), s)).on [true, false, true].get))
        ⟨([], ()), identityPermutation 3⟩).items.map Fin.val⟩ = .ok () c := by
  obtain ⟨c, happlied, -, -, hindices⟩ :=
    (applies_permutations (σ := Unit)).1 [7, 8, 9] [2, 0, 1] (by decide)
  obtain ⟨c', happlied', -⟩ := applies_permutations.2
    (fun a b s => (some (!a && b), s)) [true, false, true] () (by decide)
  exact ⟨⟨c, happlied, hindices⟩, c', happlied'⟩

end Monty.Sorting
