import Monty.Sorting.TwoWay

/-!
# Merging from the left

Seen from outside, `mergeLo` moves elements off the fronts of two runs `a` and `b` to the end of an
output `out`. `LoView` says how the three lie in the arrays: the output and what is left of the
second run are in the ids, with a hole between them as long as what is left of the first run, which
is in the scratch space. Moving some elements is then an equation about the three lists
(`loTakeA_eq`, `loTakeB_eq`), and everything else is about them: the first run is the short one, and
what comes first is what has the lower key.
-/

namespace Monty.Sorting

open Fallible Rearrange MergeState Merger List

variable {σ α : Type} {lt : Compare σ α} {C : Prop} {U : α → Prop} {key : α → Nat}

/-! ## The state of the merge -/

/-- How the output and the rests of the two runs lie in the arrays. -/
def LoView (pending : List Run) (pre post out a b : List α) (p : MergeState σ α × LoCursor) :
    Prop :=
  ∃ hole spent, p.1.ids = pre ++ (out ++ (hole ++ (b ++ post))) ∧ hole.length = a.length ∧
    p.1.tmp = spent ++ a ∧ p.1.pending = pending ∧
    p.2 = ⟨pre.length + out.length, spent.length, pre.length + out.length + a.length, a.length,
      b.length⟩

variable {out a b : List α} {p : MergeState σ α × LoCursor} {y : α}

section View

variable {pending : List Run} {pre post x : List α}

section

variable (h : LoView pending pre post out a b p)

include h

theorem LoView.cursor : p.2.na = a.length ∧ p.2.nb = b.length := by
  obtain ⟨hole, spent, -, -, -, -, hc⟩ := h
  simp [hc]

theorem LoView.pending_eq : p.1.pending = pending := by
  obtain ⟨hole, spent, -, -, -, hpending, -⟩ := h
  exact hpending

end

theorem loTakeA_eq (h : LoView pending pre post out (x ++ a) b p) :
    ∃ p', loTakeA x.length p = .ok () p' ∧ LoView pending pre post (out ++ x) a b p' := by
  obtain ⟨s, c⟩ := p
  obtain ⟨hole, spent, hids, hhole, htmp, hpending, rfl⟩ := h
  simp only [length_append] at hids hhole htmp hpending
  obtain ⟨u, hole, rfl, hu⟩ := exists_append_of_le (show x.length ≤ hole.length by omega)
  have hread : (slice s.tmp spent.length x.length : LoM σ α (List α)) = pure x := by
    rw [htmp]
    exact slice_append rfl rfl
  have hwrite : write (pre.length + out.length) x s = .ok () _ :=
    write_eq (x := pre ++ out) (by simpa using hids) (by simp) hu.symm
  rw [loTakeA, get_bind_apply]
  simp only
  rw [hread, pure_bind_apply, bind_of_ok (onMerge_eq hwrite), sub_eq (by simp),
    pure_bind_apply, modify_apply]
  refine ⟨_, rfl, hole, spent ++ x, by simp, ?_, by simp [htmp], hpending, by simp [Nat.add_assoc]⟩
  rw [length_append] at hhole
  omega

theorem loTakeB_eq (h : LoView pending pre post out a (x ++ b) p) :
    ∃ p', loTakeB x.length p = .ok () p' ∧ LoView pending pre post (out ++ x) a b p' := by
  obtain ⟨s, c⟩ := p
  obtain ⟨hole, spent, hids, hhole, htmp, hpending, rfl⟩ := h
  simp only at hids htmp hpending
  obtain ⟨u, hole', hsplit, hu⟩ := exists_append_of_le (show x.length ≤ (hole ++ x).length by simp)
  have hread : s.ids = (pre ++ (out ++ hole)) ++ (x ++ (b ++ post)) := by simp [hids]
  have hwrite : write (pre.length + out.length) x s = .ok () _ :=
    write_eq (x := pre ++ out) (z := hole' ++ (b ++ post))
      (by rw [hids, ← append_assoc u, ← hsplit]; simp) (by simp) hu.symm
  rw [loTakeB, get_bind_apply]
  simp only
  rw [hread, slice_append (by simp [hhole, Nat.add_assoc]) rfl, pure_bind_apply,
    bind_of_ok (onMerge_eq hwrite), sub_eq (by simp), pure_bind_apply, modify_apply]
  refine ⟨_, rfl, hole', spent, by simp, ?_, htmp, hpending, by simp; omega⟩
  have := congrArg length hsplit
  simp only [length_append] at this
  omega

variable {τ : Type}

/-- The next element of the second run, and the rest of the first. -/
theorem LoView.reads (h : LoView pending pre post out a b p) :
    (slice p.1.tmp p.2.pa p.2.na : EStateM Stop τ (List α)) = pure a ∧
    (slice p.1.ids p.2.pb p.2.nb : EStateM Stop τ (List α)) = pure b := by
  obtain ⟨s, c⟩ := p
  obtain ⟨hole, spent, hids, hhole, htmp, hpending, rfl⟩ := h
  simp only at hids htmp hpending ⊢
  have hids' : s.ids = (pre ++ (out ++ hole)) ++ (b ++ post) := by simp [hids]
  have htmp' : s.tmp = spent ++ (a ++ []) := by simp [htmp]
  rw [hids', htmp']
  exact ⟨slice_append rfl rfl, slice_append (by simp [hhole, Nat.add_assoc]) rfl⟩

theorem LoView.nextA (h : LoView pending pre post out (y :: a) b p) :
    (item p.1.tmp p.2.pa : EStateM Stop τ α) = pure y := by
  obtain ⟨s, c⟩ := p
  obtain ⟨hole, spent, hids, hhole, htmp, hpending, rfl⟩ := h
  rw [htmp]
  exact item_append rfl

theorem LoView.nextB (h : LoView pending pre post out a (y :: b) p) :
    (item p.1.ids p.2.pb : EStateM Stop τ α) = pure y := by
  obtain ⟨s, c⟩ := p
  obtain ⟨hole, spent, hids, hhole, htmp, hpending, rfl⟩ := h
  simp only at hids ⊢
  have hids' : s.ids = (pre ++ (out ++ hole)) ++ y :: (b ++ post) := by simp [hids]
  rw [hids']
  exact item_append (by simp [hhole, Nat.add_assoc])

end View

/-! ## The loop -/

def loMerger (σ : Type) (C : Prop) (key : α → Nat) (f : Frame α) : Merger σ α LoCursor C where
  takeShort := loTakeA
  takeLong := loTakeB
  short := LoCursor.na
  long := LoCursor.nb
  rank y := key y
  last := f.l
  orig := f.orig
  Holds out a b p :=
    LoView f.pending f.pre f.post out a b p ∧ Rearranged C key (out ++ (a ++ b)) f.orig
  takeShort_eq h := by
    obtain ⟨p', heq, hview⟩ := loTakeA_eq h.1
    exact ⟨p', heq, hview, by simpa using h.2⟩
  takeLong_eq {out a x b p} h hx := by
    obtain ⟨p', heq, hview⟩ := loTakeB_eq h.1
    have hmove : Rearranged C key (out ++ (x ++ (a ++ b))) (out ++ (a ++ (x ++ b))) :=
      .swap_mid _ _ fun hC c hc y hy => (Int.ofNat_lt.mp (hx hC c hc y hy)).ne
    exact ⟨p', heq, hview, by simpa using hmove.trans h.2⟩
  short_eq h := h.1.cursor.1
  long_eq h := h.1.cursor.2
  holds_update h _ _ := h
  mem_orig h y hy := h.2.mem_iff.mp (by simp only [mem_append] at hy ⊢; tauto)

variable {f : Frame α} {minGallop : Nat}

section Loop

variable {y z : α}

theorem asc_loMerger : (loMerger σ C key f).Asc a ↔ Ascending key a := by
  simp [Merger.Asc, loMerger, Ascending]

variable (h : Follows lt C U key) (hU : C → ∀ y ∈ f.orig, U y)
include h hU

theorem moves_loStep : (loMerger σ C key f).Moves (loStep lt) := by
  intro n p hp
  obtain ⟨out, y, a, z, b, hinv, hne, hsum⟩ := hp.exists_cons
  refine .get_bind ?_
  simp only
  rw [hinv.holds.1.nextB, pure_bind, hinv.holds.1.nextA, pure_bind]
  have htells := ask_tells h (fun hC => hU hC z (mem_orig _ hinv.holds z (by simp)))
    fun hC => hU hC y (mem_orig _ hinv.holds y (by simp))
  exact hinv.ensures_compare hne hsum (by simpa [loMerger] using htells)

/-- Looking for the next element of the second run in the first. -/
theorem ensures_loFindB (hinv : (loMerger σ C key f).Inv out a (z :: b) p) (hne : a ≠ []) :
    Ensures (loFindB lt) p (fun k p' =>
      Splits C (fun c => (key c : ℤ) ≤ key z) (fun c => (key z : ℤ) < key c) a k ∧
        (loMerger σ C key f).Inv out a (z :: b) p') (loMerger σ C key f).Exit := by
  refine .get_bind ?_
  simp only
  rw [hinv.holds.1.nextB, pure_bind, hinv.holds.1.reads.1, pure_bind]
  refine (hinv.ensures_asking (returns_gallopRight h
    (fun hC => hU hC z (mem_orig _ hinv.holds z (by simp)))
    (fun hC c hc => hU hC c (mem_orig _ hinv.holds c (by simp [hc])))
    (fun hC => asc_loMerger.mp (hinv.ordered hC).asc_short) (length_pos_iff.mpr hne))).mono ?_
    fun _ _ he => he
  rintro k p' ⟨⟨hk, hsplit⟩, hinv'⟩
  exact ⟨.of_take hk (by exact_mod_cast hsplit), hinv'⟩

/-- Looking for the next element of the first run in the second. -/
theorem ensures_loFindA (hinv : (loMerger σ C key f).Inv out (y :: a) b p) (hne : b ≠ []) :
    Ensures (loFindA lt) p (fun k p' =>
      Splits C (fun c => (key c : ℤ) < key y) (fun c => (key y : ℤ) ≤ key c) b k ∧
        (loMerger σ C key f).Inv out (y :: a) b p') (loMerger σ C key f).Exit := by
  refine .get_bind ?_
  simp only
  rw [hinv.holds.1.nextA, pure_bind, hinv.holds.1.reads.2, pure_bind]
  refine (hinv.ensures_asking (returns_gallopLeft h
    (fun hC => hU hC y (mem_orig _ hinv.holds y (by simp)))
    (fun hC c hc => hU hC c (mem_orig _ hinv.holds c (by simp [hc])))
    (fun hC => asc_loMerger.mp (hinv.ordered hC).asc_long) (length_pos_iff.mpr hne))).mono ?_
    fun _ _ he => he
  rintro k p' ⟨⟨hk, hsplit⟩, hinv'⟩
  exact ⟨.of_take hk (by exact_mod_cast hsplit), hinv'⟩

theorem ensures_loRounds {fuel : Nat} (hp : (loMerger σ C key f).Going fuel p) :
    Ensures (rounds (loStep lt) (loGallopA lt) (loGallopB lt) fuel minGallop) p (fun _ _ => False)
      (loMerger σ C key f).Exit := by
  have hA : (loMerger σ C key f).Moves (loGallopA lt) := fun hp =>
    hp.ensures_gallopShort (ensures_loFindB h hU)
  have hB : (loMerger σ C key f).Moves (loGallopB lt) := fun hp =>
    hp.ensures_gallopLong (ensures_loFindA h hU)
  exact hA.rounds hB (moves_loStep h hU) hp

end Loop

/-! ## Finishing the merge -/

variable {s : MergeState σ α} {c : LoCursor} {pending : List Run}

theorem loPutBack_eq {pre post : List α} (h : LoView pending pre post out a b (s, c)) :
    loPutBack c s = .ok () { s with ids := pre ++ ((out ++ (a ++ b)) ++ post) } := by
  have hread := h.reads (τ := MergeState σ α).1
  obtain ⟨hole, spent, hids, hhole, htmp, -, rfl⟩ := h
  simp only at hids hread
  have hids' : s.ids = (pre ++ out) ++ (hole ++ (b ++ post)) := by simp [hids]
  rw [loPutBack, get_bind_apply, hread, pure_bind_apply, write_eq hids' (by simp) hhole.symm]
  simp

/-- The last element of the first run goes behind what is left of the second. -/
theorem loCopyLast_eq {pre post : List α} (h : LoView pending pre post out [y] b (s, c)) :
    loCopyLast c s = .ok () { s with ids := pre ++ ((out ++ (b ++ [y])) ++ post) } := by
  have hread := h.reads (τ := MergeState σ α).2
  have hnext := h.nextA (τ := MergeState σ α)
  obtain ⟨hole, spent, hids, hhole, htmp, -, rfl⟩ := h
  have hids' : s.ids = (pre ++ out) ++
      ((hole ++ b).take b.length ++ ((hole ++ b).drop b.length ++ post)) := by
    rw [hids, ← append_assoc ((hole ++ b).take _), take_append_drop]
    simp
  have hwrite : write (pre.length + out.length) b s = .ok () { s with
      ids := (pre ++ out) ++ (b ++ ((hole ++ b).drop b.length ++ post)) } :=
    write_eq hids' (by simp) (by simp)
  have hids'' : (pre ++ out) ++ (b ++ ((hole ++ b).drop b.length ++ post)) =
      ((pre ++ out) ++ b) ++ ((hole ++ b).drop b.length ++ post) := by simp
  rw [loCopyLast, get_bind_apply, hread, pure_bind_apply, bind_of_ok hwrite, hnext,
    pure_bind_apply, write_eq hids'' (by simp [Nat.add_assoc]) (by simp [hhole])]
  simp

theorem ensures_loFinish {result : Option MergeEnd}
    (h : (loMerger σ C key f).Exit (result.elim .aborted .returned) (s, c)) :
    Ensures (finish (loCopyLast c) (loPutBack c) result) s (fun _ s' => Merged C key f s')
      (MergeAborted C f) := by
  refine (h.ensures_finish
    (P := fun r s' => s'.ids = f.pre ++ (r ++ f.post) ∧ s'.pending = f.pending ∧
      Rearranged C key r f.orig) ?_ ?_).mono ?_ ?_
  · intro out a b hholds
    exact ⟨_, loPutBack_eq hholds.1, rfl, hholds.1.pending_eq, hholds.2⟩
  · intro out y b hholds hlt
    refine ⟨_, loCopyLast_eq hholds.1, rfl, hholds.1.pending_eq, .trans ?_ hholds.2⟩
    refine (Rearranged.swap fun hC d hd e he => ?_).append_left out
    obtain rfl : e = y := by simpa using he
    exact (Int.ofNat_lt.mp (hlt hC d hd)).ne
  · rintro - s' ⟨r, ⟨hids, hpending, hre⟩, hasc⟩
    exact ⟨r, hids, hpending, hre, fun hC => asc_loMerger.mp (hasc hC)⟩
  · rintro stop s' ⟨hstop, r, hids, -, hre⟩
    exact ⟨hstop, r, hids, hre.perm⟩

/-- **`mergeLo` merges two runs**, where the first element of the second run belongs first and the
last element of the first run belongs last. -/
theorem ensures_mergeLo (h : Follows lt C U key) {a b : List α} {z : α}
    (hU : C → ∀ y ∈ a ++ z :: b, U y) (hf : f.orig = a ++ z :: b)
    (hs : s.ids = f.pre ++ (f.orig ++ f.post)) (hpending : s.pending = f.pending) (ha : a ≠ [])
    (horder : C → Ascending key a ∧ Ascending key (z :: b) ∧ (∃ a', a = a' ++ [f.l]) ∧
      (∀ y ∈ z :: b, key y < key f.l) ∧ ∀ c ∈ a, key z < key c) :
    Ensures (mergeLo lt f.pre.length a.length (z :: b).length) s (fun _ s' => Merged C key f s')
      (MergeAborted C f) := by
  have hids : s.ids = f.pre ++ (a ++ (z :: b ++ f.post)) := by simp [hs, hf]
  refine .get_bind ?_
  rw [hids, slice_append rfl rfl, pure_bind]
  refine .modify_bind _ ?_
  have hstart : (loMerger σ C key f).Inv [] a (z :: b)
      ({ s with tmp := a }, ⟨f.pre.length, 0, f.pre.length + a.length, a.length,
        (z :: b).length⟩) := by
    refine ⟨⟨⟨a, [], hids, rfl, rfl, hpending, rfl⟩, hf ▸ .refl _⟩, fun hC => ?_⟩
    obtain ⟨hfst, hsnd, ⟨a', ha'⟩, hlt, -⟩ := horder hC
    exact ⟨.nil, asc_loMerger.mpr hfst, asc_loMerger.mpr hsnd, by simp, by simp [ha', loMerger],
      fun y hy => Int.ofNat_lt.mpr (hlt y hy)⟩
  have hloop : Ensures (mergeLoLoop lt (a.length + (z :: b).length)) _ _ _ :=
    hstart.ensures_loop ha (fun hC y hy => Int.ofNat_lt.mpr ((horder hC).2.2.2.2 y hy)) (by simp)
      (ensures_loRounds h (by rwa [hf]))
  refine (ensures_attempt hloop).bind ?_
  rintro ⟨result, c⟩ s' hexit
  exact ensures_loFinish hexit

end Monty.Sorting
