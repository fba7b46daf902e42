import Monty.Sorting.TwoWay

/-!
# Merging from the right

`mergeHi` is `mergeLo` seen in a mirror, but not quite: the searches keep their direction, so that
elements of equal key still end with those of the first run in front. Elements move off the backs
of the two runs `a` and `b` to the front of the output. The second run is the short one, what comes
first is what has the greater key, and all lists are read backwards.
-/

namespace Monty.Sorting

open Fallible Rearrange MergeState Merger List

variable {σ α : Type} {lt : Compare σ α} {C : Prop} {U : α → Prop} {key : α → Nat}

/-! ## The state of the merge -/

/-- How the rests of the two runs and the output lie in the arrays. -/
def HiView (pending : List Run) (pre post out a b : List α) (p : MergeState σ α × HiCursor) :
    Prop :=
  ∃ hole spent, p.1.ids = pre ++ (a ++ (hole ++ (out ++ post))) ∧ hole.length = b.length ∧
    p.1.tmp = b ++ spent ∧ p.1.pending = pending ∧
    p.2 = ⟨pre.length + a.length + b.length, pre.length + a.length, b.length, a.length, b.length⟩

variable {out a b : List α} {p : MergeState σ α × HiCursor} {y : α}

section View

variable {pending : List Run} {pre post x : List α}

section

variable (h : HiView pending pre post out a b p)

include h

theorem HiView.cursor : p.2.na = a.length ∧ p.2.nb = b.length := by
  obtain ⟨hole, spent, -, -, -, -, hc⟩ := h
  simp [hc]

theorem HiView.pending_eq : p.1.pending = pending := by
  obtain ⟨hole, spent, -, -, -, hpending, -⟩ := h
  exact hpending

end

theorem hiTakeA_eq (h : HiView pending pre post out (a ++ x) b p) :
    ∃ p', hiTakeA x.length p = .ok () p' ∧ HiView pending pre post (x ++ out) a b p' := by
  obtain ⟨s, c⟩ := p
  obtain ⟨hole, spent, hids, hhole, htmp, hpending, rfl⟩ := h
  simp only at hids htmp hpending
  obtain ⟨hole', u, hsplit, hlen⟩ :=
    exists_append_of_le (show hole.length ≤ (x ++ hole).length by simp)
  have hu : x.length = u.length := by
    have := congrArg length hsplit
    simp only [length_append] at this
    omega
  have hread : s.ids = (pre ++ a) ++ (x ++ (hole ++ (out ++ post))) := by simp [hids]
  have hwrite : write (pre.length + (a ++ x).length + b.length - x.length) x s = .ok () _ :=
    write_eq (z := out ++ post)
      (by rw [append_assoc (pre ++ a), ← append_assoc hole', ← hsplit]; simp [hids])
        (by simp; omega) hu
  rw [hiTakeA, get_bind_apply]
  simp only
  rw [sub_eq (by simp; omega), pure_bind_apply, sub_eq (by simp; omega), pure_bind_apply, hread,
    slice_append (by simp; omega) rfl, pure_bind_apply, bind_of_ok (onMerge_eq hwrite),
    sub_eq (by simp), pure_bind_apply, modify_apply]
  exact ⟨_, rfl, hole', spent, by simp, by omega, htmp, hpending, by simp; omega⟩

theorem hiTakeB_eq (h : HiView pending pre post out a (b ++ x) p) :
    ∃ p', hiTakeB x.length p = .ok () p' ∧ HiView pending pre post (x ++ out) a b p' := by
  obtain ⟨s, c⟩ := p
  obtain ⟨hole, spent, hids, hhole, htmp, hpending, rfl⟩ := h
  simp only at hids htmp hpending
  rw [length_append] at hhole
  obtain ⟨hole, u, rfl, hlen⟩ := exists_append_of_le (show b.length ≤ hole.length by omega)
  rw [length_append] at hhole
  have hread : (slice s.tmp ((b ++ x).length - x.length) x.length : HiM σ α (List α)) = pure x := by
    rw [htmp, append_assoc]
    exact slice_append (by simp) rfl
  have hwrite : write (pre.length + a.length + (b ++ x).length - x.length) x s = .ok () _ :=
    write_eq (x := (pre ++ a) ++ hole) (y := u) (z := out ++ post) (by simp [hids])
      (by simp; omega) (by omega)
  rw [hiTakeB, get_bind_apply]
  simp only
  rw [sub_eq (by simp; omega), pure_bind_apply, sub_eq (by simp), pure_bind_apply, hread,
    pure_bind_apply, bind_of_ok (onMerge_eq hwrite), pure_bind_apply, modify_apply]
  exact ⟨_, rfl, hole, x ++ spent, by simp, hlen, by simp [htmp], hpending, by simp; omega⟩

/-- The rests of both runs. -/
theorem HiView.reads (h : HiView pending pre post out a b p) {τ : Type} :
    (slice p.1.ids pre.length p.2.na : EStateM Stop τ (List α)) = pure a ∧
    (slice p.1.tmp 0 p.2.nb : EStateM Stop τ (List α)) = pure b := by
  obtain ⟨s, c⟩ := p
  obtain ⟨hole, spent, hids, hhole, htmp, hpending, rfl⟩ := h
  have htmp' : s.tmp = [] ++ (b ++ spent) := htmp
  rw [hids, htmp']
  exact ⟨slice_append rfl rfl, slice_append rfl rfl⟩

theorem HiView.nextA (h : HiView pending pre post out (a ++ [y]) b p) : hiNextA p = .ok y p := by
  obtain ⟨s, c⟩ := p
  obtain ⟨hole, spent, hids, hhole, htmp, hpending, rfl⟩ := h
  simp only at hids
  have hids' : s.ids = (pre ++ a) ++ y :: (hole ++ (out ++ post)) := by simp [hids]
  rw [hiNextA, get_bind_apply]
  simp only
  rw [sub_eq (by simp; omega), pure_bind_apply, hids', item_append (by simp), pure_apply]

theorem HiView.nextB (h : HiView pending pre post out a (b ++ [y]) p) : hiNextB p = .ok y p := by
  obtain ⟨s, c⟩ := p
  obtain ⟨hole, spent, hids, hhole, htmp, hpending, rfl⟩ := h
  simp only at htmp
  have htmp' : s.tmp = b ++ y :: spent := by simp [htmp]
  rw [hiNextB, get_bind_apply]
  simp only
  rw [sub_eq (by simp), pure_bind_apply, htmp', item_append (by simp), pure_apply]

end View

/-! ## The loop -/

def hiMerger (σ : Type) (C : Prop) (key : α → Nat) (f : Frame α) : Merger σ α HiCursor C where
  takeShort := hiTakeB
  takeLong := hiTakeA
  short := HiCursor.nb
  long := HiCursor.na
  rank y := -key y
  last := f.l
  orig := f.orig
  Holds out b a p := HiView f.pending f.pre f.post out.reverse a.reverse b.reverse p ∧
    Rearranged C key (a.reverse ++ (b.reverse ++ out.reverse)) f.orig
  takeShort_eq {out x b a p} h := by
    obtain ⟨p', heq, hview⟩ := hiTakeB_eq (x := x.reverse) (by simpa using h.1)
    exact ⟨p', by simpa using heq, by simpa using hview, by simpa using h.2⟩
  takeLong_eq {out b x a p} h hx := by
    obtain ⟨p', heq, hview⟩ := hiTakeA_eq (x := x.reverse) (by simpa using h.1)
    have hmove : Rearranged C key (a.reverse ++ (b.reverse ++ (x.reverse ++ out.reverse)))
        (a.reverse ++ (x.reverse ++ (b.reverse ++ out.reverse))) := by
      refine .swap_mid _ _ fun hC y hy c hc => ?_
      have := hx hC c (by simpa using hc) y (by simpa using hy)
      omega
    exact ⟨p', by simpa using heq, by simpa
      using hview, by simpa using hmove.trans (by simpa using h.2)⟩
  short_eq h := by simpa using h.1.cursor.2
  long_eq h := by simpa using h.1.cursor.1
  holds_update h _ _ := h
  mem_orig h y hy := h.2.mem_iff.mp (by simp only [mem_append, mem_reverse] at hy ⊢; tauto)

variable {f : Frame α} {minGallop : Nat}

section Loop

variable {y z : α}

theorem asc_hiMerger : (hiMerger σ C key f).Asc a ↔ Ascending key a.reverse := by
  simp [Merger.Asc, hiMerger, Ascending, pairwise_reverse]

variable (h : Follows lt C U key) (hU : C → ∀ y ∈ f.orig, U y)
include h hU

theorem moves_hiStep : (hiMerger σ C key f).Moves (hiStep lt) := by
  intro n p hp
  obtain ⟨out, z, b, y, a, hinv, hne, hsum⟩ := hp.exists_cons
  have hview := hinv.holds.1
  rw [reverse_cons, reverse_cons] at hview
  have htells := ask_tells h (fun hC => hU hC z (mem_orig _ hinv.holds z (by simp)))
    fun hC => hU hC y (mem_orig _ hinv.holds y (by simp))
  refine .bind_of_eq hview.nextB (.bind_of_eq hview.nextA ?_)
  exact hinv.ensures_compare hne hsum (by simpa [hiMerger] using htells)

/-- Looking for the last element of the second run in the first. -/
theorem ensures_hiFindB (hinv : (hiMerger σ C key f).Inv out (z :: b) a p) (hne : a ≠ []) :
    Ensures (hiFindB lt f.pre.length) p (fun k p' =>
      Splits C (fun c => -(key c : ℤ) < -key z) (fun c => -(key z : ℤ) ≤ -key c) a k ∧
        (hiMerger σ C key f).Inv out (z :: b) a p') (hiMerger σ C key f).Exit := by
  have hpos := length_pos_iff.mpr hne
  have hview := hinv.holds.1
  rw [reverse_cons] at hview
  refine .bind_of_eq hview.nextB (.get_bind ?_)
  simp only
  rw [hview.reads.1, pure_bind, hview.cursor.1, length_reverse, sub_eq (by omega), pure_bind]
  refine (hinv.ensures_asking (returns_gallopRight h
    (fun hC => hU hC z (mem_orig _ hinv.holds z (by simp)))
    (fun hC c hc => hU hC c (mem_orig _ hinv.holds c (by simp [mem_reverse.mp hc])))
    (fun hC => asc_hiMerger.mp (hinv.ordered hC).asc_long) (by simp; omega))).bind ?_
  rintro k p' ⟨⟨hk, hsplit⟩, hinv'⟩
  rw [length_reverse] at hk
  rw [sub_eq hk]
  refine .pure ⟨.reverse ?_, hinv'⟩
  simpa only [Int.neg_lt_neg_iff, Int.neg_le_neg_iff, Int.ofNat_lt, Int.ofNat_le] using hsplit

/-- Looking for the last element of the first run in the second. -/
theorem ensures_hiFindA (hinv : (hiMerger σ C key f).Inv out b (y :: a) p) (hne : b ≠ []) :
    Ensures (hiFindA lt) p (fun k p' =>
      Splits C (fun c => -(key c : ℤ) ≤ -key y) (fun c => -(key y : ℤ) < -key c) b k ∧
        (hiMerger σ C key f).Inv out b (y :: a) p') (hiMerger σ C key f).Exit := by
  have hpos := length_pos_iff.mpr hne
  have hview := hinv.holds.1
  rw [reverse_cons] at hview
  refine .bind_of_eq hview.nextA (.get_bind ?_)
  simp only
  rw [hview.reads.2, pure_bind, hview.cursor.2, length_reverse, sub_eq (by omega), pure_bind]
  refine (hinv.ensures_asking (returns_gallopLeft h
    (fun hC => hU hC y (mem_orig _ hinv.holds y (by simp)))
    (fun hC c hc => hU hC c (mem_orig _ hinv.holds c (by simpa using .inl (mem_reverse.mp hc))))
    (fun hC => asc_hiMerger.mp (hinv.ordered hC).asc_short) (by simp; omega))).bind ?_
  rintro k p' ⟨⟨hk, hsplit⟩, hinv'⟩
  rw [length_reverse] at hk
  rw [sub_eq hk]
  refine .pure ⟨.reverse ?_, hinv'⟩
  simpa only [Int.neg_lt_neg_iff, Int.neg_le_neg_iff, Int.ofNat_lt, Int.ofNat_le] using hsplit

theorem ensures_hiRounds {fuel : Nat} (hp : (hiMerger σ C key f).Going fuel p) :
    Ensures (rounds (hiStep lt) (hiGallopA lt f.pre.length) (hiGallopB lt) fuel minGallop) p
      (fun _ _ => False) (hiMerger σ C key f).Exit := by
  have hA : (hiMerger σ C key f).Moves (hiGallopA lt f.pre.length) := fun hp =>
    hp.ensures_gallopLong (ensures_hiFindB h hU)
  have hB : (hiMerger σ C key f).Moves (hiGallopB lt) := fun hp =>
    hp.ensures_gallopShort (ensures_hiFindA h hU)
  exact hA.rounds hB (moves_hiStep h hU) hp

end Loop

/-! ## Finishing the merge -/

variable {s : MergeState σ α} {c : HiCursor} {pending : List Run}

theorem hiPutBack_eq {pre post : List α} (h : HiView pending pre post out a b (s, c)) :
    hiPutBack c s = .ok () { s with ids := pre ++ ((a ++ (b ++ out)) ++ post) } := by
  have hread := h.reads (τ := MergeState σ α).2
  obtain ⟨hole, spent, hids, hhole, htmp, -, rfl⟩ := h
  simp only at hids hread
  have hids' : s.ids = (pre ++ a) ++ (hole ++ (out ++ post)) := by simp [hids]
  rw [hiPutBack, get_bind_apply, sub_eq (by simp), pure_bind_apply, hread, pure_bind_apply,
    write_eq hids' (by simp) hhole.symm]
  simp

/-- The first element of the second run goes before what is left of the first. -/
theorem hiCopyLast_eq {pre post : List α} (h : HiView pending pre post out a [y] (s, c)) :
    hiCopyLast c s = .ok () { s with ids := pre ++ (([y] ++ (a ++ out)) ++ post) } := by
  have hread := h.reads (τ := MergeState σ α).1
  obtain ⟨hole, spent, hids, hhole, htmp, -, rfl⟩ := h
  simp only at hids hread htmp
  have hids' : s.ids = (pre ++ (a ++ hole).take 1) ++ ((a ++ hole).drop 1 ++ (out ++ post)) := by
    rw [append_assoc pre, ← append_assoc ((a ++ hole).take 1), take_append_drop]
    simp [hids]
  have hlen : ((a ++ hole).take 1).length = 1 := by
    rw [length_take, length_append, hhole]
    simp
  have hwrite : write (pre.length + a.length + [y].length - a.length) a s = .ok () { s with
      ids := (pre ++ (a ++ hole).take 1) ++ (a ++ (out ++ post)) } :=
    write_eq hids' (by simp [hlen]; omega) (by simp [hhole])
  have hids'' : (pre ++ (a ++ hole).take 1) ++ (a ++ (out ++ post)) =
      pre ++ ((a ++ hole).take 1 ++ (a ++ (out ++ post))) := by simp
  have hfirst : (item s.tmp 0 : MergeM σ α α) = pure y := by
    rw [htmp]
    rfl
  rw [hiCopyLast, get_bind_apply, sub_eq (by simp), pure_bind_apply]
  simp only [Nat.add_sub_cancel]
  rw [hread, pure_bind_apply, sub_eq (by simp; omega), pure_bind_apply, bind_of_ok hwrite,
    sub_eq (by simp; omega), pure_bind_apply, hfirst, pure_bind_apply,
    write_eq hids'' (by simp; omega) (by simp [hlen])]
  simp

theorem ensures_hiFinish {result : Option MergeEnd}
    (h : (hiMerger σ C key f).Exit (result.elim .aborted .returned) (s, c)) :
    Ensures (finish (hiCopyLast c) (hiPutBack c) result) s (fun _ s' => Merged C key f s')
      (MergeAborted C f) := by
  refine (h.ensures_finish
    (P := fun r s' => s'.ids = f.pre ++ (r.reverse ++ f.post) ∧ s'.pending = f.pending ∧
      Rearranged C key r.reverse f.orig) ?_ ?_).mono ?_ ?_
  · intro out b a hholds
    exact ⟨_, hiPutBack_eq hholds.1, by simp, hholds.1.pending_eq, by simpa using hholds.2⟩
  · intro out y a hholds hlt
    refine ⟨_, hiCopyLast_eq hholds.1, by simp, hholds.1.pending_eq, .trans ?_ hholds.2⟩
    have hswap : Rearranged C key ([y] ++ a.reverse) (a.reverse ++ [y]) := by
      refine .swap fun hC d hd e he => ?_
      obtain rfl : d = y := by simpa using hd
      have := hlt hC e (by simpa using he)
      simp only [hiMerger] at this
      omega
    simpa using hswap.append_right out.reverse
  · rintro - s' ⟨r, ⟨hids, hpending, hre⟩, hasc⟩
    exact ⟨r.reverse, hids, hpending, hre, fun hC => asc_hiMerger.mp (hasc hC)⟩
  · rintro stop s' ⟨hstop, r, hids, -, hre⟩
    exact ⟨hstop, r.reverse, hids, hre.perm⟩

/-- **`mergeHi` merges two runs**, where the last element of the first run belongs last and the
first element of the second run belongs first. -/
theorem ensures_mergeHi (h : Follows lt C U key) {a b : List α}
    (hU : C → ∀ c ∈ (a ++ [y]) ++ b, U c) (hf : f.orig = (a ++ [y]) ++ b)
    (hs : s.ids = f.pre ++ (f.orig ++ f.post)) (hpending : s.pending = f.pending) (hb : b ≠ [])
    (horder : C → Ascending key (a ++ [y]) ∧ Ascending key b ∧ (∃ b', b = f.l :: b') ∧
      (∀ c ∈ a ++ [y], key f.l < key c) ∧ ∀ c ∈ b, key c < key y) :
    Ensures (mergeHi lt f.pre.length (a ++ [y]).length b.length) s (fun _ s' => Merged C key f s')
      (MergeAborted C f) := by
  have hids : s.ids = f.pre ++ ((a ++ [y]) ++ (b ++ ([] ++ f.post))) := by simp [hs, hf]
  have hids' : s.ids = (f.pre ++ (a ++ [y])) ++ (b ++ f.post) := by simp [hs, hf]
  refine .get_bind ?_
  rw [hids', slice_append (by simp) rfl, pure_bind]
  refine .modify_bind _ ?_
  have hstart : (hiMerger σ C key f).Inv [] b.reverse (y :: a.reverse)
      ({ s with tmp := b }, ⟨f.pre.length + (a ++ [y]).length + b.length,
        f.pre.length + (a ++ [y]).length, b.length, (a ++ [y]).length, b.length⟩) := by
    refine ⟨⟨?_, by simpa [hf] using .refl _⟩, fun hC => ?_⟩
    · exact ⟨b, [], by simpa using hids, by simp, by simp, hpending, by simp⟩
    · obtain ⟨hfst, hsnd, ⟨b', hb'⟩, hlt, -⟩ := horder hC
      refine ⟨.nil, asc_hiMerger.mpr (by simpa using hsnd), asc_hiMerger.mpr (by simpa using hfst),
        by simp, by simp [hb', hiMerger], fun c hc => ?_⟩
      exact Int.neg_lt_neg (Int.ofNat_lt.mpr (hlt c (by simpa [or_comm] using hc)))
  have hloop : Ensures (mergeHiLoop lt f.pre.length ((a ++ [y]).length + b.length)) _ _ _ :=
    hstart.ensures_loop (by simpa using hb) (fun hC c hc => Int.neg_lt_neg
      (Int.ofNat_lt.mpr ((horder hC).2.2.2.2 c (by simpa using hc)))) (by simp; omega)
      (ensures_hiRounds h (by rwa [hf]))
  refine (ensures_attempt hloop).bind ?_
  rintro ⟨result, c⟩ s' hexit
  exact ensures_hiFinish hexit

end Monty.Sorting
