import Monty.Lib.Rearrange
import Monty.Sorting.Merging

/-!
# Finding and extending runs

What the helpers of timsort do that work on one slice: galloping, binary insertion and counting a
run. Every statement is made at once for a comparison that may do anything and for one that follows
a key (`Follows`): under the condition `C` the comparison is honest, and the statement says more.
In particular a sort is aborted only if `C` fails, and then with a permutation of what there was
(`Fails`).
-/

namespace Monty.Sorting

open Fallible Search Rearrange List Nat

variable {σ α β τ : Type} {lt : Compare σ α} {C : Prop} {U : α → Prop} {key : α → Nat}

/-! ## Checked access that succeeds -/

theorem sub_eq {a b : Nat} (h : b ≤ a) : (sub a b : EStateM Stop τ Nat) = pure (a - b) := if_pos h

variable {i : Nat}

theorem item_eq {a : List β} (h : i < a.length) : (item a i : EStateM Stop τ β) = pure a[i] := by
  rw [item, List.getElem?_eq_getElem h]

theorem item_append {x y : List β} {a : β} (h : i = x.length) :
    (item (x ++ a :: y) i : EStateM Stop τ β) = pure a := by
  rw [item, h, List.getElem?_append_right le_rfl]
  simp

theorem slice_append {x y z : List β} {len : Nat} (hi : i = x.length) (hlen : len = y.length) :
    (slice (x ++ (y ++ z)) i len : EStateM Stop τ (List β)) = pure y := by
  rw [slice, if_pos (by simp only [hi, hlen, length_append]; omega), hi, hlen, drop_left, take_left]

theorem overwritten_append {x y y' z : List β} (hi : i = x.length) (hlen : y'.length = y.length) :
    (overwritten (x ++ (y ++ z)) i y' : EStateM Stop τ (List β)) = pure (x ++ (y' ++ z)) := by
  rw [overwritten, if_pos (by simp only [hi, hlen, length_append]; omega), hi, hlen,
    take_left, ← append_assoc x y, ← length_append, drop_left,
    append_assoc]

/-! ## Honest comparisons -/

/-- Under the condition `C` the comparison is answered, and compares the keys of what is in `U`. -/
def Follows (lt : Compare σ α) (C : Prop) (U : α → Prop) (key : α → Nat) : Prop :=
  C → ∀ x y, U x → U y → ∀ s, ∃ b, (lt x y s).1 = some b ∧ (b = true ↔ key x < key y)

/-- The only failure: the comparison aborted, which an honest one does not. -/
def Aborts (C : Prop) (stop : Stop) : Prop := stop = .aborted ∧ ¬ C

theorem ask_tells (h : Follows lt C U key) {x y : α} (hx : C → U x) (hy : C → U y) :
    Tells C (Aborts C) (ask lt x y) (key x < key y) := by
  intro s
  rw [Ensures, ask]
  by_cases hC : C
  · obtain ⟨b, hb, hiff⟩ := h hC x y (hx hC) (hy hC) s
    rcases hlt : lt x y s with ⟨ans, s'⟩
    obtain rfl : ans = some b := by rw [← hb, hlt]
    exact fun _ => hiff
  · rcases lt x y s with ⟨_ | b, s'⟩
    · exact ⟨rfl, hC⟩
    · exact fun hC' => absurd hC' hC

/-! ## Galloping -/

variable {n : Nat} {E : Stop → Prop}

/-- **Galloping stays in bounds and finds the boundary**, from whatever hint. -/
theorem returns_gallop {before : Nat → EStateM Stop σ Bool} {P : Nat → Prop}
    {hint : Nat} (htest : ∀ i < n, Tells C E (before i) (P i))
    (hmono : C → ∀ i j, i ≤ j → j < n → P j → P i) (hhint : hint < n) :
    Returns (gallop before n hint) (fun k => k ≤ n ∧ (C → ∀ i < n, (P i ↔ i < k))) E := by
  refine .bind (htest hint hhint) fun b hb => ?_
  cases b with
  | true =>
    simp only [if_true, sub_eq hhint.le, pure_bind]
    refine .bind (returns_gallopOut
      (fun i _ hi => htest (hint + i) (by omega)) zero_lt_one (by omega)
      fun hC => (hb hC).mp rfl) fun r ⟨hlt, hmax, hyes, hno⟩ => ?_
    refine (returns_bisect htest hmono (by omega) (by omega) (fun hC i hi => ?_)
      fun hC i hi hn hP => ?_).mono fun k hk => ⟨by omega, hk.2.2⟩
    · exact hmono hC i (hint + r.1) (by omega) (by omega) (hyes hC)
    · have hlt' : r.2 < n - hint := by omega
      exact hno hC hlt' (hmono hC _ i (by omega) hn hP)
  | false =>
    simp only [Bool.false_eq_true, if_false]
    refine .bind (returns_gallopOut (C := C) (G := fun ofs => ¬ P (hint - ofs)) (fun i _ hi => ?_)
      zero_lt_one (succ_pos hint) fun hC => ?_) fun r ⟨hlt, hmax, hno, hyes⟩ => ?_
    · rw [sub_eq (Nat.lt_succ_iff.mp hi), pure_bind]
      exact (htest (hint - i) (by omega)).not
    · exact fun hP => by simpa using (hb hC).mpr hP
    rw [sub_eq (by omega), pure_bind, sub_eq (by omega), pure_bind]
    refine (returns_bisect htest hmono (by omega) (by omega) (fun hC i hi => ?_)
      fun hC i hi hn hP => ?_).mono fun k hk => ⟨by omega, hk.2.2⟩
    · have hlt' : r.2 < hint + 1 := by omega
      exact hmono hC i (hint - r.2) (by omega) (by omega) (not_not.mp (hyes hC hlt'))
    · exact hno hC (hmono hC _ i (by omega) hn hP)

variable {a : List α} {R : α → Prop}

/-- A boundary between indices splits the list. -/
theorem take_drop_of_boundary {k : Nat}
    (h : ∀ i < a.length, ((∀ hi : i < a.length, R a[i]) ↔ i < k)) :
    (∀ y ∈ a.take k, R y) ∧ ∀ y ∈ a.drop k, ¬ R y := by
  constructor
  · intro y hy
    obtain ⟨i, hi, rfl⟩ := mem_iff_getElem.mp hy
    rw [length_take] at hi
    rw [getElem_take]
    exact (h i (by omega)).mpr (by omega) (by omega)
  intro y hy hR
  obtain ⟨i, hi, rfl⟩ := mem_iff_getElem.mp hy
  rw [length_drop] at hi
  rw [getElem_drop] at hR
  have := (h (k + i) (by omega)).mp fun _ => hR
  omega

section

variable {x : α} {a : List α} {hint : Nat}

/-- A gallop over a list splits it into the elements before the boundary and those behind it. -/
theorem returns_gallop_list {test : α → EStateM Stop σ Bool}
    (htest : ∀ y ∈ a, Tells C E (test y) (R y)) (hmono : C → ∀ y z, key y ≤ key z → R z → R y)
    (hasc : C → Ascending key a) (hhint : hint < a.length) :
    Returns (gallop (fun i => item a i >>= test) a.length hint)
      (fun k => k ≤ a.length ∧ (C → (∀ y ∈ a.take k, R y) ∧ ∀ y ∈ a.drop k, ¬ R y)) E := by
  refine (returns_gallop (fun i hi => ?_) (fun hC i j hij hj hR hi => ?_) hhint).mono
      fun k hk => ⟨hk.1, fun hC => take_drop_of_boundary (hk.2 hC)⟩
  · rw [item_eq hi, pure_bind]
    exact (htest a[i] (getElem_mem hi)).mono fun b hb hC => by simp [hb hC, hi]
  · exact hmono hC _ _ ((hasc hC).getElem_le hij hj) (hR hj)

section

variable (h : Follows lt C U key) (hx : C → U x) (ha : C → ∀ y ∈ a, U y)
  (hasc : C → Ascending key a) (hhint : hint < a.length)

include h hx ha hasc hhint

/-- Where an element goes left of its equals. -/
theorem returns_gallopLeft : Returns (gallopLeft lt x a hint) (fun k => k ≤ a.length ∧
        (C → (∀ y ∈ a.take k, key y < key x) ∧ ∀ y ∈ a.drop k, key x ≤ key y)) (Aborts C) := by
  refine (returns_gallop_list
    (fun y hy => ask_tells h (fun hC => ha hC y hy) hx) (fun _ y z hle hlt => hle.trans_lt hlt) hasc
    hhint).mono fun k hk => ⟨hk.1, fun hC => ?_⟩
  simpa only [not_lt] using hk.2 hC

/-- Where an element goes right of its equals. -/
theorem returns_gallopRight : Returns (gallopRight lt x a hint) (fun k => k ≤ a.length ∧
        (C → (∀ y ∈ a.take k, key y ≤ key x) ∧ ∀ y ∈ a.drop k, key x < key y)) (Aborts C) := by
  refine (returns_gallop_list (fun y hy => (ask_tells h hx fun hC => ha hC y hy).not)
    (fun _ y z hle hnot hlt => hnot (hlt.trans_le hle)) hasc hhint).mono
    fun k hk => ⟨hk.1, fun hC => ?_⟩
  simpa only [not_lt, not_le] using hk.2 hC

end

end

/-! ## Slices -/

/-- A slice program fails by an abort, leaving a permutation of what there was. -/
def Fails (C : Prop) (orig : List α) (stop : Stop) (items : List α) : Prop :=
  Aborts C stop ∧ items.Perm orig

/-- Questions leave the elements alone. -/
theorem ensures_slice_asking {x : EStateM Stop σ β} {Q : β → Prop} (hx : Returns x Q (Aborts C))
    (t : Slice σ α) {orig : List α} (hperm : t.items.Perm orig) :
    Ensures (Slice.asking x) t (fun b t' => Q b ∧ t'.items = t.items)
      fun stop t' => Fails C orig stop t'.items := by
  refine (hx t.cmp).zoom.mono ?_ ?_
  · rintro b _ ⟨c, rfl, hb⟩
    exact ⟨hb, rfl⟩
  · rintro stop _ ⟨c, rfl, hstop⟩
    exact ⟨hstop, hperm⟩

variable {t : Slice σ α} {orig : List α}

theorem ensures_ltAt (h : Follows lt C U key) (hU : C → ∀ y ∈ orig, U y)
    (hperm : t.items.Perm orig) {j : Nat} (hi : i < t.items.length) (hj : j < t.items.length) :
    Ensures (ltAt lt i j) t
      (fun b t' => (C → (b = true ↔ key t.items[i] < key t.items[j])) ∧ t'.items = t.items)
      fun stop t' => Fails C orig stop t'.items := by
  refine .get_bind ?_
  rw [item_eq hi, pure_bind, item_eq hj, pure_bind]
  exact ensures_slice_asking (ask_tells h (fun hC => hU hC _ (hperm.subset (getElem_mem hi)))
      fun hC => hU hC _ (hperm.subset (getElem_mem hj))) t hperm

variable {x y z : List α}

theorem reverseRange_eq {j : Nat} (ht : t.items = x ++ (y ++ z))
    (hi : i = x.length) (hj : j = x.length + y.length) :
    reverseRange i j t = .ok () ⟨t.cmp, x ++ (y.reverse ++ z)⟩ := by
  rw [reverseRange, get_bind_apply, sub_eq (by omega), pure_bind_apply, ht,
    slice_append hi (by omega), pure_bind_apply,
    overwritten_append hi (length_reverse ..), pure_bind_apply, modify_apply]

theorem rotateRight_eq {a : α} {l ok : Nat} (ht : t.items = x ++ (y ++ a :: z)) (hl : l = x.length)
    (hok : ok = x.length + y.length) : rotateRight l ok t = .ok () ⟨t.cmp, x ++ (a :: y ++ z)⟩ := by
  have ht' : t.items = (x ++ y) ++ a :: z := by rw [ht, append_assoc]
  have ht'' : t.items = x ++ ((y ++ [a]) ++ z) := by simp [ht]
  rw [rotateRight, get_bind_apply, sub_eq (by omega), pure_bind_apply, ht',
    item_append (by simp [hok]), pure_bind_apply, ← ht', ht, slice_append hl (by omega),
    pure_bind_apply, ← ht, ht'', overwritten_append hl (by simp), pure_bind_apply, modify_apply]

/-! ## Binary insertion -/

section

variable (h : Follows lt C U key)

include h

/-- The search for the place of `x` among the sorted elements `a` before it. -/
theorem returns_insertionPoint {x : α}
    (hU : C → ∀ y ∈ a ++ x :: z, U y) (hasc : C → Ascending key a) :
    Returns (bisect (fun m => do
      let pivot ← item (a ++ x :: z) a.length
      let y ← item (a ++ x :: z) m
      return !(← ask lt pivot y)) 0 a.length)
      (fun k => k ≤ a.length ∧
        (C → (∀ y ∈ a.take k, key y ≤ key x) ∧ ∀ y ∈ a.drop k, key x < key y)) (Aborts C) := by
  refine (returns_bisect (C := C)
    (P := fun i => ∀ hi : i < a.length, ¬ key x < key a[i]) (fun i hi => ?_)
    (fun hC i j hij hj hnot hi hlt => ?_) (zero_le _) le_rfl
    (fun _ i hi => absurd hi (not_lt_zero i))
    fun _ i hi hi' => absurd hi' (not_lt.mpr hi)).mono fun k hk => ⟨hk.2.1, fun hC => ?_⟩
  · rw [item_append rfl, pure_bind, item_eq (by simp; omega), pure_bind]
    refine .mono (ask_tells h (fun hC => hU hC x (by simp))
      fun hC => hU hC _ (getElem_mem _)).not fun b hb hC => ?_
    simp [hb hC, hi]
  · exact hnot hj (hlt.trans_le ((hasc hC).getElem_le hij hj))
  · simpa only [not_lt, not_le] using
      take_drop_of_boundary (R := fun y => ¬ key x < key y) (hk.2.2 hC)

/-- One element is inserted behind its equals. -/
theorem ensures_binaryInsert {x : α} (ht : t.items = a ++ x :: z) (hperm : t.items.Perm orig)
    (hU : C → ∀ y ∈ orig, U y) (hasc : C → Ascending key a) :
    Ensures (binaryInsert lt a.length) t
      (fun _ t' => ∃ a', t'.items = a' ++ z ∧ Rearranged C key a' (a ++ [x]) ∧
        (C → Ascending key a'))
      fun stop t' => Fails C orig stop t'.items := by
  have hsearch := returns_insertionPoint h
    (fun hC y hy => hU hC y (hperm.subset (by rwa [ht]))) hasc
  refine .get_bind ?_
  rw [ht]
  refine (ensures_slice_asking hsearch t hperm).bind ?_
  rintro k t' ⟨⟨hk, hsplit⟩, ht'⟩
  have hitems : t'.items = a.take k ++ (a.drop k ++ x :: z) := by
    rw [ht', ht, ← append_assoc, take_append_drop]
  have hfront : k = (a.take k).length := by
    rw [length_take]
    omega
  have hback : a.length = (a.take k).length + (a.drop k).length := by
    rw [← length_append, take_append_drop]
  refine .of_eq (rotateRight_eq hitems hfront hback)
    ⟨a.take k ++ ([x] ++ a.drop k), by simp, ?_, fun hC => ?_⟩
  · have hmove : Rearranged C key (a.take k ++ ([x] ++ (a.drop k ++ [])))
        (a.take k ++ (a.drop k ++ ([x] ++ []))) := by
      refine .swap_mid _ _ fun hC b hb c hc => ?_
      obtain rfl : b = x := by simpa using hb
      exact ((hsplit hC).2 c hc).ne
    simpa [← append_assoc] using hmove
  obtain ⟨hle, hlt⟩ := hsplit hC
  have ha := hasc hC
  rw [← take_append_drop k a, ascending_append] at ha
  refine ascending_append.mpr ⟨ha.1, ascending_append.mpr ⟨ascending_singleton x, ha.2.1, ?_⟩, ?_⟩
  · intro b hb c hc
    obtain rfl : b = x := by simpa using hb
    exact (hlt c hc).le
  intro b hb c hc
  rcases mem_append.mp hc with hc | hc
  · obtain rfl : c = x := by simpa using hc
    exact hle b hb
  · exact ha.2.2 b hb c hc

theorem ensures_forM_binaryInsert (ht : t.items = a ++ z) (hre : Rearranged C key t.items orig)
    (hU : C → ∀ y ∈ orig, U y) (hasc : C → Ascending key a) :
    Ensures ((List.range' a.length z.length).forM (binaryInsert lt)) t
      (fun _ t' => Rearranged C key t'.items orig ∧ (C → Ascending key t'.items))
      fun stop t' => Fails C orig stop t'.items := by
  induction z generalizing t a with
  | nil =>
    rw [append_nil] at ht
    exact .pure ⟨hre, ht ▸ hasc⟩
  | cons x z ih =>
    show Ensures (binaryInsert lt a.length >>= fun _ =>
      (List.range' (a.length + 1) z.length).forM (binaryInsert lt)) _ _ _
    refine (ensures_binaryInsert h ht hre.perm hU hasc).bind ?_
    rintro ⟨⟩ t' ⟨a', ht', hre', hasc'⟩
    have hlen : a'.length = a.length + 1 := by simpa using hre'.length_eq
    rw [← hlen]
    refine ih ht' (.trans ?_ hre) hasc'
    rw [ht', ht]
    simpa using hre'.append_right z

/-- **Binary insertion sorts a slice stably.** -/
theorem ensures_binarySort {ok : Nat} (hU : C → ∀ y ∈ t.items, U y)
    (hok : ok ≤ t.items.length) (hne : t.items ≠ []) (hasc : C → Ascending key (t.items.take ok)) :
    Ensures (binarySort lt ok) t
      (fun _ t' => Rearranged C key t'.items t.items ∧ (C → Ascending key t'.items))
      fun stop t' => Fails C t.items stop t'.items := by
  refine .get_bind ?_
  have hpos : 0 < t.items.length := length_pos_iff.mpr hne
  have hfirst : (t.items.take (max ok 1)).length = max ok 1 := by
    rw [length_take]
    omega
  have hasc' : C → Ascending key (t.items.take (max ok 1)) := fun hC => by
    rcases Nat.eq_zero_or_pos ok with rfl | hpos'
    · obtain ⟨x, xs, hx⟩ := exists_cons_of_ne_nil hne
      simpa [hx] using ascending_singleton x
    · rw [max_eq_left hpos']
      exact hasc hC
  have := ensures_forM_binaryInsert h (take_append_drop (max ok 1) t.items).symm
    (.refl t.items) hU hasc'
  rwa [hfirst, length_drop] at this

end

/-! ## Counting a run -/

theorem take_succ_eq {l : List α} (hn : n < l.length) (hpos : 0 < n) :
    l.take (n + 1) = l.take (n - 1) ++ [l[n - 1]] ++ [l[n]] := by
  have hprev : l.take n = l.take (n - 1) ++ [l[n - 1]] := by
    obtain ⟨m, rfl⟩ := exists_eq_succ_of_ne_zero hpos.ne'
    simp
  rw [← hprev, take_append_getElem]

variable {remaining : Nat}

theorem ensures_climb (h : Follows lt C U key) (hperm : t.items.Perm orig)
    (hU : C → ∀ y ∈ orig, U y) (hrem : remaining = t.items.length)
    (hpos : 0 < n) (hn : n ≤ remaining) (hasc : C → Ascending key (t.items.take n)) :
    Ensures (climb lt remaining n) t (fun m t' => t'.items = t.items ∧ n ≤ m ∧ m ≤ remaining ∧
        (C → Ascending key (t.items.take m)) ∧
        ∀ hm : m < t.items.length, C → key t.items[m] < key t.items[m - 1])
      fun stop t' => Fails C orig stop t'.items := by
  fun_induction climb lt remaining n generalizing t with
  | case1 n hlt ih =>
    have hn' : n < t.items.length := hrem ▸ hlt
    rw [sub_eq hpos, pure_bind]
    refine (ensures_ltAt h hU hperm hn' (by omega)).bind ?_
    rintro b t' ⟨hb, ht'⟩
    cases b with
    | true => exact .pure ⟨ht', le_rfl, hn, hasc, fun _ hC => (hb hC).mp rfl⟩
    | false =>
      have hasc' : C → Ascending key (t.items.take (n + 1)) := fun hC => by
        have hprev := hasc hC
        rw [take_succ_eq hn' hpos]
        obtain ⟨m, rfl⟩ := exists_eq_succ_of_ne_zero hpos.ne'
        rw [← take_append_getElem (by omega)] at hprev
        exact hprev.concat (not_lt.mp fun hlt => by simpa using (hb hC).mpr hlt)
      have hnext := ih (by rwa [ht']) (by rwa [ht']) (succ_pos n) hlt (by rwa [ht'])
      simp only [ht'] at hnext
      exact hnext.mono (fun m t'' ⟨heq, hle, hrest⟩ => ⟨heq, by omega, hrest⟩) fun _ _ he => he
  | case2 n hge => exact .pure ⟨rfl, le_rfl, hn, hasc, fun hm => absurd hm (by omega)⟩

/-- What is known of a descending run of `n` elements: the slice begins with `x`, which turned
around is an ascending rearrangement of its elements, and the `neq + 1` equal elements `y`, which
are as they were. -/
def Descended (C : Prop) (key : α → Nat) (orig items : List α) (n neq : Nat) : Prop :=
  ∃ x y z o, items = x ++ (y ++ z) ∧ orig = o ++ (y ++ z) ∧ n = x.length + y.length ∧
    y.length = neq + 1 ∧ Rearranged C key x.reverse o ∧
    (C → Ascending key x.reverse ∧ ∃ k, (∀ b ∈ y, key b = k) ∧ ∀ a ∈ x, k < key a)

variable {neq : Nat}

theorem Descended.perm (hd : Descended C key orig t.items n neq) : t.items.Perm orig := by
  obtain ⟨x, y, z, o, hitems, horig, -, -, hre, -⟩ := hd
  rw [hitems, horig]
  exact ((reverse_perm x).symm.trans hre.perm).append_right _

theorem reverseLastEqual_eq (ht : t.items = x ++ (y ++ z))
    (hn : n = x.length + y.length) (hy : y.length = neq + 1) :
    reverseLastEqual n neq t = .ok () ⟨t.cmp, x ++ (y.reverse ++ z)⟩ := by
  rw [reverseLastEqual]
  split_ifs with hneq
  · rw [sub_eq (by omega), pure_bind]
    exact reverseRange_eq ht (by omega) hn
  · obtain ⟨b, rfl⟩ : ∃ b, y = [b] := length_eq_one_iff.mp (by omega)
    rw [reverse_singleton, ← ht]
    rfl

/-- The group of equals at the end is turned around. -/
theorem Descended.closed {o : List α} (hre : Rearranged C key x.reverse o)
    (hC : C → Ascending key x.reverse ∧ ∃ k, (∀ b ∈ y, key b = k) ∧ ∀ a ∈ x, k < key a) :
    Rearranged C key (x ++ y.reverse).reverse (o ++ y) ∧
      (C → Ascending key (x ++ y.reverse).reverse) := by
  rw [reverse_append, reverse_reverse]
  refine ⟨.trans (.swap fun hc b hb a ha => ?_) (hre.append_right y), fun hc => ?_⟩
  · obtain ⟨-, k, hy, hx⟩ := hC hc
    rw [hy b hb]
    exact (hx a (by simpa using ha)).ne
  · obtain ⟨hasc, k, hy, hx⟩ := hC hc
    refine ascending_append.mpr ⟨ascending_of_key_eq hy, hasc, fun b hb a ha => ?_⟩
    rw [hy b hb]
    exact (hx a (by simpa using ha)).le

theorem ensures_descend (h : Follows lt C U key) (hU : C → ∀ y ∈ orig, U y)
    (hrem : remaining = t.items.length) (hd : Descended C key orig t.items n neq) :
    Ensures (descend lt remaining n neq) t (fun r t' => Descended C key orig t'.items r.1 r.2)
      fun stop t' => Fails C orig stop t'.items := by
  fun_induction descend lt remaining n neq generalizing t with
  | case1 n neq hlt ih1 ih2 =>
    have hperm := hd.perm
    obtain ⟨x, y, z, o, hitems, horig, hn, hneq, hre, hdesc⟩ := hd
    have hn' : n < t.items.length := hrem ▸ hlt
    obtain ⟨b, z, rfl⟩ : ∃ b z', z = b :: z' := by
      refine exists_cons_of_ne_nil fun hz => ?_
      simp only [hitems, hz, append_nil, length_append] at hn'
      omega
    obtain ⟨y', a, rfl⟩ : ∃ y' a, y = y' ++ [a] :=
      ⟨y.dropLast, y.getLast (ne_nil_of_length_eq_add_one hneq), (dropLast_append_getLast _).symm⟩
    have hsplit : t.items = (x ++ (y' ++ [a])) ++ b :: z := by simp [hitems]
    have hsplit' : t.items = (x ++ y') ++ a :: b :: z := by simp [hitems]
    have hlen : n = x.length + (y'.length + 1) := by simpa using hn
    have hb : t.items[n] = b := getElem_of_append hsplit (by simp [hlen])
    have ha : t.items[n - 1] = a := getElem_of_append hsplit' (by simp; omega)
    rw [sub_eq (by omega), pure_bind]
    refine (ensures_ltAt h hU hperm hn' (by omega)).bind ?_
    rintro less t' ⟨hless, ht'⟩
    rw [ha, hb] at hless
    cases less with
    | true =>
      -- the group of equals is over
      obtain ⟨hre', hasc'⟩ := Descended.closed hre hdesc
      refine .bind_of_eq (reverseLastEqual_eq (ht'.trans hitems) hn hneq)
        (ih1 (by rw [hrem, hitems]; simp +arith) ⟨x ++ (y' ++ [a]).reverse, [b], z,
          o ++ (y' ++ [a]),
          by simp, by simp [horig], by simp [hlen], rfl, hre', fun hC => ⟨hasc' hC, key b,
            by simp, fun c hc => ?_⟩⟩)
      obtain ⟨-, k, hy, hx⟩ := hdesc hC
      have hbk : key b < k := hy a (by simp) ▸ (hless hC).mp rfl
      rcases mem_append.mp hc with hc | hc
      · exact hbk.trans (hx c hc)
      · rwa [hy c (mem_reverse.mp hc)]
    | false =>
      have hn'' : n < t'.items.length := by rwa [ht']
      refine (ensures_ltAt h hU (by rwa [ht']) (by omega) hn'').bind ?_
      rintro greater t'' ⟨hgreater, ht''⟩
      simp only [ht', ha, hb] at hgreater
      have hitems'' : t''.items = x ++ ((y' ++ [a]) ++ b :: z) := by rw [ht'', ht', hitems]
      cases greater with
      | true => exact .pure ⟨x, y' ++ [a], b :: z, o, hitems'', horig, hn, hneq, hre, hdesc⟩
      | false =>
        refine ih2 (by rw [hitems'', ← hitems, hrem])
          ⟨x, y' ++ [a] ++ [b], z, o, by simp [hitems''],
          by simp [horig], by simp [hlen]; omega, by simpa using hneq, hre, fun hC => ?_⟩
        obtain ⟨hasc, k, hy, hx⟩ := hdesc hC
        refine ⟨hasc, k, fun c hc => ?_, hx⟩
        rcases mem_append.mp hc with hc | hc
        · exact hy c hc
        obtain rfl : c = b := by simpa using hc
        have hle : ¬ key c < key a := fun hlt => by simpa using (hless hC).mpr hlt
        have hge : ¬ key a < key c := fun hlt => by simpa using (hgreater hC).mpr hlt
        have := hy a (by simp)
        omega
  | case2 n neq hge => exact .pure hd

/-- What counting a run leaves: a run of that length at the front, and a rearrangement of the
whole. -/
def Counted (C : Prop) (key : α → Nat) (orig items : List α) (n : Nat) : Prop :=
  0 < n ∧ n ≤ orig.length ∧ Rearranged C key items orig ∧ (C → Ascending key (items.take n))

variable (h : Follows lt C U key) (hU : C → ∀ y ∈ t.items, U y)

include h hU

/-- A run that starts with equal elements and then descends is turned around. -/
theorem ensures_finishDescending {e : List α} {b : α} (ht : t.items = e ++ b :: z) (hne : e ≠ [])
    (hdesc : C → ∃ k, (∀ a ∈ e, key a = k) ∧ key b < k) :
    Ensures (finishDescending lt t.items.length e.length) t
      (fun m t' => Counted C key t.items t'.items m)
      fun stop t' => Fails C t.items stop t'.items := by
  have hfirst : reverseFirst e.length t = .ok () ⟨t.cmp, e.reverse ++ b :: z⟩ := by
    rw [reverseFirst]
    split_ifs with hlen
    · exact reverseRange_eq (x := []) (by simpa using ht) rfl (by simp)
    obtain ⟨a, rfl⟩ : ∃ a, e = [a] := length_eq_one_iff.mp (by
      have := length_pos_iff.mpr hne
      omega)
    rw [reverse_singleton, ← ht]
    rfl
  refine .bind_of_eq hfirst ((ensures_descend h hU (by simp [ht]) ⟨e.reverse, [b], z, e,
    by simp, ht, by simp, rfl, by simpa using .refl e, fun hC => ?_⟩).bind ?_)
  · obtain ⟨k, hk, hb⟩ := hdesc hC
    refine ⟨by simpa using ascending_of_key_eq hk, key b, by simp, fun a ha => ?_⟩
    rwa [hk a (mem_reverse.mp ha)]
  rintro ⟨n, neq⟩ t' ⟨x, y, z', o, hitems, horig, hn, hneq, hre, hC⟩
  simp only at hn hneq ⊢
  obtain ⟨hre', hasc'⟩ := Descended.closed hre hC
  refine .bind_of_eq (reverseLastEqual_eq hitems hn hneq) ?_
  refine .bind_of_eq (reverseRange_eq (x := []) (y := x ++ y.reverse) (z := z') (by simp) rfl
    (by simp [hn])) ?_
  have hwhole : Rearranged C key ((x ++ y.reverse).reverse ++ z') t.items := by
    rw [horig, ← append_assoc]
    exact hre'.append_right z'
  have hlen : n = (x ++ y.reverse).reverse.length := by simp [hn]; omega
  refine (ensures_climb h (t := ⟨t'.cmp, (x ++ y.reverse).reverse ++ z'⟩) hwhole.perm hU
    hwhole.length_eq.symm (by omega) ?_ fun hc => ?_).mono ?_ fun _ _ he => he
  · rw [← hwhole.length_eq, hlen, length_append]
    exact le_add_right _ _
  · rw [hlen, take_left]
    exact hasc' hc
  rintro m t'' ⟨heq, hle, hm, hasc'', -⟩
  refine ⟨by omega, hm, ?_, ?_⟩
  · rw [heq]
    exact hwhole
  · rw [heq]
    exact hasc''

/-- **Counting a run leaves a run**, and does so stably. -/
theorem ensures_countRun (hne : t.items ≠ []) :
    Ensures (countRun lt) t (fun n t' => Counted C key t.items t'.items n)
      fun stop t' => Fails C t.items stop t'.items := by
  have hpos : 0 < t.items.length := length_pos_iff.mpr hne
  have hone : C → Ascending key (t.items.take 1) := fun _ => by
    obtain ⟨x, xs, hx⟩ := exists_cons_of_ne_nil hne
    simpa [hx] using ascending_singleton x
  refine .get_bind ((ensures_climb h (.refl _) hU rfl zero_lt_one hpos hone).bind ?_)
  rintro n t' ⟨ht', hn1, hn, hasc, hless⟩
  have hcounted : Counted C key t.items t'.items n := ⟨hn1, hn, ht' ▸ .refl _, ht' ▸ hasc⟩
  split_ifs with hall
  · exact .pure hcounted
  have hn' : n < t.items.length := lt_of_le_of_ne hn hall
  have hrises : Ensures (rises lt n) t'
      (fun b t'' => (b = false → C → ¬ key t.items[0] < key t.items[n - 1]) ∧ t''.items = t.items)
      fun stop t'' => Fails C t.items stop t''.items := by
    rw [rises]
    split_ifs with hgt
    · rw [sub_eq hn1, pure_bind]
      have hzero : 0 < t'.items.length := by rwa [ht']
      have hprev : n - 1 < t'.items.length := by
        rw [ht']
        omega
      refine (ensures_ltAt h hU (by rw [ht']) hzero hprev).mono ?_ fun _ _ he => he
      rintro b t'' ⟨hb, ht''⟩
      simp only [ht'] at hb
      exact ⟨fun hfalse hC hlt => by simpa [hfalse] using (hb hC).mpr hlt, ht''.trans ht'⟩
    · obtain rfl : n = 1 := by omega
      exact .pure ⟨fun _ _ => lt_irrefl _, ht'⟩
  refine hrises.bind ?_
  rintro b t'' ⟨hb, ht''⟩
  cases b with
  | true => exact .pure ⟨hn1, hn, ht'' ▸ .refl _, ht'' ▸ hasc⟩
  | false =>
    -- the elements so far are equal, since they do not descend and do not rise
    have hsplit : t''.items = t.items.take n ++ t.items[n] :: t.items.drop (n + 1) := by
      rw [ht'', ← drop_eq_getElem_cons hn', take_append_drop]
    have hlen : (t.items.take n).length = n := by
      rw [length_take]
      omega
    have := ensures_finishDescending h (by rwa [ht'']) hsplit
      (ne_nil_of_length_pos (by omega)) fun hC =>
        ⟨key t.items[n - 1], fun a ha => ?_, hless hn' hC⟩
    · rwa [hlen, ht''] at this
    obtain ⟨i, hi, rfl⟩ := mem_iff_getElem.mp ha
    have hlow := (hasc hC).getElem_le (zero_le i) hi
    have hhigh := (hasc hC).getElem_le (le_sub_one_of_lt (hi.trans_eq hlen)) (by omega)
    simp only [getElem_take] at hlow hhigh ⊢
    have := hb rfl hC
    omega

end Monty.Sorting
