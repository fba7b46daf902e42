import Mathlib.Data.List.DropRight
import Mathlib.Data.Nat.Digits.Lemmas

/-!
# Numbers as lists of digits

A number in base `b` is the list of its digits, the least significant first; `Nat.ofDigits b` is its
value. The list is canonical if every digit is below the base and the last is not zero, and then it
is the one that `Nat.digits b` gives. `trim` makes a list canonical, `chunks` cuts it into pieces,
and `compareTop` compares canonical lists without computing their values.
-/

namespace Radix

open List Nat

variable {b : Nat} {l m : List Nat}

structure Canonical (b : Nat) (l : List Nat) : Prop where
  lt : ∀ d ∈ l, d < b
  top : l.getLast? ≠ some 0

section

variable (hb : 1 < b)

include hb

theorem Canonical.digits_ofDigits (h : Canonical b l) : b.digits (Nat.ofDigits b l) = l := by
  refine Nat.digits_ofDigits b hb l h.lt fun hne h0 => h.top ?_
  rw [getLast?_eq_some_getLast hne, h0]

theorem canonical_digits (n : Nat) : Canonical b (b.digits n) where
  lt _ hd := digits_lt_base hb hd
  top h := by
    by_cases hn : n = 0
    · rw [hn, digits_zero] at h
      exact nomatch h
    · rw [getLast?_eq_some_getLast (digits_ne_nil_iff_ne_zero.mpr hn)] at h
      exact getLast_digit_ne_zero b hn (Option.some.inj h)

theorem Canonical.inj (hl : Canonical b l) (hm : Canonical b m) :
    l = m ↔ ofDigits b l = ofDigits b m := by
  refine ⟨congrArg _, fun h => ?_⟩
  rw [← hl.digits_ofDigits hb, h, hm.digits_ofDigits hb]

theorem Canonical.ofDigits_eq_zero (h : Canonical b l) : ofDigits b l = 0 ↔ l = [] := by
  rw [← h.digits_ofDigits hb, digits_eq_nil_iff_eq_zero, h.digits_ofDigits hb]

theorem Canonical.pow_le (h : Canonical b l) (hne : l ≠ []) :
    b ^ (l.length - 1) ≤ ofDigits b l := by
  have hlt : l.length - 1 < (b.digits (ofDigits b l)).length := by
    rw [h.digits_ofDigits hb]
    have := length_pos_iff.mpr hne
    omega
  exact (lt_digits_length_iff hb _).mp hlt

theorem Canonical.lt_of_length_lt (hl : Canonical b l) (hm : Canonical b m)
    (h : l.length < m.length) : ofDigits b l < ofDigits b m := by
  have hne : m ≠ [] := by
    rintro rfl
    exact not_lt_zero _ h
  calc ofDigits b l < b ^ l.length := ofDigits_lt_base_pow_length hb hl.lt
    _ ≤ b ^ (m.length - 1) := Nat.pow_le_pow_right (by omega) (by omega)
    _ ≤ ofDigits b m := hm.pow_le hb hne

theorem canonical_of_pow_le (hlt : ∀ d ∈ l, d < b)
    (h : l ≠ [] → b ^ (l.length - 1) ≤ ofDigits b l) : Canonical b l where
  lt := hlt
  top h0 := by
    obtain ⟨l, rfl⟩ := getLast?_eq_some_iff.mp h0
    have hle := h (by simp)
    rw [Nat.ofDigits_append_zero, length_append, length_singleton, Nat.add_sub_cancel] at hle
    exact absurd (ofDigits_lt_base_pow_length hb fun d hd => hlt d (mem_append_left _ hd))
      (not_lt.mpr hle)

end

/-- A list that is longer by one at most, and only if its value is large enough. -/
structure Grows (b : Nat) (l m : List Nat) : Prop where
  lt : ∀ d ∈ m, d < b
  length : m.length = l.length ∨ m.length = l.length + 1 ∧ b ^ l.length ≤ ofDigits b m

theorem Grows.cons {x y : Nat} (h : Grows b l m) (hy : y < b) : Grows b (x :: l) (y :: m) where
  lt := forall_mem_cons.mpr ⟨hy, h.lt⟩
  length := by
    refine h.length.imp (congrArg (· + 1)) fun ⟨hlen, hle⟩ => ⟨congrArg (· + 1) hlen, ?_⟩
    calc b ^ (l.length + 1) = b * b ^ l.length := pow_succ'
      _ ≤ b * ofDigits b m := mul_le_mul_left _ hle
      _ ≤ y + b * Nat.ofDigits b m := Nat.le_add_left ..

theorem Grows.canonical (hb : 1 < b) (h : Grows b l m) (hl : Canonical b l)
    (hle : ofDigits b l ≤ ofDigits b m) : Canonical b m := by
  refine canonical_of_pow_le hb h.lt fun hne => ?_
  rcases h.length with hlen | ⟨hlen, hpow⟩
  · have hlne : l ≠ [] := by
      rintro rfl
      exact hne (length_eq_zero_iff.mp hlen)
    rw [hlen]
    exact (hl.pow_le hb hlne).trans hle
  · rwa [hlen, Nat.add_sub_cancel]

theorem Canonical.replicate_append (hb : 1 < b) (h : Canonical b l) (hne : l ≠ []) (n : Nat) :
    Canonical b (replicate n 0 ++ l) where
  lt d hd := by
    rcases mem_append.mp hd with hd | hd
    · rw [eq_of_mem_replicate hd]
      omega
    · exact h.lt d hd
  top := by
    rw [getLast?_append_of_ne_nil _ hne]
    exact h.top

theorem ofDigits_replicate_append (b n : Nat) (l : List Nat) :
    ofDigits b (replicate n 0 ++ l) = b ^ n * ofDigits b l := by
  rw [ofDigits_append, ofDigits_replicate_zero, length_replicate, zero_add]

theorem ofDigits_head_tail (b : Nat) (l : List Nat) :
    ofDigits b l = l.headD 0 + b * ofDigits b l.tail := by
  cases l with
  | nil => rfl
  | cons d l => exact ofDigits_cons

/-! ## Trimming -/

/-- Without the zeros at the top. -/
def trim (l : List Nat) : List Nat := l.rdropWhile (· = 0)

theorem ofDigits_trim (b : Nat) (l : List Nat) : ofDigits b (trim l) = ofDigits b l := by
  induction l using reverseRecOn with
  | nil => rfl
  | append_singleton l d ih =>
    rw [trim, rdropWhile_concat]
    split_ifs with hd
    · rw [of_decide_eq_true hd, ofDigits_append_zero]
      exact ih
    · rfl

theorem canonical_trim (h : ∀ d ∈ l, d < b) : Canonical b (trim l) where
  lt d hd := h d (( rdropWhile_prefix _ l).subset hd)
  top h0 := by
    have hne : trim l ≠ [] := by
      intro hnil
      rw [hnil] at h0
      exact nomatch h0
    rw [getLast?_eq_some_getLast hne] at h0
    exact rdropWhile_last_not _ l hne (decide_eq_true (Option.some.inj h0))

theorem length_trim_le (l : List Nat) : (trim l).length ≤ l.length :=
  ( rdropWhile_prefix _ l).length_le

/-! ## Pieces -/

/-- Cuts a list into pieces of `n`, the last of which may be shorter, as many as there is fuel
for. -/
def chunksAux {α : Type} (n : Nat) : Nat → List α → List (List α)
  | 0, _ => []
  | _ + 1, [] => []
  | fuel + 1, a :: l => (a :: l).take n :: chunksAux n fuel ((a :: l).drop n)

def chunks {α : Type} (n : Nat) (l : List α) : List (List α) := chunksAux n l.length l

theorem chunksAux_eq {α : Type} {n : Nat} (hn : 0 < n) (fuel : Nat) (l : List α)
    (h : l.length ≤ fuel) : chunksAux n fuel l = chunks n l := by
  induction fuel using Nat.strongRecOn generalizing l with
  | ind fuel ih =>
    cases l with
    | nil => cases fuel <;> rfl
    | cons a l =>
      obtain ⟨fuel, rfl⟩ : ∃ k, fuel = k + 1 := ⟨fuel - 1, by rw [length_cons] at h; omega⟩
      have hlen : ((a :: l).drop n).length ≤ l.length := by
        rw [length_drop, length_cons]
        omega
      rw [length_cons] at h
      rw [chunks, length_cons, chunksAux, chunksAux, ih fuel (by omega) _ (by omega),
        ih l.length (by omega) _ hlen]

theorem chunks_of_ne_nil {α : Type} {n : Nat} (hn : 0 < n) {l : List α} (hl : l ≠ []) :
    chunks n l = l.take n :: chunks n (l.drop n) := by
  obtain ⟨a, l, rfl⟩ := exists_cons_of_ne_nil hl
  rw [chunks, length_cons, chunksAux, chunksAux_eq hn]
  rw [length_drop, length_cons]
  omega

/-! ## Comparing -/

/-- The longer is the larger; otherwise the first difference from the top decides. -/
def compareTop (l m : List Nat) : Ordering :=
  (compare l.length m.length).then (List.compareLex compare l.reverse m.reverse)

theorem compareLex_reverse (hb : 1 < b) (hl : ∀ d ∈ l, d < b) (hm : ∀ d ∈ m, d < b)
    (h : l.length = m.length) :
    List.compareLex compare l.reverse m.reverse = compare (ofDigits b l) (ofDigits b m) := by
  induction l using List.reverseRecOn generalizing m with
  | nil =>
    obtain rfl := length_eq_zero_iff.mp h.symm
    rfl
  | append_singleton l x ih =>
    obtain ⟨m, y, rfl⟩ : ∃ m' y, m = m' ++ [y] := by
      refine ⟨m.dropLast, m.getLast ?_, (dropLast_append_getLast _).symm⟩
      rintro rfl
      simp at h
    have hlen : l.length = m.length := by simpa using h
    have hlt : ofDigits b l < b ^ m.length :=
      hlen ▸ ofDigits_lt_base_pow_length hb fun d hd => hl d (mem_append_left _ hd)
    have hmlt : ofDigits b m < b ^ m.length :=
      ofDigits_lt_base_pow_length hb fun d hd => hm d (mem_append_left _ hd)
    rw [reverse_append, reverse_append, ofDigits_append, ofDigits_append,
      ofDigits_singleton, ofDigits_singleton, hlen]
    rw [reverse_singleton, reverse_singleton, singleton_append, singleton_append,
      List.compareLex_cons_cons, ih (fun d hd => hl d (List.mem_append_left _ hd))
      (fun d hd => hm d (mem_append_left _ hd)) hlen]
    have hval {u v x y : Nat} (hu : u < b ^ m.length) (hxy : x < y) :
        u + b ^ m.length * x < v + b ^ m.length * y := by
      have hmul := mul_le_mul_left (b ^ m.length) (succ_le_of_lt hxy)
      rw [mul_succ] at hmul
      omega
    rcases lt_trichotomy x y with hxy | rfl | hxy
    · rw [compare_lt_iff_lt.mpr hxy, compare_lt_iff_lt.mpr (hval hlt hxy)]
      rfl
    · rw [compare_eq_iff_eq.mpr rfl, Ordering.eq_then]
      rcases lt_trichotomy (ofDigits b l) (ofDigits b m) with h | h | h
      · rw [compare_lt_iff_lt.mpr h, compare_lt_iff_lt.mpr (by omega)]
      · rw [h]
        simp
      · rw [compare_gt_iff_gt.mpr h, compare_gt_iff_gt.mpr (by omega)]
    · rw [compare_gt_iff_gt.mpr hxy, compare_gt_iff_gt.mpr (hval hmlt hxy)]
      rfl

theorem compareTop_eq (hb : 1 < b) (hl : Canonical b l) (hm : Canonical b m) :
    compareTop l m = compare (ofDigits b l) (ofDigits b m) := by
  rw [compareTop]
  rcases lt_trichotomy l.length m.length with h | h | h
  · rw [compare_lt_iff_lt.mpr h, compare_lt_iff_lt.mpr (hl.lt_of_length_lt hb hm h)]
    rfl
  · rw [compare_eq_iff_eq.mpr h, Ordering.eq_then, compareLex_reverse hb hl.lt hm.lt h]
  · rw [compare_gt_iff_gt.mpr h, compare_gt_iff_gt.mpr (hm.lt_of_length_lt hb hl h)]
    rfl

end Radix
