import Monty.Decimal.Words

/-!
# Shifts by decimal digits

A shift by `n` digits moves by `n / 19` words, and then splits every word at a power of ten. The
digits of a coefficient are found in the same way.
-/

namespace Monty.Decimal

open Fallible Radix List Nat Bool

theorem pow_ten_eq (n : Nat) : 10 ^ n = radix ^ (n / 19) * 10 ^ (n % 19) := by
  rw [radix_pow, ← pow_add, div_add_mod]

theorem radix_split {shift : Nat} (h : shift ≤ 19) : 10 ^ shift * 10 ^ (19 - shift) = radix := by
  rw [← Nat.pow_add, Nat.add_sub_cancel' h, radix_eq]

namespace Coeff

/-! ## To the left -/

theorem shlLoop_spec {lowDiv lowMul : Nat} (hsplit : lowMul * lowDiv = radix) (carry : Nat)
    (words : List Nat) (hcarry : carry < lowMul) (h : ∀ w ∈ words, w < radix) :
    ∃ out, shlLoop lowDiv lowMul carry words = some out ∧ Grows radix words out ∧
      ofDigits radix out = ofDigits radix words * lowMul + carry := by
  have hdiv : 0 < lowDiv := by
    rcases Nat.eq_zero_or_pos lowDiv with h0 | hpos
    · rw [h0, mul_zero] at hsplit
      exact absurd hsplit.symm (ne_of_gt radix_pos)
    · exact hpos
  have hle : lowMul ≤ radix := hsplit ▸ Nat.le_mul_of_pos_right _ hdiv
  induction words generalizing carry with
  | nil =>
    refine ⟨_, rfl, ?_, ?_⟩
    · by_cases h0 : carry = 0
      · rw [if_neg (not_not_intro h0)]
        exact ⟨nofun, .inl rfl⟩
      · rw [if_pos h0]
        refine ⟨by simpa using lt_of_lt_of_le hcarry hle, .inr ⟨rfl, ?_⟩⟩
        exact pos_of_ne_zero h0
    · split_ifs with h0
      · simp
      · simp [not_not.mp h0]
  | cons word words ih =>
    have hword := h word mem_cons_self
    have hradix := radix_lt
    -- the low part is moved up, and there is room for the carry
    have hlow : word % lowDiv * lowMul + lowMul ≤ radix := by
      rw [← succ_mul, ← hsplit, mul_comm lowMul]
      exact mul_le_mul_right _ (mod_lt _ hdiv)
    have hnext : word / lowDiv < lowMul := by
      rw [div_lt_iff_lt_mul hdiv, hsplit]
      exact hword
    obtain ⟨rest, hrest, hgrows, hval⟩ := ih _ hnext fun w hw => h w (mem_cons_of_mem _ hw)
    rw [shlLoop, bind_of_some (u64_of_lt (by omega)), bind_of_some (u64_of_lt (by omega)),
      bind_of_some hrest]
    refine ⟨_, rfl, hgrows.cons (by omega), ?_⟩
    have hmod := mod_add_div word lowDiv
    calc ofDigits radix ((word % lowDiv * lowMul + carry) :: rest)
        = word % lowDiv * lowMul + carry +
            radix * (ofDigits radix words * lowMul + word / lowDiv) := by
          rw [ofDigits_cons, hval]
      _ = (word % lowDiv + lowDiv * (word / lowDiv)) * lowMul +
            radix * ofDigits radix words * lowMul + carry := by
          rw [← hsplit]
          ring
      _ = ofDigits radix (word :: words) * lowMul + carry := by
          rw [hmod, ofDigits_cons]
          ring

variable {c : Coeff}

theorem Normal.shl (h : c.Normal) (n : Nat) : Yields (c.shl n) (c.val * 10 ^ n) := by
  rw [Coeff.shl]
  by_cases hzero : c.isZero = true
  · rw [hzero, Bool.true_or, if_pos rfl, h.isZero_iff.mp hzero, zero_mul]
    exact ⟨c, rfl, h, h.isZero_iff.mp hzero⟩
  have hval : c.val ≠ 0 := mt h.isZero_iff.mpr hzero
  have hne : c.words ≠ [] := mt isEmpty_iff.mpr hzero
  rw [eq_false_of_not_eq_true hzero, Bool.false_or]
  by_cases hn : n = 0
  · rw [if_pos (decide_eq_true hn), hn, pow_zero, mul_one]
    exact h.represents.yields
  rw [if_neg (by simpa using hn), wordDigits]
  dsimp only
  split_ifs with hshift
  · refine ⟨_, rfl, h.replicate_append one_lt_radix hne _, ?_⟩
    rw [val, ofDigits_replicate_append, pow_ten_eq, hshift, pow_zero, mul_one, mul_comm]
    rfl
  have hlt : n % 19 < 19 := mod_lt _ (by decide)
  obtain ⟨words, hwords, hgrows, hwval⟩ := shlLoop_spec (radix_split hlt.le) 0
    c.words (by positivity) h.lt
  rw [bind_of_some (powTen_of_lt (by omega)), bind_of_some (powTen_of_lt (by omega)),
    bind_of_some hwords]
  have hpos : 0 < 10 ^ (n % 19) := by positivity
  have hcanonical : Canonical radix words :=
    hgrows.canonical one_lt_radix h (hwval ▸ Nat.le_mul_of_pos_right _ hpos)
  have hwne : words ≠ [] := by
    rintro rfl
    exact hval ((Nat.mul_eq_zero.mp hwval.symm).resolve_right (by omega))
  refine ⟨_, rfl, hcanonical.replicate_append one_lt_radix hwne _, ?_⟩
  rw [val, ofDigits_replicate_append, hwval, pow_ten_eq n, val]
  ring

/-! ## Digits -/

theorem Normal.div_radix_pow (h : c.Normal) (k : Nat) :
    c.val / radix ^ k = ofDigits radix (c.words.drop k) :=
  ofDigits_div_pow_eq_ofDigits_drop k radix_pos c.words h.lt

theorem Normal.mod_radix_pow (h : c.Normal) (k : Nat) :
    c.val % radix ^ k = ofDigits radix (c.words.take k) :=
  ofDigits_mod_pow_eq_ofDigits_take k radix_pos c.words h.lt

theorem ofDigits_drop {words : List Nat} {k w : Nat} (h : words[k]? = some w) :
    ofDigits radix (words.drop k) = w + radix * ofDigits radix (words.drop (k + 1)) := by
  obtain ⟨hlt, rfl⟩ := List.getElem?_eq_some_iff.mp h
  rw [drop_eq_getElem_cons hlt, ofDigits_cons]

theorem Normal.digitAt (h : c.Normal) (pos : Nat) :
    c.digitAt pos = some (c.val / 10 ^ pos % 10) := by
  have hlt : pos % 19 < 19 := mod_lt _ (by decide)
  rw [Coeff.digitAt, wordDigits, pow_ten_eq, ← Nat.div_div_eq_div_mul, h.div_radix_pow]
  cases hword : c.words[pos / 19]? with
  | none =>
    rw [drop_eq_nil_of_le (List.getElem?_eq_none_iff.mp hword), Nat.ofDigits_nil, Nat.zero_div]
  | some w =>
    have hsplit : radix = 10 ^ (pos % 19) * 10 ^ (19 - pos % 19) := (radix_split hlt.le).symm
    have hten : 10 ∣ 10 ^ (19 - pos % 19) := dvd_pow_self 10 (by omega)
    dsimp only
    rw [digitOf, bind_of_some (powTen_of_lt (by omega)), ofDigits_drop hword, hsplit, Nat.mul_assoc,
      Nat.add_mul_div_left _ _ (by positivity), Nat.add_mod,
      Nat.mod_eq_zero_of_dvd (Dvd.dvd.mul_right hten _), Nat.add_zero, Nat.mod_mod]
    rfl

theorem Normal.lastDigit (h : c.Normal) : c.lastDigit = some (c.val % 10) := by
  have hdigit := h.digitAt 0
  rw [Nat.pow_zero, Nat.div_one] at hdigit
  rw [← hdigit, Coeff.lastDigit, Coeff.digitAt, List.head?_eq_getElem?]
  rfl

/-- The low digits are whole words and the low part of the next. -/
theorem Normal.mod_pow_ten (h : c.Normal) {n w : Nat} (hw : c.words[n / 19]? = some w) :
    c.val % 10 ^ n = ofDigits radix (c.words.take (n / 19) ++ [w % 10 ^ (n % 19)]) := by
  have hlt : n % 19 < 19 := mod_lt _ (by decide)
  have hlen := (List.getElem?_eq_some_iff.mp hw).1
  rw [pow_ten_eq, mod_mul, h.mod_radix_pow, h.div_radix_pow, ofDigits_drop hw,
    ofDigits_append, ofDigits_singleton, length_take, min_eq_left hlen.le,
    ← radix_split hlt.le, mul_assoc, add_mul_mod_self_left]

theorem Normal.mod_pow_ten_of_length_le (h : c.Normal) {n : Nat}
    (hlen : c.words.length ≤ n / 19) : c.val % 10 ^ n = c.val := by
  refine Nat.mod_eq_of_lt (Nat.lt_of_lt_of_le h.val_lt ?_)
  rw [pow_ten_eq]
  exact Nat.le_trans (Nat.pow_le_pow_right radix_pos hlen)
    (Nat.le_mul_of_pos_right _ (by positivity))

theorem Normal.lowDigits (h : c.Normal) (n : Nat) : Yields (c.lowDigits n) (c.val % 10 ^ n) := by
  rw [Coeff.lowDigits, wordDigits]
  split_ifs with hlen
  · rw [h.mod_pow_ten_of_length_le hlen]
    exact h.represents.yields
  have hlt : n / 19 < c.words.length := not_le.mp hlen
  have hword : c.words[n / 19]? = some c.words[n / 19] := List.getElem?_eq_getElem hlt
  rw [sliceTo, if_pos hlt.le, bind_of_some rfl, bind_of_some hword,
    bind_of_some (powTen_of_lt (by omega)), h.mod_pow_ten hword]
  refine ⟨_, rfl, fromWords_represents fun w hw => ?_⟩
  rcases mem_append.mp hw with hw | hw
  · exact h.lt w (mem_of_mem_take hw)
  · rw [mem_singleton.mp hw]
    exact lt_of_le_of_lt (mod_le ..) (h.lt _ (getElem_mem hlt))

theorem any_ne_zero_iff (words : List Nat) :
    words.any (· ≠ 0) = true ↔ ofDigits radix words ≠ 0 := by
  induction words with
  | nil => simp
  | cons w words ih =>
    have hradix := radix_pos
    have hzero : w + radix * ofDigits radix words = 0 ↔ w = 0 ∧ ofDigits radix words = 0 := by
      rw [Nat.add_eq_zero_iff, Nat.mul_eq_zero]
      omega
    rw [any_cons, or_eq_true, ih, ofDigits_cons, decide_eq_true_eq, ne_eq (_ + _), hzero]
    omega

theorem Normal.anyNonzeroBelow (h : c.Normal) (pos : Nat) :
    c.anyNonzeroBelow pos = some (decide (c.val % 10 ^ pos ≠ 0)) := by
  rw [Coeff.anyNonzeroBelow, wordDigits]
  rw [bind_of_some (powTen_of_lt (by omega)), sliceTo, if_pos (min_le_right ..), bind_of_some rfl]
  refine congrArg some (Bool.eq_iff_iff.mpr ?_)
  rw [or_eq_true, any_ne_zero_iff, decide_eq_true_eq]
  by_cases hlen : c.words.length ≤ pos / 19
  · rw [h.mod_pow_ten_of_length_le hlen, min_eq_right hlen, take_length,
      List.getElem?_eq_none (le_refl _)]
    exact or_iff_left nofun
  have hlt : pos / 19 < c.words.length := not_le.mp hlen
  have hword : c.words[pos / 19]? = some c.words[pos / 19] := List.getElem?_eq_getElem hlt
  have hpow : 0 < radix ^ (pos / 19) := Nat.pow_pos radix_pos
  rw [min_eq_left hlt.le, h.mod_pow_ten hword, hword, Option.any_some, decide_eq_true_eq,
    Nat.ofDigits_append, Nat.ofDigits_singleton, length_take, Nat.min_eq_left hlt.le,
    ne_eq (_ + _), Nat.add_eq_zero_iff, Nat.mul_eq_zero]
  omega

/-- How many digits there are. The count is computed in 64 bits. -/
theorem Normal.digits (h : c.Normal) (hmemory : c.words.length * 19 < 2 ^ 64) :
    c.digits = some (log 10 c.val + 1) := by
  rw [Coeff.digits]
  cases hlast : c.words.getLast? with
  | none =>
    rw [val, List.getLast?_eq_none_iff.mp hlast]
    simp
  | some top =>
    obtain ⟨low, hlow⟩ := List.getLast?_eq_some_iff.mp hlast
    have htop : top ≠ 0 := by
      rintro rfl
      exact h.top hlast
    have hlt : top < radix := h.lt top (mem_of_getLast? hlast)
    have hlog : log 10 top < 19 := log_lt_of_lt_pow htop (radix_eq ▸ hlt)
    have hlen : c.words.length = low.length + 1 := by rw [hlow, length_append]; rfl
    have hbound : ofDigits radix low < radix ^ low.length :=
      ofDigits_lt_base_pow_length one_lt_radix fun w hw =>
        h.lt w (hlow ▸ mem_append_left _ hw)
    have hval : c.val = ofDigits radix low + radix ^ low.length * top := by
      rw [val, hlow, ofDigits_append, ofDigits_singleton]
    have hdigits : log 10 c.val = 19 * low.length + log 10 top := by
      refine log_eq_of_pow_le_of_lt_pow ?_ ?_
      · rw [pow_add, ← radix_pow, hval]
        exact Nat.le_trans (Nat.mul_le_mul_left _ (Nat.pow_log_le_self 10 htop))
          (Nat.le_add_left ..)
      rw [add_assoc, pow_add, ← radix_pow, hval]
      have hpow : top < 10 ^ (log 10 top + 1) := lt_pow_succ_log_self (by decide) top
      have := mul_le_mul_left (radix ^ low.length) (succ_le_of_lt hpow)
      rw [mul_succ] at this
      omega
    dsimp only
    rw [wordDigits, digitsOfWord, bind_of_some (u64_of_lt hmemory),
      bind_of_some (minus_of_le (by omega)),
      bind_of_some (require_of htop), bind_of_some (u64_of_lt (by omega)),
      u64_of_lt (by omega), hdigits]
    refine congrArg some ?_
    omega

/-! ## To the right -/

theorem shrLoop_spec {highDiv highMul : Nat} (hsplit : highDiv * highMul = radix) (words : List Nat)
    (h : ∀ w ∈ words, w < radix) :
    ∃ out, shrLoop highDiv highMul words = some out ∧ (∀ w ∈ out, w < radix) ∧
      ofDigits radix out = ofDigits radix words / highDiv := by
  have hdiv : 0 < highDiv := by
    rcases Nat.eq_zero_or_pos highDiv with h0 | hpos
    · rw [h0, zero_mul] at hsplit
      exact absurd hsplit.symm (ne_of_gt radix_pos)
    · exact hpos
  induction words with
  | nil => exact ⟨[], rfl, nofun, by rw [Nat.ofDigits_nil, Nat.zero_div]⟩
  | cons word words ih =>
    have hradix := radix_lt
    have hhigh : word / highDiv < highMul := by
      rw [div_lt_iff_lt_mul hdiv, mul_comm, hsplit]
      exact h word mem_cons_self
    have hlow : words.headD 0 % highDiv * highMul + highMul ≤ radix := by
      rw [← succ_mul, ← hsplit]
      exact mul_le_mul_right _ (mod_lt _ hdiv)
    obtain ⟨rest, hrest, hlt, hval⟩ := ih fun w hw => h w (mem_cons_of_mem _ hw)
    rw [shrLoop, bind_of_some (u64_of_lt (by omega)), bind_of_some (u64_of_lt (by omega)),
      bind_of_some hrest]
    refine ⟨_, rfl, forall_mem_cons.mpr ⟨by omega, hlt⟩, ?_⟩
    -- the low digits of what follows are those of its first word
    have hmod : ofDigits radix words % highDiv = words.headD 0 % highDiv := by
      rw [ofDigits_head_tail radix words, ← hsplit, mul_assoc, add_mul_mod_self_left]
    rw [ofDigits_cons, hval, ofDigits_cons, ← hmod]
    generalize ofDigits radix words = value
    have hsum := mod_add_div value highDiv
    rw [← hsplit, mul_assoc, mul_assoc, add_mul_div_left _ _ hdiv, add_assoc]
    refine congrArg (word / highDiv + ·) ?_
    calc value % highDiv * highMul + highDiv * (highMul * (value / highDiv))
        = highMul * (value % highDiv + highDiv * (value / highDiv)) := by ring
      _ = highMul * value := by rw [hsum]

/-- What is dropped from a number when its last digits are. -/
def discardedOf (value n : Nat) : Discarded :=
  if n = 0 then .none
  else ⟨value / 10 ^ (n - 1) % 10, decide (value % 10 ^ (n - 1) ≠ 0)⟩

theorem Normal.shr (h : c.Normal) (hmemory : c.words.length * 19 < 2 ^ 64) (n : Nat) :
    ∃ d, c.shr n = some (d, discardedOf c.val n) ∧ d.Represents (c.val / 10 ^ n) := by
  rw [Coeff.shr, discardedOf]
  by_cases hn : n = 0
  · rw [hn, if_pos (by simp), Nat.pow_zero, Nat.div_one]
    exact ⟨c, rfl, h.represents⟩
  rw [if_neg hn]
  by_cases hzero : c.isZero = true
  · have hval := h.isZero_iff.mp hzero
    rw [hzero, Bool.true_or, if_pos rfl, hval, Nat.zero_div, Nat.zero_div]
    exact ⟨c, rfl, h, hval⟩
  rw [eq_false_of_not_eq_true hzero, Bool.false_or, if_neg (by simpa using hn),
    bind_of_some (h.digits hmemory), bind_of_some (h.digitAt _), bind_of_some (h.anyNonzeroBelow _),
    wordDigits]
  dsimp only
  split_ifs with hall hshift
  · refine ⟨zero, rfl, ?_⟩
    rw [div_eq_of_lt (lt_pow_of_log_lt (by decide) hall)]
    exact represents_zero
  all_goals
    -- the words that are kept start within the coefficient
    have hle : n / 19 ≤ c.words.length := by
      have hval : c.val ≠ 0 := mt h.isZero_iff.mpr hzero
      have hpow : 10 ^ n < 10 ^ (19 * c.words.length) :=
        lt_of_le_of_lt (pow_le_of_le_log hval (by omega)) (radix_pow _ ▸ h.val_lt)
      have := (Nat.pow_lt_pow_iff_right (by decide)).mp hpow
      omega
    have hwords : ∀ w ∈ c.words.drop (n / 19), w < radix := fun w hw => h.lt w (mem_of_mem_drop hw)
    rw [sliceFrom, if_pos hle, bind_of_some rfl, pow_ten_eq n, ← Nat.div_div_eq_div_mul,
      h.div_radix_pow]
  · rw [hshift, Nat.pow_zero, Nat.div_one]
    exact ⟨_, rfl, fromWords_represents hwords⟩
  have hlt : n % 19 < 19 := mod_lt _ (by decide)
  obtain ⟨out, hout, houtlt, houtval⟩ := shrLoop_spec (radix_split hlt.le) _ hwords
  rw [bind_of_some (powTen_of_lt (by omega)), bind_of_some (powTen_of_lt (by omega)),
    bind_of_some hout, ← houtval]
  exact ⟨_, rfl, fromWords_represents houtlt⟩

end Coeff

end Monty.Decimal
