import Monty.Decimal.Quotient
import Monty.Decimal.Shift

/-!
# Decimal numerals

Numerals are read in pieces of 19 digits from the end, and written word by word, each word below the
top padded to 19 digits. Powers of ten and repeated digits are made of whole words and one word at
the top.
-/

namespace Monty.Decimal

open Fallible Radix List Nat

namespace Coeff

/-! ## Powers of ten and repeated digits -/

theorem pow10_yields (n : Nat) : Yields (pow10 n) (10 ^ n) := by
  have hlt : n % 19 < 19 := mod_lt _ (by decide)
  have htop : 10 ^ (n % 19) < radix := by
    exact Nat.pow_lt_pow_right (by decide) hlt
  have hcanonical : Canonical radix [10 ^ (n % 19)] := by
    refine ⟨by simpa using htop, ?_⟩
    simp
  rw [pow10, wordDigits, bind_of_some (powTen_of_lt (by omega))]
  refine ⟨_, rfl, hcanonical.replicate_append one_lt_radix (by simp) _, ?_⟩
  rw [val, ofDigits_replicate_append, ofDigits_singleton, ← pow_ten_eq]

theorem nine_mul_repeat (digit count : Nat) :
    9 * ofDigits 10 (replicate count digit) + digit = digit * 10 ^ count := by
  induction count with
  | zero => simp
  | succ count ih =>
    rw [replicate_succ, ofDigits_cons, pow_succ, ← mul_assoc]
    omega

theorem repunit_eq {digit : Nat} (hdigit : digit ≤ 9) {len : Nat} (hlen : len ≤ 19) : (do
      let p ← powTen len
      let p ← minus p 1
      u64 (p / 9 * digit)) = some (ofDigits 10 (replicate len digit)) ∧
      Nat.ofDigits 10 (replicate len digit) < radix := by
  have hone := nine_mul_repeat 1 len
  have hrepeat := nine_mul_repeat digit len
  have hpow : 10 ^ len ≤ radix := radix_eq ▸ Nat.pow_le_pow_right (by decide) hlen
  have hquotient : (10 ^ len - 1) / 9 = ofDigits 10 (replicate len 1) := by omega
  have hmul : (10 ^ len - 1) / 9 * digit = ofDigits 10 (replicate len digit) := by
    have hnine : 9 * ((10 ^ len - 1) / 9 * digit) + digit = digit * 10 ^ len := by
      rw [hquotient, ← one_mul (10 ^ len), ← hone]
      ring
    omega
  have hlt : ofDigits 10 (replicate len digit) < radix := by
    have := mul_le_mul_right (10 ^ len) hdigit
    rcases Nat.eq_zero_or_pos digit with h0 | h0
    · rw [h0] at hrepeat ⊢
      omega
    · omega
  refine ⟨?_, hlt⟩
  rw [bind_of_some (powTen_of_lt (by omega)),
    bind_of_some (minus_of_le (Nat.pow_pos (by decide))), hmul,
    u64_of_lt (Nat.lt_trans hlt radix_lt)]

theorem ofDigits_replicate (digit full rest : Nat) :
    ofDigits radix (replicate full (ofDigits 10 (replicate 19 digit)) ++
        [ofDigits 10 (replicate rest digit)]) =
      ofDigits 10 (replicate (19 * full + rest) digit) := by
  induction full with
  | zero => rw [replicate_zero, nil_append, ofDigits_singleton, mul_zero, zero_add]
  | succ full ih =>
    have hsum : 19 * (full + 1) + rest = 19 + (19 * full + rest) := by omega
    have happend : replicate (19 + (19 * full + rest)) digit =
        replicate 19 digit ++ replicate (19 * full + rest) digit :=
      replicate_append_replicate.symm
    rw [replicate_succ, cons_append, ofDigits_cons, ih, hsum, happend,
      ofDigits_append, length_replicate, radix_eq]

theorem repeatDigit_yields {digit : Nat} (hpos : 1 ≤ digit) (hle : digit ≤ 9) (count : Nat) :
    Yields (repeatDigit digit count) (ofDigits 10 (replicate count digit)) := by
  have hlt : count % 19 < 19 := mod_lt _ (by decide)
  obtain ⟨hword, hwordlt⟩ := repunit_eq hle (le_refl 19)
  obtain ⟨htop, htoplt⟩ := repunit_eq hle hlt.le
  have hwords := ofDigits_replicate digit (count / 19) (count % 19)
  rw [div_add_mod] at hwords
  have hne : ∀ len, 0 < len → ofDigits 10 (replicate len digit) ≠ 0 := by
    intro len hlen hzero
    have hrepeat := nine_mul_repeat digit len
    have hpow : 10 ^ 1 ≤ 10 ^ len := Nat.pow_le_pow_right (by decide) hlen
    have := mul_le_mul_left digit hpow
    omega
  have hfull : ∀ w ∈ replicate (count / 19) (ofDigits 10 (replicate 19 digit)), w < radix := by
    intro w hw
    rw [eq_of_mem_replicate hw]
    exact hwordlt
  rw [repeatDigit, bind_of_some (require_of ⟨hpos, hle⟩), wordDigits]
  rw [bind_of_some hword]
  split_ifs with hpartial
  · rw [bind_of_some htop]
    refine ⟨_, rfl, ⟨?_, ?_⟩, hwords⟩
    · intro w hw
      rcases mem_append.mp hw with hw | hw
      · exact hfull w hw
      · rw [mem_singleton.mp hw]
        exact htoplt
    · rw [getLast?_concat]
      exact fun h => hne _ hpartial (Option.some.inj h)
  have hzero : count % 19 = 0 := by omega
  rw [hzero, replicate_zero, ofDigits_nil, ofDigits_append_zero] at hwords
  refine ⟨_, rfl, ⟨hfull, ?_⟩, hwords⟩
  intro h
  exact hne 19 (by decide) (eq_of_mem_replicate (mem_of_getLast? h)).symm

/-! ## Reading -/

theorem ofDigitChars_init (chars : List Char) (init : Nat) :
    ofDigitChars 10 chars init = init * 10 ^ chars.length + ofDigitChars 10 chars 0 := by
  induction chars generalizing init with
  | nil => simp [ofDigitChars]
  | cons c chars ih =>
    rw [ofDigitChars_cons, ofDigitChars_cons, ih, ih (10 * 0 + _), length_cons, pow_succ]
    ring

theorem isDigit_toNat {c : Char} (h : c.isDigit = true) : 48 ≤ c.toNat ∧ c.toNat ≤ 57 := by
  rw [Char.isDigit, Bool.and_eq_true, decide_eq_true_eq, decide_eq_true_eq] at h
  exact h

theorem ofDigitChars_lt (chars : List Char) (h : ∀ c ∈ chars, c.isDigit = true) :
    ofDigitChars 10 chars 0 < 10 ^ chars.length := by
  induction chars with
  | nil => simp [ofDigitChars]
  | cons c chars ih =>
    have hc := isDigit_toNat (h c mem_cons_self)
    have hrest := ih fun d hd => h d (mem_cons_of_mem _ hd)
    have hmul := mul_le_mul_right (10 ^ chars.length) (show c.toNat - 48 ≤ 9 by omega)
    rw [ofDigitChars_cons, ofDigitChars_init, length_cons, pow_succ]
    change (10 * 0 + (c.toNat - 48)) * _ + _ < _
    rw [mul_zero, zero_add]
    omega

theorem parseWord_eq (chunk : List Char) (h : ∀ c ∈ chunk, c.isDigit = true)
    (hlen : chunk.length ≤ 19) : parseWord chunk = some (ofDigitChars 10 chunk 0) := by
  -- what is read so far leaves room for the digits that are left
  have loop : ∀ (rest : List Char) (acc : Nat), (∀ c ∈ rest, c.isDigit = true) →
      acc * 10 ^ rest.length + 10 ^ rest.length ≤ radix →
      rest.foldlM (fun acc c => do
        let digit ← minus c.toNat 48
        let acc ← u64 (acc * 10)
        u64 (acc + digit)) acc = some (ofDigitChars 10 rest acc) := by
    intro rest
    induction rest with
    | nil => exact fun _ _ _ => rfl
    | cons c rest ih =>
      intro acc hdigits hroom
      have hc := isDigit_toNat (hdigits c mem_cons_self)
      have hradix := radix_lt
      have hpow : 0 < 10 ^ rest.length := by positivity
      have hnext : (acc * 10 + (c.toNat - 48)) * 10 ^ rest.length + 10 ^ rest.length ≤ radix := by
        have hmul := mul_le_mul_right (10 ^ rest.length) (show c.toNat - 48 + 1 ≤ 10 by omega)
        calc (acc * 10 + (c.toNat - 48)) * 10 ^ rest.length + 10 ^ rest.length
            = acc * 10 * 10 ^ rest.length + (c.toNat - 48 + 1) * 10 ^ rest.length := by ring
          _ ≤ acc * 10 * 10 ^ rest.length + 10 * 10 ^ rest.length := Nat.add_le_add_left hmul _
          _ = acc * 10 ^ (c :: rest).length + 10 ^ (c :: rest).length := by
            rw [length_cons, pow_succ]
            ring
          _ ≤ radix := hroom
      have hacc : acc * 10 + (c.toNat - 48) ≤ radix :=
        Nat.le_trans (Nat.le_mul_of_pos_right _ hpow) (Nat.le_trans (Nat.le_add_right ..) hnext)
      rw [foldlM_cons, bind_of_some (show _ = some (acc * 10 + (c.toNat - 48)) by
          rw [bind_of_some (minus_of_le hc.1), bind_of_some (u64_of_lt (by omega)),
            u64_of_lt (by omega)]),
        ih _ (fun d hd => hdigits d (mem_cons_of_mem _ hd)) hnext, ofDigitChars_cons,
        mul_comm 10]
      rfl
  refine loop chunk 0 h ?_
  rw [zero_mul, zero_add, radix_eq]
  exact Nat.pow_le_pow_right (by decide) hlen

theorem mapM_parseWord (k : Nat) (chars : List Char) (hk : chars.length ≤ k)
    (h : ∀ c ∈ chars, c.isDigit = true) :
    ∃ words, ((chunks 19 chars).map reverse).mapM parseWord = some words ∧
      (∀ w ∈ words, w < radix) ∧
      ofDigits radix words = ofDigitChars 10 chars.reverse 0 := by
  induction k generalizing chars with
  | zero =>
    obtain rfl := length_eq_zero_iff.mp (le_zero.mp hk)
    exact ⟨[], rfl, nofun, rfl⟩
  | succ k ih =>
    by_cases hnil : chars = []
    · subst hnil
      exact ⟨[], rfl, nofun, rfl⟩
    have htake : ∀ c ∈ (chars.take 19).reverse, c.isDigit = true := fun c hc =>
      h c (mem_of_mem_take (mem_reverse.mp hc))
    have hlen : (chars.take 19).reverse.length ≤ 19 := by
      rw [length_reverse, length_take]
      omega
    obtain ⟨words, hwords, hlt, hval⟩ := ih (chars.drop 19)
      (by rw [length_drop]; have := length_pos_iff.mpr hnil; omega)
      fun c hc => h c (mem_of_mem_drop hc)
    rw [chunks_of_ne_nil (by decide) hnil, map_cons, mapM_cons,
      bind_of_some (parseWord_eq _ htake hlen), bind_of_some hwords]
    refine ⟨_, rfl, forall_mem_cons.mpr ⟨?_, hlt⟩, ?_⟩
    · exact Nat.lt_of_lt_of_le (ofDigitChars_lt _ htake) (Nat.pow_le_pow_right (by decide) hlen)
    have hsplit : chars.reverse = (chars.drop 19).reverse ++ (chars.take 19).reverse := by
      rw [← reverse_append, take_append_drop]
    rw [ofDigits_cons, hval, hsplit, ofDigitChars_append, ofDigitChars_init _ (ofDigitChars _ _ _)]
    by_cases hfull : 19 ≤ chars.length
    · rw [length_reverse, length_take, min_eq_left hfull, radix_eq]
      ring
    · rw [drop_eq_nil_of_le (by omega), reverse_nil]
      simp [ofDigitChars]

theorem fromDigits_yields {chars : List Char} (h : ∀ c ∈ chars, c.isDigit = true) :
    Yields (fromDigits chars) (ofDigitChars 10 chars 0) := by
  obtain ⟨words, hwords, hlt, hval⟩ := mapM_parseWord _ chars.reverse (le_refl _)
    fun c hc => h c (mem_reverse.mp hc)
  rw [reverse_reverse] at hval
  rw [fromDigits, bind_of_some (require_of (all_eq_true.mpr h)), bind_of_some hwords, ← hval]
  exact (fromWords_represents hlt).yields

/-! ## Writing -/

/-- The digits of a number, with zeros in front up to the given length. -/
def padded (k w : Nat) : List Char := replicate (k - (toDigits 10 w).length) '0' ++ toDigits 10 w

theorem padded_succ {k : Nat} (hk : 0 < k) (w : Nat) :
    padded (k + 1) w = padded k (w / 10) ++ toDigits 10 (w % 10) := by
  have hmod : w % 10 < 10 := mod_lt _ (by decide)
  rw [padded, padded, toDigits_of_lt_base hmod]
  rcases lt_or_ge w 10 with hw | hw
  · have hzeros : replicate k '0' = replicate (k - 1) '0' ++ ['0'] := by
      rw [← replicate_succ', Nat.sub_add_cancel hk]
    rw [div_eq_of_lt hw, mod_eq_of_lt hw, toDigits_of_lt_base hw,
      toDigits_of_lt_base (by decide : 0 < 10), length_singleton, length_singleton,
      Nat.add_sub_cancel, hzeros]
    rfl
  · have hdigits : toDigits 10 w = toDigits 10 (w / 10) ++ [(w % 10).digitChar] := by
      rw [← toDigits_of_lt_base hmod, toDigits_append_toDigits (by decide) (by omega) hmod,
        div_add_mod]
    rw [hdigits, length_append, length_singleton, Nat.add_sub_add_right, append_assoc]

theorem toDigits_append_padded {k hi : Nat} (hk : 0 < k) (hhi : 0 < hi) {w : Nat}
    (hw : w < 10 ^ k) : toDigits 10 (w + 10 ^ k * hi) = toDigits 10 hi ++ padded k w := by
  induction k, hk using le_induction generalizing w with
  | base =>
    rw [pow_one] at hw ⊢
    rw [padded, Nat.toDigits_of_lt_base hw, length_singleton, Nat.sub_self, replicate_zero,
      nil_append, ← toDigits_of_lt_base hw, toDigits_append_toDigits (by decide) hhi hw,
      add_comm]
  | succ k hk ih =>
    have hmod : w % 10 < 10 := mod_lt _ (by decide)
    have hdiv : w / 10 < 10 ^ k := by
      rw [div_lt_iff_lt_mul (by decide), ← pow_succ]
      exact hw
    have hpos : 0 < w / 10 + 10 ^ k * hi := Nat.add_pos_right _ (Nat.mul_pos (by positivity) hhi)
    have hsum : w + 10 ^ (k + 1) * hi = 10 * (w / 10 + 10 ^ k * hi) + w % 10 := by
      rw [pow_succ, mul_add, mul_comm (10 ^ k) 10, mul_assoc]
      omega
    rw [hsum, ← toDigits_append_toDigits (by decide) hpos hmod, ih hdiv, padded_succ hk,
      append_assoc]

variable {c : Coeff}

theorem Normal.writeDigits (h : c.Normal) (out : List Char) :
    c.writeDigits out = some (out ++ toDigits 10 c.val) := by
  rw [Coeff.writeDigits]
  -- the words below the top, one after another
  have loop : ∀ (words : List Nat) (top : Nat), 0 < top → (∀ w ∈ words, w < radix) →
      words.reverse.foldlM (fun out word => do
        let digits := toDigits 10 word
        let pad ← minus 19 digits.length
        pure (out ++ replicate pad '0' ++ digits)) (out ++ toDigits 10 top) =
        some (out ++ toDigits 10 (ofDigits radix words + radix ^ words.length * top)) := by
    intro words
    induction words using reverseRecOn with
    | nil =>
      intro top _ _
      simp
    | append_singleton words w ih =>
      intro top htop hwords
      have hw : w < 10 ^ 19 := radix_eq ▸ hwords w (by simp)
      have hlen : (toDigits 10 w).length ≤ 19 :=
        (length_toDigits_le_iff (by decide) (by decide)).mpr hw
      have hnext : out ++ toDigits 10 top ++ replicate (19 - (toDigits 10 w).length) '0' ++
          toDigits 10 w = out ++ toDigits 10 (w + radix * top) := by
        rw [radix_eq, toDigits_append_padded (by decide) htop hw, padded]
        simp only [append_assoc]
      have hpos : 0 < w + radix * top := Nat.add_pos_right _ (Nat.mul_pos radix_pos htop)
      rw [reverse_append, reverse_singleton, singleton_append, foldlM_cons,
        bind_of_some (show _ = some (out ++ toDigits 10 (w + radix * top)) by
          rw [bind_of_some (minus_of_le hlen), hnext]
          rfl),
        ih _ hpos fun v hv => hwords v (mem_append_left _ hv), ofDigits_append,
        ofDigits_singleton, length_append, length_singleton, pow_succ, mul_add,
        add_assoc, mul_assoc]
  cases hwords : c.words.reverse with
  | nil =>
    rw [val, reverse_eq_nil_iff.mp hwords, ofDigits_nil, toDigits_of_lt_base (by decide)]
    rfl
  | cons top words =>
    have hc : c.words = words.reverse ++ [top] := by
      rw [← reverse_cons, ← hwords, reverse_reverse]
    have htop : top ≠ 0 := by
      rintro rfl
      exact h.top (by rw [hc, getLast?_concat])
    have hrest := loop words.reverse top (pos_of_ne_zero htop) fun w hw =>
      h.lt w (hc ▸ mem_append_left _ hw)
    rw [reverse_reverse] at hrest
    rw [val, hc, ofDigits_append, ofDigits_singleton]
    exact hrest

/-! ## Trailing zeros -/

/-- The number of zeros at the end of a number. -/
def ZerosAt (n k : Nat) : Prop := 10 ^ k ∣ n ∧ ¬ 10 ^ (k + 1) ∣ n

theorem zerosAt_mul {n k j : Nat} (h : ZerosAt n k) : ZerosAt (10 ^ j * n) (j + k) := by
  have hpos : 0 < 10 ^ j := by positivity
  refine ⟨?_, ?_⟩
  · rw [pow_add]
    exact mul_dvd_mul_left _ h.1
  · rw [Nat.add_assoc, Nat.pow_add, Nat.mul_dvd_mul_iff_left hpos]
    exact h.2

theorem wordTrailingZeros_spec (fuel : Nat) {word zeros : Nat} (hpos : 0 < word)
    (hword : word < 10 ^ fuel) (hroom : zeros + fuel < 2 ^ 64) :
    ∃ k, wordTrailingZeros fuel word zeros = some (zeros + k) ∧ ZerosAt word k ∧ k < fuel := by
  induction fuel generalizing word zeros with
  | zero =>
    omega
  | succ fuel ih =>
    rw [wordTrailingZeros]
    split_ifs with hmod
    · have hdvd : 10 * (word / 10) = word := by omega
      obtain ⟨k, hk, hzeros, hlt⟩ := ih (show 0 < word / 10 by omega) (show word / 10 < 10 ^ fuel by
          rw [div_lt_iff_lt_mul (by decide), ← pow_succ]
          exact hword)
        (show zeros + 1 + fuel < 2 ^ 64 by omega)
      refine ⟨1 + k, ?_, ?_, by omega⟩
      · rw [bind_of_some (u64_of_lt (by omega)), hk, add_assoc]
      · have := zerosAt_mul (j := 1) hzeros
        rwa [pow_one, hdvd] at this
    · refine ⟨0, rfl, ⟨?_, ?_⟩, succ_pos _⟩
      · exact one_dvd _
      · rw [zero_add, pow_one, dvd_iff_mod_eq_zero]
        exact hmod

theorem trailingZerosLoop_spec (zeros : Nat) (words : List Nat) (h : ∀ w ∈ words, w < radix)
    (hne : ofDigits radix words ≠ 0) (hroom : zeros + words.length * 19 < 2 ^ 64) :
    ∃ k, trailingZerosLoop zeros words = some (zeros + k) ∧ ZerosAt (ofDigits radix words) k := by
  induction words generalizing zeros with
  | nil => exact absurd ofDigits_nil hne
  | cons word words ih =>
    rw [length_cons] at hroom
    rw [ofDigits_cons] at hne ⊢
    rw [trailingZerosLoop]
    split_ifs with hword
    · have hlt := h word mem_cons_self
      obtain ⟨k, hk, hzeros, hk19⟩ : ∃ k, wordTrailingZeros 20 word 0 = some (0 + k) ∧
          ZerosAt word k ∧ k < 19 := by
        obtain ⟨k, hk, hzeros, -⟩ := wordTrailingZeros_spec 20 (pos_of_ne_zero hword)
          (Nat.lt_of_lt_of_le (radix_eq ▸ hlt) (Nat.pow_le_pow_right (by decide) (by decide)))
          (show 0 + 20 < 2 ^ 64 by decide)
        refine ⟨k, hk, hzeros, ?_⟩
        have hle := le_of_dvd (pos_of_ne_zero hword) hzeros.1
        exact (Nat.pow_lt_pow_iff_right (by decide)).mp (Nat.lt_of_le_of_lt hle (radix_eq ▸ hlt))
      rw [zero_add] at hk
      refine ⟨k, ?_, ?_⟩
      · rw [bind_of_some hk, u64_of_lt (by omega)]
      -- the words above are a multiple of the base
      have hbase : ∀ j ≤ 19, 10 ^ j ∣ radix * ofDigits radix words := fun j hj =>
        Dvd.dvd.mul_right (radix_eq ▸ pow_dvd_pow 10 hj) _
      exact ⟨(Nat.dvd_add_iff_left (hbase k (by omega))).mp hzeros.1,
        fun hdvd => hzeros.2 ((Nat.dvd_add_iff_left (hbase (k + 1) (by omega))).mpr hdvd)⟩
    · have hzero : word = 0 := not_not.mp hword
      rw [hzero, zero_add] at hne ⊢
      obtain ⟨k, hk, hzeros⟩ := ih (zeros + 19) (fun w hw => h w (mem_cons_of_mem _ hw))
        (Nat.ne_zero_of_mul_ne_zero_right hne) (by omega)
      refine ⟨19 + k, ?_, ?_⟩
      · rw [wordDigits, bind_of_some (u64_of_lt (by omega)), hk, add_assoc]
      · exact zerosAt_mul hzeros

theorem Normal.trailingZeros (h : c.Normal) (hmemory : c.words.length * 19 < 2 ^ 64)
    (hne : c.val ≠ 0) : ∃ k, c.trailingZeros = some k ∧ ZerosAt c.val k := by
  obtain ⟨k, hk, hzeros⟩ := trailingZerosLoop_spec 0 c.words h.lt hne (by rwa [zero_add])
  exact ⟨k, by rw [Coeff.trailingZeros, hk, zero_add], hzeros⟩

theorem Normal.isPowerOfTen (h : c.Normal) (hmemory : c.words.length * 19 < 2 ^ 64) :
    ∃ b, c.isPowerOfTen = some b ∧ (b = true ↔ ∃ k, c.val = 10 ^ k) := by
  rw [Coeff.isPowerOfTen]
  split_ifs with hzero
  · refine ⟨false, rfl, iff_of_false nofun ?_⟩
    rintro ⟨k, hk⟩
    rw [h.isZero_iff.mp hzero] at hk
    exact absurd hk.symm (by positivity)
  have hne : c.val ≠ 0 := mt h.isZero_iff.mpr hzero
  obtain ⟨zeros, hzeros, hat⟩ := h.trailingZeros hmemory hne
  rw [bind_of_some hzeros, bind_of_some (h.digits hmemory),
    bind_of_some (minus_of_le (Nat.le_add_left 1 _)), Nat.add_sub_cancel]
  have hhigh : c.val < 10 ^ (log 10 c.val + 1) := lt_pow_succ_log_self (by decide) c.val
  split_ifs with heq
  · rw [bind_of_some (h.digitAt _)]
    refine ⟨_, rfl, ?_⟩
    -- the number is one digit followed by zeros
    obtain ⟨m, hm⟩ := hat.1
    have hpos : 0 < 10 ^ zeros := by positivity
    have hm10 : m < 10 := by
      rw [← heq, pow_succ, hm] at hhigh
      exact Nat.lt_of_mul_lt_mul_left hhigh
    rw [← heq, hm, Nat.mul_div_cancel_left _ hpos, Nat.mod_eq_of_lt hm10, beq_iff_eq]
    constructor
    · rintro rfl
      exact ⟨zeros, mul_one _⟩
    rintro ⟨k, hk⟩
    have hkz : k = zeros := by
      rw [heq, hm, hk, log_pow (by decide)]
    rw [hkz] at hk
    exact Nat.eq_of_mul_eq_mul_left hpos (hk.trans (Nat.mul_one _).symm)
  · refine ⟨false, rfl, iff_of_false nofun ?_⟩
    rintro ⟨k, hk⟩
    rw [hk, log_pow (by decide)] at heq
    have hle : zeros ≤ k := (pow_dvd_pow_iff_le_right (by decide)).mp (hk ▸ hat.1)
    exact hat.2 (hk ▸ pow_dvd_pow 10 (by omega))

end Coeff

end Monty.Decimal
