import Monty.Decimal.Product

/-!
# Machine integers, big integers and quotients

A coefficient is converted to machine integers by Horner's rule with checks, to big integers by
Horner's rule on limbs of 64 bits, and back by repeated division by the base. A quotient is taken
with 128 bits if both numbers fit, word by word if the divisor is one word, and of big integers
otherwise.
-/

namespace Monty.Decimal

open Fallible Radix List Nat

namespace Coeff

/-! ## Machine integers -/

theorem fromU128_yields {value : Nat} (h : value < 2 ^ 128) : Yields (fromU128 value) value := by
  rw [fromU128]
  split_ifs with hlow hhigh
  · have hlt : value < 2 ^ 64 := by omega
    rw [bind_of_some (u64_of_lt hlt)]
    exact (fromU64_represents hlt).yields
  · have hlt : value < radix * 2 ^ 64 := by
      rw [radix_literal] at hhigh ⊢
      omega
    have hquotient : value / radix < 2 ^ 64 := by rwa [div_lt_iff_lt_mul radix_pos, mul_comm]
    have hrep := fromU64_represents hquotient
    have hne : (fromU64 (value / radix)).words ≠ [] := by
      intro hnil
      have hzero : (fromU64 (value / radix)).val = 0 := by rw [val, hnil, ofDigits_nil]
      rw [hrep.val_eq, radix_literal] at hzero
      omega
    rw [bind_of_some (divRadix_eq hlt)]
    refine ⟨_, rfl, ⟨?_, ?_⟩, ?_⟩
    · exact forall_mem_cons.mpr ⟨mod_lt _ radix_pos, hrep.normal.lt⟩
    · rw [List.getLast?_cons_of_ne_nil hne]
      exact hrep.normal.top
    · rw [val, ofDigits_cons]
      change _ + radix * (fromU64 (value / radix)).val = _
      rw [hrep.val_eq, mod_add_div]
  · have hmod : ∀ n : Nat, n % radix < 2 ^ 64 := fun n =>
      lt_trans (mod_lt _ radix_pos) radix_lt
    rw [bind_of_some (u64_of_lt (hmod _)), bind_of_some (u64_of_lt (hmod _)),
      bind_of_some (u64_of_lt (hmod _))]
    have hwords : ∀ w ∈ [value % radix, value / radix % radix, value / radix / radix % radix],
        w < radix := by
      simp [mod_lt _ radix_pos]
    have hval : value =
        ofDigits radix [value % radix, value / radix % radix, value / radix / radix % radix] := by
      have htop : value / radix / radix % radix = value / radix / radix := by
        rw [radix_literal]
        omega
      rw [htop, ofDigits_cons, ofDigits_cons, ofDigits_singleton, mod_add_div, mod_add_div]
    conv => arg 2; rw [hval]
    exact (fromWords_represents hwords).yields

/-- Horner's rule with checks, from the top. `acc` is what the words above have made. -/
theorem foldlM_horner (limit : Nat → Option Nat) {bound : Nat}
    (hlimit : ∀ n, limit n = if n < bound then some n else none) (words : List Nat) (acc : Nat) :
    words.reverse.foldlM (fun acc word => do limit ((← limit (acc * radix)) + word)) acc =
      if words ≠ [] → acc * radix ^ words.length + ofDigits radix words < bound then
        some (acc * radix ^ words.length + ofDigits radix words)
      else none := by
  induction words using List.reverseRecOn generalizing acc with
  | nil => simp
  | append_singleton words w ih =>
    have hnext : acc * radix ^ (words ++ [w]).length + ofDigits radix (words ++ [w]) =
        (acc * radix + w) * radix ^ words.length + ofDigits radix words := by
      rw [length_append, length_singleton, pow_succ, ofDigits_append, ofDigits_singleton]
      ring
    have hne : words ++ [w] ≠ [] := by simp
    have hle : acc * radix + w ≤ (acc * radix + w) * radix ^ words.length + ofDigits radix words :=
      Nat.le_add_right_of_le (Nat.le_mul_of_pos_right _ (Nat.pow_pos radix_pos))
    have hstep : (do limit ((← limit (acc * radix)) + w)) = limit (acc * radix + w) := by
      rw [hlimit (acc * radix)]
      split_ifs with hmul
      · rfl
      · rw [hlimit, if_neg (by omega)]
        rfl
    rw [reverse_append, reverse_singleton, singleton_append, foldlM_cons, hnext, hstep]
    by_cases hsum : acc * radix + w < bound
    · rw [bind_of_some (by rw [hlimit, if_pos hsum]), ih]
      by_cases hnil : words = []
      · subst hnil
        simp [hsum]
      · simp [hnil]
    have hbig : ¬ (words ++ [w] ≠ [] →
        (acc * radix + w) * radix ^ words.length + ofDigits radix words < bound) := by
      intro hlt
      have := hlt hne
      omega
    rw [if_neg hbig, hlimit, if_neg hsum]
    rfl

variable {c : Coeff}

theorem Normal.toU128_eq (h : c.Normal) :
    c.toU128 = if c.val < 2 ^ 128 then some c.val else none := by
  rw [toU128]
  split_ifs with hlen hval hval
  · -- four words are more than 128 bits
    have hpow := h.pow_le one_lt_radix (ne_nil_of_length_pos (by omega))
    have hmono : radix ^ 3 ≤ radix ^ (c.words.length - 1) :=
      Nat.pow_le_pow_right radix_pos (by omega)
    have hbig : 2 ^ 128 ≤ radix ^ 3 := by decide
    change radix ^ (c.words.length - 1) ≤ c.val at hpow
    omega
  · rfl
  all_goals
    rw [foldlM_horner u128 (fun _ => rfl), zero_mul, zero_add]
  · exact if_pos fun _ => hval
  · refine if_neg fun hlt => hval (hlt ?_)
    intro hnil
    rw [val, hnil, ofDigits_nil] at hval
    exact hval (by decide)

theorem Normal.toU64_eq (h : c.Normal) : c.toU64 = if c.val < 2 ^ 64 then some c.val else none := by
  have hradix := radix_lt
  rw [toU64, val]
  split
  · rename_i hwords
    rw [hwords]
    rfl
  · rename_i word hwords
    have hlt : word < radix := h.lt word (by rw [hwords]; exact mem_cons_self)
    rw [hwords, ofDigits_singleton, if_pos (by omega)]
  · rename_i low high hwords
    rw [hwords, ofDigits_cons, ofDigits_singleton, mul_comm radix, add_comm low]
    by_cases hmul : high * radix < 2 ^ 64
    · rw [bind_of_some (u64_of_lt hmul)]
      rfl
    · have hnone : u64 (high * radix) = none := if_neg hmul
      rw [hnone, if_neg (by omega)]
      rfl
  rename_i h₀ h1 h2
  have hlen : 2 < c.words.length := by
    rcases hwords : c.words with _ | ⟨v, _ | ⟨w, _ | _⟩⟩
    · exact absurd hwords h₀
    · exact absurd hwords (h1 v)
    · exact absurd hwords (h2 v w)
    · simp
  have hpow := h.pow_le one_lt_radix (ne_nil_of_length_pos (by omega))
  have hmono : radix ^ 2 ≤ radix ^ (c.words.length - 1) := Nat.pow_le_pow_right radix_pos (by omega)
  have hbig : 2 ^ 64 ≤ radix ^ 2 := by decide
  rw [if_neg (by omega)]

/-! ## Big integers -/

theorem hornerStep_spec (carry : Nat) (limbs : List Nat) (hcarry : carry < radix)
    (h : ∀ l ∈ limbs, l < 2 ^ 64) :
    ∃ out, hornerStep carry limbs = some out ∧ (∀ l ∈ out, l < 2 ^ 64) ∧
      ofDigits (2 ^ 64) out = ofDigits (2 ^ 64) limbs * radix + carry := by
  have hradix := radix_lt
  induction limbs generalizing carry with
  | nil =>
    refine ⟨_, rfl, ?_, ?_⟩
    · split_ifs
      · simpa using lt_trans hcarry hradix
      · exact nofun
    · split_ifs with h0
      · simp
      · simp [not_not.mp h0]
  | cons limb limbs ih =>
    have hlimb := h limb mem_cons_self
    have hmul : limb * radix ≤ (2 ^ 64 - 1) * radix := mul_le_mul_right _ (by omega)
    have hbound : limb * radix + carry < 2 ^ 64 * radix := by
      omega
    have ht : limb * radix + carry < 2 ^ 128 := lt_trans hbound (by decide)
    have hhigh : (limb * radix + carry) / 2 ^ 64 < radix := by
      rwa [div_lt_iff_lt_mul (by decide), mul_comm radix]
    obtain ⟨out, hout, hlt, hval⟩ := ih _ hhigh fun l hl => h l (mem_cons_of_mem _ hl)
    rw [hornerStep, bind_of_some (u128_of_lt (Nat.lt_of_le_of_lt (Nat.le_add_right ..) ht)),
      bind_of_some (u128_of_lt ht), bind_of_some (highHalf_of_lt ht), bind_of_some hout]
    refine ⟨_, rfl, forall_mem_cons.mpr ⟨mod_lt _ (by decide), hlt⟩, ?_⟩
    rw [ofDigits_cons, ofDigits_cons, hval, lowHalf, mul_add, add_mul, mul_assoc]
    omega

theorem ofDigits_halves (limbs : List Nat) (h : ∀ l ∈ limbs, l < 2 ^ 64) :
    ofDigits (2 ^ 32) (limbs.flatMap fun limb => [limb % 2 ^ 32, limb / 2 ^ 32 % 2 ^ 32]) =
      ofDigits (2 ^ 64) limbs := by
  induction limbs with
  | nil => rfl
  | cons limb limbs ih =>
    have hlimb := h limb mem_cons_self
    rw [flatMap_cons, ofDigits_append, ih fun l hl => h l (mem_cons_of_mem _ hl),
      ofDigits_cons, ofDigits_singleton]
    have hsum : limb % 2 ^ 32 + 2 ^ 32 * (limb / 2 ^ 32 % 2 ^ 32) = limb := by omega
    rw [hsum, ofDigits_cons, length_cons, length_singleton, ← pow_mul]

theorem Normal.toBiguint (h : c.Normal) : c.toBiguint = some c.val := by
  have loop : ∀ words : List Nat, (∀ w ∈ words, w < radix) →
      ∃ limbs, words.reverse.foldlM (fun limbs word => hornerStep word limbs) [] = some limbs ∧
        (∀ l ∈ limbs, l < 2 ^ 64) ∧ ofDigits (2 ^ 64) limbs = ofDigits radix words := by
    intro words hwords
    induction words with
    | nil => exact ⟨[], rfl, nofun, rfl⟩
    | cons w words ih =>
      obtain ⟨limbs, hlimbs, hlt, hval⟩ := ih fun v hv => hwords v (mem_cons_of_mem _ hv)
      obtain ⟨out, hout, houtlt, houtval⟩ := hornerStep_spec w limbs (hwords w mem_cons_self) hlt
      refine ⟨out, ?_, houtlt, ?_⟩
      · rw [reverse_cons, foldlM_append, bind_of_some hlimbs, foldlM_cons,
          bind_of_some hout, foldlM_nil]
        rfl
      · rw [houtval, hval, ofDigits_cons, mul_comm radix, add_comm]
  obtain ⟨limbs, hlimbs, hlt, hval⟩ := loop c.words h.lt
  rw [Coeff.toBiguint, bind_of_some hlimbs, ofDigits_halves limbs hlt, hval]
  rfl

theorem divLimbs_spec (limbs : List Nat) (h : ∀ l ∈ limbs, l < 2 ^ 64) :
    ∃ quotients, divLimbs limbs = some (quotients, ofDigits (2 ^ 64) limbs % radix) ∧
      (∀ l ∈ quotients, l < 2 ^ 64) ∧
      ofDigits (2 ^ 64) quotients = ofDigits (2 ^ 64) limbs / radix := by
  induction limbs with
  | nil => exact ⟨[], rfl, nofun, rfl⟩
  | cons limb limbs ih =>
    have hlimb := h limb mem_cons_self
    obtain ⟨quotients, hquotients, hlt, hval⟩ := ih fun l hl => h l (mem_cons_of_mem _ hl)
    rw [divLimbs, bind_of_some hquotients, ofDigits_cons]
    dsimp only
    generalize ofDigits (2 ^ 64) limbs = value at hval
    have hrem : value % radix < radix := mod_lt _ radix_pos
    have hbound : value % radix * 2 ^ 64 + limb < radix * 2 ^ 64 := by
      omega
    -- the value is the quotient of the limbs above times the base, and the rest
    have hsplit : limb + 2 ^ 64 * value =
        value % radix * 2 ^ 64 + limb + radix * (2 ^ 64 * (value / radix)) := by
      have hsum := mod_add_div value radix
      calc limb + 2 ^ 64 * value
          = limb + 2 ^ 64 * (value % radix + radix * (value / radix)) := by rw [hsum]
        _ = value % radix * 2 ^ 64 + limb + radix * (2 ^ 64 * (value / radix)) := by ring
    rw [bind_of_some (divRadix_eq hbound), hsplit, add_mul_mod_self_left,
      add_mul_div_left _ _ radix_pos]
    refine ⟨_, rfl, forall_mem_cons.mpr ⟨?_, hlt⟩, ?_⟩
    · rwa [div_lt_iff_lt_mul radix_pos, mul_comm (2 ^ 64) radix]
    · rw [ofDigits_cons, hval]

theorem fromLimbs_spec (fuel : Nat) {limbs : List Nat} (h : Canonical (2 ^ 64) limbs)
    (hfuel : ofDigits (2 ^ 64) limbs < 2 ^ (63 * fuel)) :
    ∃ words, fromLimbs fuel limbs = some words ∧ (∀ w ∈ words, w < radix) ∧
      ofDigits radix words = ofDigits (2 ^ 64) limbs := by
  induction fuel generalizing limbs with
  | zero =>
    have hzero : ofDigits (2 ^ 64) limbs = 0 := by
      omega
    rw [(h.ofDigits_eq_zero (by decide)).mp hzero]
    exact ⟨[], rfl, nofun, rfl⟩
  | succ fuel ih =>
    cases limbs with
    | nil => exact ⟨[], rfl, nofun, rfl⟩
    | cons limb limbs =>
      obtain ⟨quotients, hquotients, hlt, hval⟩ := divLimbs_spec _ h.lt
      have hless : ofDigits (2 ^ 64) (trim quotients) < 2 ^ (63 * fuel) := by
        have hradix : 2 ^ 63 ≤ radix := by decide
        rw [ofDigits_trim, hval, div_lt_iff_lt_mul radix_pos]
        calc ofDigits (2 ^ 64) (limb :: limbs) < 2 ^ (63 * (fuel + 1)) := hfuel
          _ = 2 ^ (63 * fuel) * 2 ^ 63 := by rw [mul_succ, pow_add]
          _ ≤ 2 ^ (63 * fuel) * radix := mul_le_mul_left _ hradix
      obtain ⟨words, hwords, hwlt, hwval⟩ := ih (canonical_trim hlt) hless
      rw [fromLimbs, bind_of_some hquotients]
      dsimp only
      rw [bind_of_some hwords]
      refine ⟨_, rfl, forall_mem_cons.mpr ⟨mod_lt _ radix_pos, hwlt⟩, ?_⟩
      rw [ofDigits_cons, hwval, ofDigits_trim, hval, mod_add_div]

theorem fromBiguint_yields (value : Nat) : Yields (fromBiguint value) value := by
  rw [fromBiguint]
  split_ifs with hsmall
  · exact fromU128_yields hsmall
  have hcanonical : Canonical (2 ^ 64) ((2 ^ 64).digits value) := canonical_digits (by decide) value
  have hvalue : ofDigits (2 ^ 64) ((2 ^ 64).digits value) = value := ofDigits_digits ..
  have hfuel : ofDigits (2 ^ 64) ((2 ^ 64).digits value) <
      2 ^ (63 * (2 * ((2 ^ 64).digits value).length)) := by
    refine lt_of_lt_of_le (ofDigits_lt_base_pow_length (by decide) hcanonical.lt) ?_
    rw [← pow_mul]
    exact Nat.pow_le_pow_right (by decide) (by omega)
  obtain ⟨words, hwords, hlt, hval⟩ := fromLimbs_spec _ hcanonical hfuel
  rw [hvalue] at hval
  rw [bind_of_some hwords]
  conv => arg 2; rw [← hval]
  exact (fromWords_represents hlt).yields

/-! ## Quotients -/

theorem shortDiv_spec {divisor : Nat} (hpos : 0 < divisor) (hdivisor : divisor < radix)
    (words : List Nat) (h : ∀ w ∈ words, w < radix) :
    ∃ quotients, shortDiv divisor words = some (quotients, ofDigits radix words % divisor) ∧
      (∀ w ∈ quotients, w < radix) ∧
      ofDigits radix quotients = ofDigits radix words / divisor := by
  have hradix := radix_lt
  induction words with
  | nil => exact ⟨[], by rw [ofDigits_nil, zero_mod]; rfl, nofun,
      by rw [Nat.ofDigits_nil, Nat.zero_div]⟩
  | cons word words ih =>
    have hword := h word mem_cons_self
    obtain ⟨quotients, hquotients, hlt, hval⟩ := ih fun w hw => h w (mem_cons_of_mem _ hw)
    rw [shortDiv, bind_of_some hquotients, ofDigits_cons]
    dsimp only
    generalize ofDigits radix words = value at hval
    have hrem : value % divisor < divisor := mod_lt _ hpos
    have hbound : value % divisor * radix + word < divisor * radix := by
      have := mul_le_mul_right radix (succ_le_of_lt hrem)
      rw [succ_mul] at this
      omega
    have hfits : value % divisor * radix + word < 2 ^ 128 :=
      lt_trans hbound (lt_of_lt_of_le (mul_lt_mul_of_pos_right hdivisor radix_pos) (by decide))
    have hquotient : (value % divisor * radix + word) / divisor < radix := by
      rwa [div_lt_iff_lt_mul hpos, mul_comm radix]
    have hsplit : word + radix * value =
        value % divisor * radix + word + divisor * (radix * (value / divisor)) := by
      have hsum := mod_add_div value divisor
      calc word + radix * value
          = word + radix * (value % divisor + divisor * (value / divisor)) := by rw [hsum]
        _ = value % divisor * radix + word + divisor * (radix * (value / divisor)) := by ring
    rw [bind_of_some (u128_of_lt (Nat.lt_of_le_of_lt (Nat.le_add_right ..) hfits)),
      bind_of_some (u128_of_lt hfits), bind_of_some (require_of (ne_of_gt hpos)),
      bind_of_some (u64_of_lt (lt_trans hquotient hradix)), hsplit, add_mul_mod_self_left,
      add_mul_div_left _ _ hpos]
    refine ⟨_, rfl, forall_mem_cons.mpr ⟨hquotient, hlt⟩, ?_⟩
    rw [ofDigits_cons, hval]

theorem Normal.divRem {a b : Coeff} (ha : a.Normal) (hb : b.Normal) (hne : b.val ≠ 0) :
    ∃ q r, a.divRem b = some (q, r) ∧ q.Represents (a.val / b.val) ∧
    r.Represents (a.val % b.val) := by
  have hzero : b.isZero = false := by
    rw [← Bool.not_eq_true, hb.isZero_iff]
    exact hne
  rw [Coeff.divRem, bind_of_some (require_of hzero), ha.cmp_eq hb]
  split_ifs with hlt
  · rw [compare_lt_iff_lt] at hlt
    refine ⟨zero, a, rfl, ?_, ha, (mod_eq_of_lt hlt).symm⟩
    rw [div_eq_of_lt hlt]
    exact represents_zero
  split
  · rename_i x y hx hy
    -- both fit 128 bits
    rw [ha.toU128_eq] at hx
    rw [hb.toU128_eq] at hy
    split_ifs at hx hy with hxlt hylt
    obtain rfl := Option.some.inj hx
    obtain rfl := Option.some.inj hy
    obtain ⟨q, hq, hqrep⟩ := fromU128_yields (lt_of_le_of_lt (div_le_self a.val b.val) hxlt)
    obtain ⟨r, hr, hrrep⟩ := fromU128_yields (lt_of_le_of_lt (mod_le a.val b.val) hxlt)
    exact ⟨q, r, by rw [bind_of_some (require_of hne), bind_of_some hq, bind_of_some hr]; rfl,
      hqrep, hrrep⟩
  · split
    · rename_i divisor hdivisor
      have hval : b.val = divisor := by rw [val, hdivisor, ofDigits_singleton]
      have hdlt : divisor < radix := hb.lt divisor (by rw [hdivisor]; exact mem_cons_self)
      have hdpos : 0 < divisor := pos_of_ne_zero (hval ▸ hne)
      obtain ⟨quotients, hquotients, hqlt, hqval⟩ := shortDiv_spec hdpos hdlt a.words ha.lt
      have hrem : ofDigits radix a.words % divisor < 2 ^ 64 :=
        lt_trans (mod_lt _ hdpos) (lt_trans hdlt radix_lt)
      rw [bind_of_some hquotients, hval]
      dsimp only
      rw [bind_of_some (u64_of_lt hrem), val, ← hqval]
      exact ⟨_, _, rfl, fromWords_represents hqlt, fromU64_represents hrem⟩
    · obtain ⟨q, hq, hqrep⟩ := fromBiguint_yields (a.val / b.val)
      obtain ⟨r, hr, hrrep⟩ := fromBiguint_yields (a.val % b.val)
      exact ⟨q, r, by rw [bind_of_some ha.toBiguint, bind_of_some hb.toBiguint,
        bind_of_some (require_of hne), bind_of_some hq, bind_of_some hr]; rfl, hqrep, hrrep⟩

end Coeff

end Monty.Decimal
