import Monty.Decimal.Coeff
import Monty.Lib.Fallible

/-!
# Words

What a coefficient stands for, and the arithmetic of single words: nothing overflows, and the
division by `radix` with a reciprocal is division.
-/

namespace Monty.Decimal

open Fallible Nat

/-! ## Machine arithmetic -/

variable {n : Nat}

theorem u64_of_lt (h : n < 2 ^ 64) : u64 n = some n := if_pos h

theorem u128_of_lt (h : n < 2 ^ 128) : u128 n = some n := if_pos h

theorem minus_of_le {a b : Nat} (h : b ≤ a) : minus a b = some (a - b) := if_pos h

theorem require_of {p : Prop} [Decidable p] (h : p) : require p = some () := if_pos h

theorem powTen_of_lt {i : Nat} (h : i < 20) : powTen i = some (10 ^ i) := if_pos h

theorem highHalf_of_lt {t : Nat} (h : t < 2 ^ 128) : highHalf t = some (t / 2 ^ 64) :=
  u64_of_lt (by omega)

theorem radix_eq : radix = 10 ^ 19 := rfl

theorem radix_literal : radix = 10000000000000000000 := rfl

theorem one_lt_radix : 1 < radix := by decide

theorem radix_pos : 0 < radix := by decide

theorem radix_lt : radix < 2 ^ 64 := by decide

theorem radix_pow (n : Nat) : radix ^ n = 10 ^ (19 * n) := by rw [radix_eq, pow_mul]

/-! ## Division by the base -/

theorem radixReciprocal_eq : radixReciprocal = 15581492618384294730 := by decide

theorem correctQuotient_of_le {q r : Nat} (h : radix ≤ r) (hq : q + 1 < 2 ^ 64) :
    correctQuotient q r = some (q + 1, r - radix) := by
  rw [correctQuotient, if_pos h, u64_of_lt hq, minus_of_le h]
  rfl

theorem correctQuotient_of_lt {q r : Nat} (h : r < radix) : correctQuotient q r = some (q, r) :=
  if_neg (not_le.mpr h)

/-- A difference that is computed without borrowing. -/
theorem wrapped_difference {m t q d : Nat} {r : Int} (hm : 0 < m) (h : (t : Int) = q * d + r) :
    (((t % m + (m - q * d % m)) % m : Nat) : Int) = r % m := by
  have hle : q * d % m ≤ m := (mod_lt _ hm).le
  push_cast [hle]
  have hsum : (t : Int) % m + (m - q * d % m) = t % m - q * d % m + m := by ring
  have hdiff : (q : Int) * d + r - q * d = r := by ring
  rw [hsum, Int.add_emod_right, ← Int.sub_emod, h, hdiff]

/-- The remainder that belongs to the estimated quotient is above `-radix`, and the low half of the
product bounds it from both sides. -/
theorem estimate_bounds {t product : Nat} {r : Int}
    (h : t < 10000000000000000000 * 18446744073709551616)
    (hp : 15581492618384294730 * (t / 2 ^ 64) + t = product)
    (hr : (t : Int) = (product / 2 ^ 64 + 1 : Nat) * 10000000000000000000 + r) :
    -10000000000000000000 ≤ r ∧ (lowHalf product : Int) - 18446744073709551616 < r ∧
      (r < 8446744073709551616 ∨ r < lowHalf product) := by
  obtain ⟨u1, u0, hu1, hu0, ht⟩ : ∃ u1 u0 : Nat, u1 < 10000000000000000000 ∧
      u0 < 18446744073709551616 ∧ t = u1 * 18446744073709551616 + u0 :=
    ⟨t / 2 ^ 64, t % 2 ^ 64, by omega, by omega, by omega⟩
  obtain ⟨q1, q0, hq0, hproduct⟩ : ∃ q1 q0 : Nat, q0 < 18446744073709551616 ∧
      product = q1 * 18446744073709551616 + q0 :=
    ⟨product / 2 ^ 64, product % 2 ^ 64, by omega, by omega⟩
  have hlow : lowHalf product = q0 := by
    rw [lowHalf]
    omega
  refine ⟨by omega, by omega, by omega⟩

/-- The corrections give the quotient and the remainder. -/
theorem corrected_eq {t q r q0 : Nat} {r' : Int} (ht : (t : Int) = q * 10000000000000000000 + r')
    (hpos : 0 < q) (hlt : t < 10000000000000000000 * 18446744073709551616)
    (hlow : -10000000000000000000 ≤ r') (hlow' : q0 - 18446744073709551616 < r')
    (hhigh : r' < 8446744073709551616 ∨ r' < q0) (hq0 : q0 < 18446744073709551616)
    (hr : (r : Int) = r' % 18446744073709551616) :
    (if q0 < r then correctQuotient (wrappingSub q 1) (wrappingAdd r radix)
      else correctQuotient q r) =
      some (t / 10000000000000000000, t % 10000000000000000000) := by
  obtain hneg | hnonneg : r' < 0 ∨ 0 ≤ r' := by omega
  · have hadd : wrappingAdd r 10000000000000000000 = t % 10000000000000000000 := by
      rw [wrappingAdd]
      omega
    have hsub : wrappingSub q 1 = t / 10000000000000000000 := by
      rw [wrappingSub]
      omega
    have hrem : t % 10000000000000000000 < radix := mod_lt _ radix_pos
    rw [if_pos (by omega), radix_literal, hadd, hsub, correctQuotient_of_lt hrem]
  have hr' : (r : Int) = r' := by omega
  by_cases hcond : q0 < r
  · -- The first correction is undone by the second.
    have hadd : wrappingAdd r 10000000000000000000 = r + 10000000000000000000 := by
      rw [wrappingAdd]
      omega
    have hsub : wrappingSub q 1 = q - 1 := by
      rw [wrappingSub]
      omega
    have hdiv : q - 1 + 1 = t / 10000000000000000000 := by omega
    have hmod : r = t % 10000000000000000000 := by omega
    have hlt' : q - 1 + 1 < 2 ^ 64 := by omega
    rw [if_pos hcond, radix_literal, hadd, hsub, ← radix_literal,
      correctQuotient_of_le (Nat.le_add_left ..) hlt', Nat.add_sub_cancel, hdiv,
      radix_literal, ← hmod]
  · rw [if_neg hcond]
    rcases lt_or_ge r 10000000000000000000 with hlt' | hge
    · have hdiv : q = t / 10000000000000000000 := by omega
      have hmod : r = t % 10000000000000000000 := by omega
      rw [correctQuotient_of_lt hlt', hdiv, hmod]
    · have hdiv : q + 1 = t / 10000000000000000000 := by omega
      have hmod : r - 10000000000000000000 = t % 10000000000000000000 := by omega
      have hlt' : q + 1 < 2 ^ 64 := by omega
      rw [correctQuotient_of_le hge hlt', hdiv, radix_literal, hmod]

/-- The estimate of the quotient is off by one at most, and the low half of the product tells
where. -/
theorem divRadix_eq {t : Nat} (h : t < radix * 2 ^ 64) :
    divRadix t = some (t / radix, t % radix) := by
  replace h : t < 10000000000000000000 * 18446744073709551616 := h
  have ht : t < 2 ^ 128 := by omega
  have hhigh : t / 2 ^ 64 < radix := by
    rw [radix_literal]
    omega
  have hproduct : radixReciprocal * (t / 2 ^ 64) + t < 2 ^ 128 := by
    rw [radixReciprocal_eq]
    omega
  have hfirst : radixReciprocal * (t / 2 ^ 64) < 2 ^ 128 :=
    Nat.lt_of_le_of_lt (Nat.le_add_right ..) hproduct
  have hq : wrappingAdd ((radixReciprocal * (t / 2 ^ 64) + t) / 2 ^ 64) 1 =
      (radixReciprocal * (t / 2 ^ 64) + t) / 2 ^ 64 + 1 := by
    rw [radixReciprocal_eq, wrappingAdd]
    omega
  rw [divRadix, bind_of_some (highHalf_of_lt ht), bind_of_some (require_of hhigh),
    bind_of_some (u128_of_lt hfirst), bind_of_some (u128_of_lt hproduct),
    bind_of_some (highHalf_of_lt hproduct), hq]
  generalize hp : radixReciprocal * (t / 2 ^ 64) + t = product at hproduct
  obtain ⟨r', hr'⟩ : ∃ r' : Int, (t : Int) = (product / 2 ^ 64 + 1 : Nat) * (radix : Nat) + r' :=
    ⟨t - (product / 2 ^ 64 + 1 : Nat) * (radix : Nat), by ring⟩
  have hr : (wrappingSub (lowHalf t) (wrappingMul (product / 2 ^ 64 + 1) radix) : Int) =
      r' % (2 ^ 64 : Nat) := wrapped_difference (by decide) hr'
  obtain ⟨hlow, hlow', hhigh'⟩ := estimate_bounds h hp hr'
  have hcorrected := corrected_eq hr' (succ_pos _) h hlow hlow' hhigh' (mod_lt _ (by decide)) hr
  have hdiv : lowHalf (t / radix) = t / radix := mod_eq_of_lt (by rw [radix_literal]; omega)
  have hmod : lowHalf (t % radix) = t % radix :=
    mod_eq_of_lt (lt_trans (mod_lt _ radix_pos) radix_lt)
  rw [bind_of_some hcorrected, hdiv, hmod]
  exact bind_of_some (require_of ⟨rfl, rfl⟩)

/-! ## What coefficients stand for -/

namespace Coeff

/-- Words are below the base, and the last is not zero. -/
def Normal (c : Coeff) : Prop := Radix.Canonical radix c.words

def val (c : Coeff) : Nat := Nat.ofDigits radix c.words

/-- The coefficient of a number. -/
structure Represents (c : Coeff) (n : Nat) : Prop where
  normal : c.Normal
  val_eq : c.val = n

variable {c : Coeff}

theorem Normal.represents (h : c.Normal) : c.Represents c.val := ⟨h, rfl⟩

/-- A computation that gives the coefficient of a number. -/
def Yields (x : Option Coeff) (n : Nat) : Prop := ∃ c, x = some c ∧ c.Represents n

theorem Represents.yields (h : c.Represents n) : Yields (some c) n := ⟨c, rfl, h⟩

theorem Normal.isZero_iff (h : c.Normal) : c.isZero = true ↔ c.val = 0 := by
  rw [isZero, List.isEmpty_iff]
  exact (Radix.Canonical.ofDigits_eq_zero one_lt_radix h).symm

theorem Normal.val_lt (h : c.Normal) : c.val < radix ^ c.words.length :=
  ofDigits_lt_base_pow_length one_lt_radix h.lt

theorem represents_zero : zero.Represents 0 := ⟨⟨nofun, nofun⟩, rfl⟩

theorem represents_one : one.Represents 1 where
  normal := Radix.canonical_of_pow_le one_lt_radix (by decide) fun _ => by decide
  val_eq := rfl

theorem fromWords_represents {words : List Nat} (h : ∀ w ∈ words, w < radix) :
    (fromWords words).Represents (Nat.ofDigits radix words) :=
  ⟨Radix.canonical_trim h, Radix.ofDigits_trim ..⟩

theorem fromU64_represents {value : Nat} (h : value < 2 ^ 64) :
    (fromU64 value).Represents value := by
  rw [fromU64]
  split_ifs with h0 h1
  · exact h0 ▸ represents_zero
  · refine ⟨⟨by simpa using h1, ?_⟩, ofDigits_singleton⟩
    simpa using h0
  have hdiv : value / radix = 1 := by
    rw [radix_literal] at h1 ⊢
    omega
  refine ⟨⟨?_, ?_⟩, ?_⟩
  · rw [hdiv]
    simpa using ⟨mod_lt _ radix_pos, one_lt_radix⟩
  · rw [hdiv]
    exact nofun
  · rw [val, ofDigits_cons, ofDigits_singleton, mod_add_div]

end Coeff

end Monty.Decimal
