import Monty.Decimal.Numeral

/-!
# Coefficients are natural numbers

Whatever the constructors and operations make is in normal form, so that coefficients are equal just
if their values are, and each operation is the one on natural numbers. No step overflows.

Digits are counted in 64 bits: the operations that count them are right as long as the count fits,
which all of memory could not exceed.
-/

namespace Monty.Decimal

open Nat

namespace Coeff

/-- The digits of a coefficient can be counted. -/
def Fits (c : Coeff) : Prop := c.words.length * 19 < 2 ^ 64

/-- What the constructors and operations make, with the arguments that they are for. -/
inductive Built : Coeff → Prop
  | zero : Built zero
  | one : Built one
  | fromU64 {value : Nat} : value < 2 ^ 64 → Built (fromU64 value)
  | fromU128 {value : Nat} {c : Coeff} : value < 2 ^ 128 → fromU128 value = some c → Built c
  | fromBiguint {value : Nat} {c : Coeff} : fromBiguint value = some c → Built c
  | fromDigits {chars : List Char} {c : Coeff} :
    (∀ d ∈ chars, d.isDigit = true) → fromDigits chars = some c → Built c
  | pow10 {n : Nat} {c : Coeff} : pow10 n = some c → Built c
  | repeatDigit {digit count : Nat} {c : Coeff} :
    1 ≤ digit → digit ≤ 9 → repeatDigit digit count = some c → Built c
  | shl {a c : Coeff} {n : Nat} : Built a → a.shl n = some c → Built c
  | shr {a c : Coeff} {n : Nat} {discarded : Discarded} :
    Built a → a.Fits → a.shr n = some (c, discarded) → Built c
  | lowDigits {a c : Coeff} {n : Nat} : Built a → a.lowDigits n = some c → Built c
  | add {a b c : Coeff} : Built a → Built b → a.add b = some c → Built c
  | sub {a b c : Coeff} : Built a → Built b → b.val ≤ a.val → a.sub b = some c → Built c
  | increment {a c : Coeff} : Built a → a.increment = some c → Built c
  | mul {a b c : Coeff} : Built a → Built b → a.mul b = some c → Built c
  | quotient {a b q r : Coeff} : Built a → Built b → b.val ≠ 0 → a.divRem b = some (q, r) → Built q
  | remainder {a b q r : Coeff} : Built a → Built b → b.val ≠ 0 → a.divRem b = some (q, r) → Built r

theorem Yields.normal {x : Option Coeff} {n : Nat} {c : Coeff} (h : Yields x n) (hc : x = some c) :
    c.Normal := by
  obtain ⟨d, hd, hrep⟩ := h
  obtain rfl := Option.mem_unique hd hc
  exact hrep.normal

theorem Built.normal {c : Coeff} (h : Built c) : c.Normal := by
  induction h with
  | zero => exact represents_zero.normal
  | one => exact represents_one.normal
  | fromU64 hvalue => exact (fromU64_represents hvalue).normal
  | fromU128 hvalue hc => exact (fromU128_yields hvalue).normal hc
  | fromBiguint hc => exact (fromBiguint_yields _).normal hc
  | fromDigits hdigits hc => exact (fromDigits_yields hdigits).normal hc
  | pow10 hc => exact (pow10_yields _).normal hc
  | repeatDigit hpos hle hc => exact (repeatDigit_yields hpos hle _).normal hc
  | shl _ hc ih => exact (ih.shl _).normal hc
  | shr _ hfits hc ih =>
    obtain ⟨d, hd, hrep⟩ := ih.shr hfits _
    obtain rfl := congrArg Prod.fst (Option.mem_unique hd hc)
    exact hrep.normal
  | lowDigits _ hc ih => exact (ih.lowDigits _).normal hc
  | add _ _ hc iha ihb => exact (iha.add ihb).normal hc
  | sub _ _ hle hc iha ihb => exact (iha.sub ihb hle).normal hc
  | increment _ hc ih => exact ih.increment.normal hc
  | mul _ _ hc iha ihb => exact (iha.mul ihb).normal hc
  | quotient _ _ hne hc iha ihb =>
    obtain ⟨q, r, hqr, hq, -⟩ := iha.divRem ihb hne
    obtain rfl := congrArg Prod.fst (Option.mem_unique hqr hc)
    exact hq.normal
  | remainder _ _ hne hc iha ihb =>
    obtain ⟨q, r, hqr, -, hr⟩ := iha.divRem ihb hne
    obtain rfl := congrArg Prod.snd (Option.mem_unique hqr hc)
    exact hr.normal

/-- The constructors make the coefficients of the numbers that are meant. -/
structure Constructors : Prop where
  zero : zero.Represents 0
  one : one.Represents 1
  fromU64 : ∀ value < 2 ^ 64, (fromU64 value).Represents value
  fromU128 : ∀ value < 2 ^ 128, Yields (fromU128 value) value
  fromBiguint : ∀ value, Yields (fromBiguint value) value
  fromDigits : ∀ chars : List Char, (∀ c ∈ chars, c.isDigit = true) →
    Yields (fromDigits chars) (ofDigitChars 10 chars 0)
  pow10 : ∀ n, Yields (pow10 n) (10 ^ n)
  repeatDigit : ∀ digit count, 1 ≤ digit → digit ≤ 9 →
    Yields (repeatDigit digit count) (ofDigits 10 (List.replicate count digit))
  divRadix : ∀ t < radix * 2 ^ 64, divRadix t = some (t / radix, t % radix)

/-- The operations on two coefficients are those on their values. -/
structure Faithful (a b : Coeff) : Prop where
  lt : ∀ word ∈ a.words, word < radix
  top : a.words.getLast? ≠ some 0
  eq : a = b ↔ a.val = b.val
  cmp : a.cmp b = compare a.val b.val
  isZero : a.isZero = true ↔ a.val = 0
  add : Yields (a.add b) (a.val + b.val)
  sub : b.val ≤ a.val → Yields (a.sub b) (a.val - b.val)
  increment : Yields a.increment (a.val + 1)
  mul : Yields (a.mul b) (a.val * b.val)
  divRem : b.val ≠ 0 → ∃ q r, a.divRem b = some (q, r) ∧ q.Represents (a.val / b.val) ∧
    r.Represents (a.val % b.val)
  shl : ∀ n, Yields (a.shl n) (a.val * 10 ^ n)
  lowDigits : ∀ n, Yields (a.lowDigits n) (a.val % 10 ^ n)
  shr : a.Fits → ∀ n, ∃ c, a.shr n = some (c, discardedOf a.val n) ∧ c.Represents (a.val / 10 ^ n)
  toU64 : a.toU64 = if a.val < 2 ^ 64 then some a.val else none
  toU128 : a.toU128 = if a.val < 2 ^ 128 then some a.val else none
  toBiguint : a.toBiguint = some a.val
  writeDigits : ∀ out, a.writeDigits out = some (out ++ toDigits 10 a.val)
  digits : a.Fits → a.digits = some (toDigits 10 a.val).length
  digitAt : ∀ pos, a.digitAt pos = some (a.val / 10 ^ pos % 10)
  lastDigit : a.lastDigit = some (a.val % 10)
  trailingZeros : a.Fits → a.val ≠ 0 → ∃ k, a.trailingZeros = some k ∧ ZerosAt a.val k
  trailingZeros_zero : a.val = 0 → a.trailingZeros = some 0
  isPowerOfTen : a.Fits → ∃ p, a.isPowerOfTen = some p ∧ (p = true ↔ ∃ k, a.val = 10 ^ k)

theorem length_toDigits (n : Nat) : (Nat.toDigits 10 n).length = Nat.log 10 n + 1 := by
  refine le_antisymm ?_ (not_lt.mp fun hlt => ?_)
  · rw [length_toDigits_le_iff (by decide) (succ_pos _)]
    exact lt_pow_succ_log_self (by decide) n
  have hpos : 0 < log 10 n := by
    have := length_toDigits_pos (b := 10) (n := n)
    omega
  have hlt' := (Nat.length_toDigits_le_iff (by decide) hpos).mp (Nat.lt_succ_iff.mp hlt)
  have hne : n ≠ 0 := by
    rintro rfl
    simp at hpos
  exact absurd hlt' (not_lt.mpr (pow_log_le_self 10 hne))

theorem constructors : Constructors where
  zero := represents_zero
  one := represents_one
  fromU64 _ h := fromU64_represents h
  fromU128 _ h := fromU128_yields h
  fromBiguint := fromBiguint_yields
  fromDigits _ h := fromDigits_yields h
  pow10 := pow10_yields
  repeatDigit _ count hpos hle := repeatDigit_yields hpos hle count
  divRadix _ h := divRadix_eq h

theorem Normal.faithful {a b : Coeff} (ha : a.Normal) (hb : b.Normal) : Faithful a b where
  lt := ha.lt
  top := ha.top
  eq := ha.eq_iff hb
  cmp := ha.cmp_eq hb
  isZero := ha.isZero_iff
  add := ha.add hb
  sub := ha.sub hb
  increment := ha.increment
  mul := ha.mul hb
  divRem := ha.divRem hb
  shl := ha.shl
  lowDigits := ha.lowDigits
  shr := ha.shr
  toU64 := ha.toU64_eq
  toU128 := ha.toU128_eq
  toBiguint := ha.toBiguint
  writeDigits := ha.writeDigits
  digits hfits := by rw [ha.digits hfits, length_toDigits]
  digitAt := ha.digitAt
  lastDigit := ha.lastDigit
  trailingZeros := ha.trailingZeros
  trailingZeros_zero hzero := by
    rw [Coeff.trailingZeros, (ha.ofDigits_eq_zero one_lt_radix).mp hzero]
    rfl
  isPowerOfTen := ha.isPowerOfTen

/-- A coefficient is a natural number. -/
theorem coeff_faithful {a b : Coeff} (ha : Built a) (hb : Built b) : Constructors ∧ Faithful a b :=
  ⟨constructors, ha.normal.faithful hb.normal⟩

theorem coeff_faithful_one : Constructors ∧ Faithful one (fromU64 (2 ^ 64 - 1)) :=
  coeff_faithful .one (.fromU64 (by decide))

end Coeff

end Monty.Decimal
