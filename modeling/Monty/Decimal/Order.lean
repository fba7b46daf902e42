import Mathlib.Algebra.Order.Field.Power
import Monty.Decimal.Faithful

/-!
# The orders of decimals

A decimal is a sign, a coefficient and an exponent, an infinity, or a NaN with a payload.
Coefficients are the natural numbers that they stand for (`Coeff.Faithful`).

Numbers are compared by the place of the first digit, and only then by their digits, which are those
of one exponent then. The total order compares representations: it is the lexicographic order of
three keys (`totalOrder_eq`), each of which a sign turns around, so that its laws are those of
numbers.
-/

namespace Monty

open Nat

namespace Decimal

/-- The kinds of decimals. -/
inductive Special
  | finite
  | infinite
  | quietNan
  | signalingNan
  deriving DecidableEq

end Decimal

/-- A sign, a coefficient and an exponent. -/
@[ext]
structure Decimal where
  sign : Bool
  /-- The payload, for a NaN. -/
  coeff : Nat
  exp : Int
  special : Decimal.Special
  coeff_infinite : special = .infinite → coeff = 0
  exp_special : special ≠ .finite → exp = 0

namespace Decimal

variable (self other : Decimal)

/-- An infinity or a NaN. -/
def isSpecial : Bool := self.special ≠ .finite

/-- A zero of either sign. -/
def isZero : Bool := self.special = .finite && self.coeff = 0

/-- 0 for numbers, 1 for a quiet NaN, 2 for a signalling one. -/
def nanKind : Nat :=
  match self.special with
  | .quietNan => 1
  | .signalingNan => 2
  | .finite | .infinite => 0

/-- The sign of an infinity, otherwise 0. -/
def infinitySign : Int :=
  match self.special, self.sign with
  | .infinite, false => 1
  | .infinite, true => -1
  | _, _ => 0

/-- `Coeff::digits`. -/
def coeffDigits : Nat := Nat.log 10 self.coeff + 1

/-- A NaN without payload has none. -/
def digits : Int := if self.nanKind ≠ 0 ∧ self.coeff = 0 then 0 else self.coeffDigits

/-- The exponent of the first digit. -/
def adjusted : Int := if self.isSpecial then 0 else self.exp + self.digits - 1

/-- Without its sign. -/
def copyAbs : Decimal := { self with sign := false }

/-- With the other sign. -/
def copyNegate : Decimal := { self with sign := !self.sign }

/-- Negative numbers are in the opposite order. -/
def signOrder (sign : Bool) (ord : Ordering) : Ordering := if sign then ord.swap else ord

/-- The coefficient for a lower exponent. -/
def aligned (shift : Nat) : Nat := self.coeff * 10 ^ shift

/-- The order of the values. -/
def cmpNumeric : Ordering :=
  if self.isSpecial ∨ other.isSpecial then compare self.infinitySign other.infinitySign
  else
    match self.isZero, other.isZero with
    | true, true => .eq
    | true, false => signOrder other.sign .lt
    | false, true => signOrder self.sign .gt
    | false, false =>
      if self.sign ≠ other.sign then if self.sign then .lt else .gt
      else signOrder self.sign <| match compare self.adjusted other.adjusted with
        | .eq =>
          let width := max self.coeffDigits other.coeffDigits
          compare (self.aligned (width - self.coeffDigits))
            (other.aligned (width - other.coeffDigits))
        | ord => ord

/-- A quiet NaN orders above a signaling one, and both above every number. -/
def rank : Nat → Nat
  | 1 => 2
  | 2 => 1
  | _ => 0

/-- The order of the representations. -/
def totalOrder : Ordering :=
  if self.sign ∧ ¬ other.sign then .lt
  else if ¬ self.sign ∧ other.sign then .gt
  else if self.nanKind ≠ 0 ∨ other.nanKind ≠ 0 then
    if self.nanKind = other.nanKind then signOrder self.sign (compare self.coeff other.coeff)
    else signOrder self.sign (compare (rank self.nanKind) (rank other.nanKind))
  else match self.cmpNumeric other with
    | .eq => signOrder self.sign (compare self.exp other.exp)
    | ord => ord

section

-- Rounding to the context, and the result for a NaN operand, are left open.
variable {ρ : Type} (fix : Decimal → ρ) (checkNans : Decimal → Decimal → ρ)

/-- One of two; a quiet NaN loses to a number. -/
def pick (magnitude : Bool) (otherWins : Ordering) : ρ :=
  if (self.isSpecial ∨ other.isSpecial) ∧ (self.nanKind ≠ 0 ∨ other.nanKind ≠ 0) then
    if other.nanKind = 1 ∧ self.nanKind = 0 then fix self
    else if self.nanKind = 1 ∧ other.nanKind = 0 then fix other
    else checkNans self other
  else
    let c := if magnitude then self.copyAbs.cmpNumeric other.copyAbs else self.cmpNumeric other
    let c := if c = .eq then self.totalOrder other else c
    fix (if c = otherWins then other else self)

/-- The greater one. -/
protected def max : ρ := pick self other fix checkNans false .lt

/-- The lesser one. -/
protected def min : ρ := pick self other fix checkNans false .gt

/-- The one of greater magnitude. -/
def maxMag : ρ := pick self other fix checkNans true .lt

/-- The one of lesser magnitude. -/
def minMag : ρ := pick self other fix checkNans true .gt

end

/-! ## The value -/

/-- What a sign does to a number. -/
def signed {R : Type} [Neg R] (sign : Bool) (x : R) : R := if sign then -x else x

/-- The value without its sign. -/
def magnitude : ℚ := self.coeff * 10 ^ self.exp

/-- The value of a number. -/
def value : WithBot (WithTop ℚ) :=
  if self.special = .infinite then if self.sign then ⊥ else ((⊤ : WithTop ℚ) : WithBot (WithTop ℚ))
  else ((signed self.sign self.magnitude : ℚ) : WithTop ℚ)

variable {self other}

section

variable {α β : Type} [LinearOrder α] [LinearOrder β]

theorem compare_map {f : α → β} (hf : StrictMono f) (x y : α) :
    compare (f x) (f y) = compare x y := by
  rcases lt_trichotomy x y with h | rfl | h
  · rw [compare_lt_iff_lt.mpr h, compare_lt_iff_lt.mpr (hf h)]
  · rw [compare_eq_iff_eq.mpr rfl, compare_eq_iff_eq.mpr rfl]
  · rw [compare_gt_iff_gt.mpr h, compare_gt_iff_gt.mpr (hf h)]

theorem compare_signed [AddCommGroup α] [IsOrderedAddMonoid α] (sign : Bool) (x y : α) :
    compare (signed sign x) (signed sign y) = signOrder sign (compare x y) := by
  cases sign with
  | false => rfl
  | true =>
    -- negation is monotone from the dual order
    have hneg : StrictMono fun x : αᵒᵈ => -OrderDual.ofDual x := fun _ _ h => neg_lt_neg (α := α) h
    exact (compare_map hneg x y).trans Std.OrientedOrd.eq_swap

end

theorem magnitude_pos {a : Decimal} (h : a.coeff ≠ 0) : 0 < a.magnitude :=
  mul_pos (Nat.cast_pos.mpr (pos_of_ne_zero h)) (zpow_pos (by norm_num) _)

section

variable {a b : Decimal} (ha : a.special = .finite) (hb : b.special = .finite)

include ha

theorem adjusted_eq : a.adjusted = a.exp + log 10 a.coeff := by
  simp [adjusted, isSpecial, digits, nanKind, coeffDigits, ha]
  omega

/-- The adjusted exponent is the place of the first digit. -/
theorem magnitude_bounds (h : a.coeff ≠ 0) :
    10 ^ a.adjusted ≤ a.magnitude ∧ a.magnitude < 10 ^ (a.adjusted + 1) := by
  have hlow : (10 : ℚ) ^ log 10 a.coeff ≤ a.coeff := by exact_mod_cast pow_log_le_self 10 h
  have hhigh : (a.coeff : ℚ) < 10 ^ (log 10 a.coeff + 1) := by
    exact_mod_cast lt_pow_succ_log_self (by decide) a.coeff
  have hexp : (0 : ℚ) < 10 ^ a.exp := zpow_pos (by norm_num) _
  rw [adjusted_eq ha, magnitude, add_assoc, zpow_add₀ (by norm_num), zpow_add₀ (by norm_num),
    mul_comm _ (10 ^ a.exp), zpow_natCast]
  exact ⟨mul_le_mul_of_nonneg_left hlow hexp.le,
    mul_lt_mul_of_pos_left (by exact_mod_cast hhigh) hexp⟩

theorem aligned_eq (k : Nat) :
    (a.aligned k : ℚ) = a.magnitude * 10 ^ (k + a.coeffDigits - 1 - a.adjusted : ℤ) := by
  have hexp : (k + a.coeffDigits - 1 - a.adjusted : ℤ) = k - a.exp := by
    rw [adjusted_eq ha, coeffDigits]
    push_cast
    omega
  rw [hexp, magnitude, mul_assoc, ← zpow_add₀ (by norm_num), add_sub_cancel, zpow_natCast, aligned]
  push_cast
  rfl

include hb

theorem compare_magnitude (hac : a.coeff ≠ 0) (hbc : b.coeff ≠ 0) :
    (match compare a.adjusted b.adjusted with
      | .eq =>
        let width := max a.coeffDigits b.coeffDigits
        compare (a.aligned (width - a.coeffDigits)) (b.aligned (width - b.coeffDigits))
      | ord => ord) = compare a.magnitude b.magnitude := by
  obtain ⟨halow, hahigh⟩ := magnitude_bounds ha hac
  obtain ⟨hblow, hbhigh⟩ := magnitude_bounds hb hbc
  rcases lt_trichotomy a.adjusted b.adjusted with h | h | h
  · rw [compare_lt_iff_lt.mpr h]
    have hle : (10 : ℚ) ^ (a.adjusted + 1) ≤ 10 ^ b.adjusted := zpow_le_zpow_right₀ (by norm_num) h
    exact (compare_lt_iff_lt.mpr ((hahigh.trans_le hle).trans_le hblow)).symm
  · -- both are taken to the exponent of the longer coefficient
    rw [compare_eq_iff_eq.mpr h]
    have hq : (0 : ℚ) < 10 ^ (max a.coeffDigits b.coeffDigits - 1 - a.adjusted : ℤ) :=
      zpow_pos (by norm_num) _
    rw [← compare_map (strictMono_cast (α := ℚ)), aligned_eq ha, aligned_eq hb, ← h,
      cast_sub (le_max_left _ _), cast_sub (le_max_right _ _), sub_add_cancel,
      sub_add_cancel]
    exact compare_map (strictMono_mul_right_of_pos hq) ..
  · rw [compare_gt_iff_gt.mpr h]
    have hle : (10 : ℚ) ^ (b.adjusted + 1) ≤ 10 ^ a.adjusted := zpow_le_zpow_right₀ (by norm_num) h
    exact (compare_gt_iff_gt.mpr ((hbhigh.trans_le hle).trans_le halow)).symm

theorem cmpNumeric_finite :
    a.cmpNumeric b = compare (signed a.sign a.magnitude) (signed b.sign b.magnitude) := by
  have hzero : ∀ sign, signed sign (0 : ℚ) = 0 := by decide
  have hmag : ∀ {d : Decimal}, d.coeff = 0 → d.magnitude = 0 := fun h => by simp [magnitude, h]
  rw [cmpNumeric, if_neg (by simp [isSpecial, ha, hb])]
  by_cases hac : a.coeff = 0 <;> by_cases hbc : b.coeff = 0 <;>
    simp only [isZero, ha, hb, hac, hbc, decide_true, decide_false, Bool.and_true, Bool.and_false]
  · rw [hmag hac, hmag hbc, hzero, hzero]
    exact (compare_eq_iff_eq.mpr rfl).symm
  · rw [hmag hac, hzero, ← hzero b.sign, compare_signed, compare_lt_iff_lt.mpr (magnitude_pos hbc)]
  · rw [hmag hbc, hzero, ← hzero a.sign, compare_signed, compare_gt_iff_gt.mpr (magnitude_pos hac)]
  have hapos := magnitude_pos hac
  have hbpos := magnitude_pos hbc
  by_cases hsign : a.sign = b.sign
  · rw [if_neg (not_not.mpr hsign), ← hsign, compare_signed, ← compare_magnitude ha hb hac hbc]
  · rw [if_pos hsign]
    cases hs : a.sign <;> cases hs' : b.sign <;> simp only [hs, hs', not_true] at hsign
    · exact (compare_gt_iff_gt.mpr ((neg_neg_of_pos hbpos).trans hapos)).symm
    · exact (compare_lt_iff_lt.mpr ((neg_neg_of_pos hapos).trans hbpos)).symm

end

theorem cmpNumeric_eq {a b : Decimal} (ha : a.nanKind = 0) (hb : b.nanKind = 0) :
    a.cmpNumeric b = compare a.value b.value := by
  have hkind : ∀ {d : Decimal}, d.nanKind = 0 → d.special = .finite ∨ d.special = .infinite := by
    intro d
    rw [nanKind]
    cases d.special <;> simp
  have hmono : StrictMono fun q : ℚ => ((q : WithTop ℚ) : WithBot (WithTop ℚ)) :=
    WithBot.coe_strictMono.comp WithTop.coe_strictMono
  have htop : ∀ q : ℚ, ((q : WithTop ℚ) : WithBot (WithTop ℚ)) < ⊤ := fun q =>
    WithBot.coe_lt_coe.mpr (WithTop.coe_lt_top q)
  rcases hkind ha with hsa | hsa <;> rcases hkind hb with hsb | hsb
  · rw [cmpNumeric_finite hsa hsb, value, value, hsa, hsb]
    exact (compare_map hmono ..).symm
  all_goals
    rw [cmpNumeric, if_pos (by simp [isSpecial, hsa, hsb])]
    simp only [infinitySign, value, hsa, hsb]
    cases a.sign <;> cases b.sign
  all_goals
    first
    | exact (compare_eq_iff_eq.mpr rfl).symm
    | exact (compare_lt_iff_lt.mpr (by simp [htop])).symm
    | exact (compare_gt_iff_gt.mpr (by simp [htop])).symm

/-! ## The total order -/

section

variable (d : Decimal)

/-- Numbers are between the NaNs. -/
def rankKey : Int := signed d.sign (1 + rank d.nanKind)

/-- Numbers are ordered by value. -/
def valueKey : WithBot (WithTop ℚ) := if d.nanKind = 0 then d.value else 0

/-- What decides among equal values. -/
def tieKey : Int := signed d.sign (if d.nanKind = 0 then d.exp else d.coeff)

end

theorem rank_inj {a b : Decimal} (h : rank a.nanKind = rank b.nanKind) : a.nanKind = b.nanKind := by
  revert h
  rw [nanKind, nanKind]
  cases a.special <;> cases b.special <;> decide

theorem totalOrder_eq (a b : Decimal) : a.totalOrder b =
    compareLex (compareOn rankKey) (compareLex (compareOn valueKey) (compareOn tieKey)) a b := by
  simp only [compareLex, compareOn]
  by_cases hsign : a.sign = b.sign
  · have hrank : compare a.rankKey b.rankKey =
        signOrder a.sign (compare (rank a.nanKind) (rank b.nanKind)) := by
      have hmono : StrictMono fun n : Nat => (1 + n : Int) := fun _ _ h => by simpa using h
      rw [rankKey, rankKey, ← hsign, compare_signed]
      exact congrArg _ (compare_map hmono ..)
    rw [totalOrder, if_neg (by simp [hsign]), if_neg (by simp [hsign]), hrank]
    by_cases hkind : a.nanKind = b.nanKind
    · have heq : signOrder a.sign .eq = .eq := by cases a.sign <;> rfl
      rw [hkind, compare_eq_iff_eq.mpr rfl, heq, tieKey, tieKey, ← hsign, compare_signed, valueKey,
        valueKey, ← hkind]
      by_cases hnan : a.nanKind = 0
      · simp only [hnan, ne_eq, not_true, or_self, if_false, if_true,
          cmpNumeric_eq hnan (hkind ▸ hnan)]
        cases compare a.value b.value <;> rfl
      · simp only [hnan, ne_eq, not_false_eq_true, or_self, if_false, if_true,
          compare_eq_iff_eq.mpr]
        exact congrArg _ (compare_map strictMono_cast ..).symm
    · have hne : compare (rank a.nanKind) (rank b.nanKind) ≠ .eq :=
        fun h => hkind (rank_inj (compare_eq_iff_eq.mp h))
      rw [if_pos (by omega), if_neg hkind]
      revert hne
      cases compare (rank a.nanKind) (rank b.nanKind) <;> cases a.sign <;> simp [signOrder]
  · have hlt : ∀ m n : Nat, signed true (1 + m : Int) < signed false (1 + n : Int) := fun m n => by
      change -(1 + m : Int) < 1 + n
      omega
    rw [totalOrder, rankKey, rankKey]
    cases ha : a.sign <;> cases hb : b.sign <;> simp only [ha, hb, not_true] at hsign
    · rw [compare_gt_iff_gt.mpr (hlt ..)]
      rfl
    · rw [compare_lt_iff_lt.mpr (hlt ..)]
      rfl

theorem finite_of_not_special {a b : Decimal} (h : ¬ (a.isSpecial ∨ b.isSpecial)) :
    a.special = .finite ∧ b.special = .finite := by
  simpa [isSpecial] using h

theorem cmpNumeric_copyNegate (a b : Decimal) :
    a.copyNegate.cmpNumeric b.copyNegate = (a.cmpNumeric b).swap := by
  by_cases hspecial : a.isSpecial ∨ b.isSpecial
  · have hneg : ∀ d : Decimal, d.copyNegate.infinitySign = -d.infinitySign := by
      intro d
      simp only [infinitySign, copyNegate]
      cases d.special <;> cases d.sign <;> rfl
    rw [cmpNumeric, if_pos (by exact hspecial), cmpNumeric, if_pos hspecial, hneg, hneg]
    exact compare_signed true ..
  have hneg : ∀ d : Decimal,
      signed d.copyNegate.sign d.copyNegate.magnitude = -signed d.sign d.magnitude := by
    intro d
    change signed (!d.sign) d.magnitude = _
    cases d.sign <;> simp [signed]
  obtain ⟨ha, hb⟩ := finite_of_not_special hspecial
  rw [cmpNumeric_finite ha hb, cmpNumeric_finite (by exact ha) (by exact hb), hneg, hneg]
  exact compare_signed true ..

/-- A sign turns all around. -/
theorem totalOrder_copyNegate (a b : Decimal) :
    a.copyNegate.totalOrder b.copyNegate = (a.totalOrder b).swap := by
  have hsign : ∀ d : Decimal, d.copyNegate.sign = !d.sign := fun _ => rfl
  have hkind : ∀ d : Decimal, d.copyNegate.nanKind = d.nanKind := fun _ => rfl
  have hcoeff : ∀ d : Decimal, d.copyNegate.coeff = d.coeff := fun _ => rfl
  have hexp : ∀ d : Decimal, d.copyNegate.exp = d.exp := fun _ => rfl
  simp only [totalOrder, hsign, hkind, hcoeff, hexp, cmpNumeric_copyNegate]
  cases a.sign <;> cases b.sign <;> simp only [signOrder, Bool.not_true, Bool.not_false,
    Bool.false_eq_true, not_true, not_false_eq_true, and_true, and_false, if_true, if_false]
  · split_ifs
    · rfl
    · rfl
    · cases a.cmpNumeric b <;> rfl
  · rfl
  · rfl
  · split_ifs
    · exact Ordering.swap_swap.symm
    · exact Ordering.swap_swap.symm
    · cases a.cmpNumeric b <;> simp

theorem signOrder_eq_eq {sign : Bool} {ord : Ordering} : signOrder sign ord = .eq ↔ ord = .eq := by
  cases sign <;> cases ord <;> decide

theorem eq_of_totalOrder {a b : Decimal} (h : a.totalOrder b = .eq) : a = b := by
  rw [totalOrder] at h
  split_ifs at h with hlt hgt hnan hkind
  all_goals have hsign : a.sign = b.sign := by cases ha : a.sign <;> cases hb : b.sign <;> simp_all
  · have hspecial : a.special = b.special ∧ a.special ≠ .finite := by
      revert hkind hnan
      rw [nanKind, nanKind]
      cases a.special <;> cases b.special <;> simp
    have hexp := (a.exp_special hspecial.2).trans (b.exp_special (hspecial.1 ▸ hspecial.2)).symm
    exact Decimal.ext hsign (compare_eq_iff_eq.mp (signOrder_eq_eq.mp h)) hexp hspecial.1
  · exact absurd (rank_inj (compare_eq_iff_eq.mp (signOrder_eq_eq.mp h))) hkind
  have hcmp : a.cmpNumeric b = .eq := by
    cases hcmp : a.cmpNumeric b <;> rw [hcmp] at h <;> first | rfl | cases h
  rw [hcmp] at h
  have hexp : a.exp = b.exp := compare_eq_iff_eq.mp (signOrder_eq_eq.mp h)
  by_cases hspecial : a.isSpecial ∨ b.isSpecial
  · rw [cmpNumeric, if_pos hspecial, compare_eq_iff_eq] at hcmp
    have hinf : a.special = .infinite ∧ b.special = .infinite := by
      revert hcmp hnan hspecial
      rw [infinitySign, infinitySign, nanKind, nanKind, isSpecial, isSpecial, hsign]
      cases a.special <;> cases b.special <;> cases b.sign <;> simp
    exact Decimal.ext hsign ((a.coeff_infinite hinf.1).trans (b.coeff_infinite hinf.2).symm) hexp
      (hinf.1.trans hinf.2.symm)
  obtain ⟨ha, hb⟩ := finite_of_not_special hspecial
  rw [cmpNumeric_finite ha hb, ← hsign, compare_signed, signOrder_eq_eq, compare_eq_iff_eq,
    magnitude, magnitude, hexp] at hcmp
  have hcoeff := mul_right_cancel₀ (zpow_ne_zero _ (by norm_num)) hcmp
  exact Decimal.ext hsign (by exact_mod_cast hcoeff) hexp (ha.trans hb.symm)

instance : Std.TransCmp totalOrder := by
  have heq : totalOrder =
      compareLex (compareOn rankKey) (compareLex (compareOn valueKey) (compareOn tieKey)) :=
    funext fun a => funext fun b => totalOrder_eq a b
  rw [heq]
  infer_instance

theorem cmpNumeric_of_sign {a b : Decimal} (ha : a.sign = true) (hb : b.sign = false) :
    a.cmpNumeric b ≠ .gt := by
  by_cases hspecial : a.isSpecial ∨ b.isSpecial
  · rw [cmpNumeric, if_pos hspecial, infinitySign, infinitySign, ha, hb]
    cases a.special <;> cases b.special <;> decide
  · rw [cmpNumeric, if_neg hspecial, ha, hb]
    cases a.isZero <;> cases b.isZero <;> nofun

section

variable {a b : Decimal} (ha : a.nanKind = 0) (hb : b.nanKind = 0)

include ha hb

theorem totalOrder_of_cmpNumeric (h : a.cmpNumeric b ≠ .eq) : a.totalOrder b = a.cmpNumeric b := by
  rw [totalOrder, if_neg (c := a.nanKind ≠ 0 ∨ b.nanKind ≠ 0) (by simp [ha, hb])]
  split_ifs with hlt hgt
  · have hne := cmpNumeric_of_sign hlt.1 (eq_false_of_ne_true hlt.2)
    revert h hne
    cases a.cmpNumeric b <;> simp
  · have hne := cmpNumeric_of_sign (a := a.copyNegate) (b := b.copyNegate)
      (by simp [copyNegate, hgt.1]) (by simp [copyNegate, hgt.2])
    rw [cmpNumeric_copyNegate] at hne
    revert h hne
    cases a.cmpNumeric b <;> simp
  · revert h
    cases a.cmpNumeric b <;> simp

variable {ρ : Type} (fix : Decimal → ρ) (checkNans : Decimal → Decimal → ρ)

/-- The family rounds an operand that the other one does not exceed. -/
theorem pick_spec (magnitude : Bool) {wins : Ordering} (hwins : wins ≠ .eq) :
    let size := fun d : Decimal => if magnitude then d.copyAbs else d
    ∃ x, (x = a ∨ x = b) ∧ pick a b fix checkNans magnitude wins = fix x ∧
      (size a).cmpNumeric (size x) ≠ wins.swap ∧ (size b).cmpNumeric (size x) ≠ wins.swap := by
  intro size
  have hkind : ∀ d : Decimal, (size d).nanKind = d.nanKind := by
    intro d
    cases magnitude <;> rfl
  have hab := cmpNumeric_eq ((hkind a).trans ha) ((hkind b).trans hb)
  have hba := cmpNumeric_eq ((hkind b).trans hb) ((hkind a).trans ha)
  have hself : ∀ {d : Decimal}, d.nanKind = 0 → (size d).cmpNumeric (size d) ≠ wins.swap := by
    intro d hd
    rw [cmpNumeric_eq ((hkind d).trans hd) ((hkind d).trans hd), compare_eq_iff_eq.mpr rfl]
    cases wins <;> first | exact absurd rfl hwins | decide
  have hc : (if magnitude then a.copyAbs.cmpNumeric b.copyAbs else a.cmpNumeric b) =
      (size a).cmpNumeric (size b) := by
    cases magnitude <;> rfl
  rw [pick, if_neg (by simp [ha, hb]), hc]
  dsimp only
  by_cases hwon : (if (size a).cmpNumeric (size b) = .eq then a.totalOrder b
      else (size a).cmpNumeric (size b)) = wins
  · refine ⟨b, .inr rfl, by rw [if_pos hwon], fun h => ?_, hself hb⟩
    rw [h] at hwon
    cases wins <;> simp at hwins hwon
  · refine ⟨a, .inl rfl, by rw [if_neg hwon], hself ha, fun h => hwon ?_⟩
    rw [hab, Std.OrientedOrd.eq_swap, ← hba, h, Ordering.swap_swap, if_neg hwins]

end

/-- The numeric order is that of the values; the total order is one, with equality for its ties,
that a sign turns around; and the family rounds an operand that bounds both. -/
theorem decimal_orders (a b c : Decimal) {ρ : Type} (fix : Decimal → ρ)
    (checkNans : Decimal → Decimal → ρ) :
    b.totalOrder a = (a.totalOrder b).swap ∧
      ((a.totalOrder b).isLE → (b.totalOrder c).isLE → (a.totalOrder c).isLE) ∧
      (a.totalOrder b = .eq ↔ a = b) ∧
      a.copyNegate.totalOrder b.copyNegate = (a.totalOrder b).swap ∧
      (a.nanKind = 0 → b.nanKind = 0 → a.cmpNumeric b = compare a.value b.value ∧
        (a.cmpNumeric b ≠ .eq → a.totalOrder b = a.cmpNumeric b) ∧
        (∃ x, (x = a ∨ x = b) ∧ a.max b fix checkNans = fix x ∧
          a.cmpNumeric x ≠ .gt ∧ b.cmpNumeric x ≠ .gt) ∧
        (∃ x, (x = a ∨ x = b) ∧ a.min b fix checkNans = fix x ∧
          a.cmpNumeric x ≠ .lt ∧ b.cmpNumeric x ≠ .lt) ∧
        (∃ x, (x = a ∨ x = b) ∧ a.maxMag b fix checkNans = fix x ∧
          a.copyAbs.cmpNumeric x.copyAbs ≠ .gt ∧ b.copyAbs.cmpNumeric x.copyAbs ≠ .gt) ∧
        ∃ x, (x = a ∨ x = b) ∧ a.minMag b fix checkNans = fix x ∧
          a.copyAbs.cmpNumeric x.copyAbs ≠ .lt ∧ b.copyAbs.cmpNumeric x.copyAbs ≠ .lt) := by
  refine ⟨Std.OrientedCmp.eq_swap, Std.TransCmp.isLE_trans, ⟨eq_of_totalOrder, ?_⟩,
    totalOrder_copyNegate a b, fun ha hb => ?_⟩
  · rintro rfl
    exact Std.ReflCmp.compare_self
  · have hpick := pick_spec ha hb fix checkNans
    exact ⟨cmpNumeric_eq ha hb, totalOrder_of_cmpNumeric ha hb, hpick false (by decide),
      hpick false (by decide), hpick true (by decide), hpick true (by decide)⟩

/-- The larger magnitude may be that of the smaller number. -/
theorem maxMag_below : ∃ a b : Decimal, a.nanKind = 0 ∧ b.nanKind = 0 ∧ b.cmpNumeric a = .gt ∧
    ∀ {ρ : Type} (fix : Decimal → ρ) checkNans, a.maxMag b fix checkNans = fix a :=
  ⟨⟨true, 3, 0, .finite, nofun, fun _ => rfl⟩,
    ⟨false, 2, 0, .finite, nofun, fun _ => rfl⟩, rfl, rfl, rfl, fun _ _ => rfl⟩

end Decimal

end Monty
