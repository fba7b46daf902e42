import Mathlib.Data.List.Lex
import Mathlib.Data.Rat.Floor

/-!
# The order of plain values

Python's `<` between values, as a sort asks it. Numbers that fit a machine word and strings are
compared without running any code of the guest's; what else there is answers for itself.

A float is what it denotes: a rational number, an infinity or no number at all. Comparing an
integer with a float is then comparing what they denote (`i64CmpF64_eq`), so that numbers are
totally ordered once there is no `NaN` among them.
-/

namespace Monty.Sorting

open Option

/-! ## Numbers -/

/-- What a float denotes. -/
inductive F64
  | nan
  | negInf
  | finite (q : ℚ)
  | posInf

/-- What a number other than `NaN` denotes. -/
abbrev Extended := WithBot (WithTop ℚ)

/-- A finite number. -/
def rational (q : ℚ) : Extended := ((q : WithTop ℚ) : Extended)

/-- The number a float denotes. -/
def F64.value : F64 → Option Extended
  | .nan => none
  | .negInf => some ⊥
  | .finite q => some (rational q)
  | .posInf => some ((⊤ : WithTop ℚ) : Extended)

/-- Compares two numbers if there are two. -/
def cmpValues : Option Extended → Option Extended → Option Ordering
  | some x, some y => some (cmp x y)
  | _, _ => none

/-- `f64::partial_cmp`. -/
def F64.partialCmp (a b : F64) : Option Ordering := cmpValues a.value b.value

/-- `f64::trunc`, towards zero. -/
def trunc (q : ℚ) : Int := if 0 ≤ q then ⌊q⌋ else ⌈q⌉

/-- Compares an integer with a float exactly. -/
def i64CmpF64 (a : Int64) : F64 → Option Ordering
  | .nan => none
  | .posInf => some .lt
  | .negInf => some .gt
  | .finite q =>
    if 2 ^ 63 ≤ q then some .lt
    else if q < -2 ^ 63 then some .gt
    else
      match cmp a.toInt (trunc q) with
      | .eq => some (cmp (q - trunc q) 0).swap
      | ord => some ord

theorem cmp_rational (x y : ℚ) : cmp (rational x) (rational y) = cmp x y :=
  (WithBot.coe_strictMono.comp WithTop.coe_strictMono).cmp_map_eq x y

theorem lt_of_lt_trunc {a : Int} {q : ℚ} (h : a < trunc q) : (a : ℚ) < q := by
  rw [trunc] at h
  split_ifs at h
  · exact (by exact_mod_cast h : (a : ℚ) < ⌊q⌋).trans_le (Int.floor_le q)
  · exact Int.lt_ceil.mp h

theorem lt_of_trunc_lt {a : Int} {q : ℚ} (h : trunc q < a) : q < a := by
  rw [trunc] at h
  split_ifs at h
  · exact Int.floor_lt.mp h
  · exact (Int.le_ceil q).trans_lt (by exact_mod_cast h)

/-- **An integer is compared with what the float denotes.** -/
theorem i64CmpF64_eq (a : Int64) (f : F64) :
    i64CmpF64 a f = cmpValues (some (rational a.toInt)) f.value := by
  cases f with
  | nan => rfl
  | negInf => exact congrArg some ((cmp_eq_gt_iff _ _).mpr (WithBot.bot_lt_coe _)).symm
  | posInf =>
    exact congrArg some ((cmp_eq_lt_iff _ _).mpr
      (WithBot.coe_lt_coe.mpr (WithTop.coe_lt_top _))).symm
  | finite q =>
    have hlt : (a.toInt : ℚ) < 2 ^ 63 := by exact_mod_cast a.toInt_lt
    have hle : (-2 ^ 63 : ℚ) ≤ a.toInt := by exact_mod_cast a.le_toInt
    rw [i64CmpF64, F64.value, cmpValues, cmp_rational]
    by_cases hbig : 2 ^ 63 ≤ q
    · rw [if_pos hbig, (cmp_eq_lt_iff _ _).mpr (hlt.trans_le hbig)]
    by_cases hsmall : q < -2 ^ 63
    · rw [if_neg hbig, if_pos hsmall, (cmp_eq_gt_iff _ _).mpr (hsmall.trans_le hle)]
    rw [if_neg hbig, if_neg hsmall]
    cases hcmp : cmp a.toInt (trunc q) with
    | lt => rw [(cmp_eq_lt_iff _ _).mpr (lt_of_lt_trunc ((cmp_eq_lt_iff _ _).mp hcmp))]
    | gt => rw [(cmp_eq_gt_iff _ _).mpr (lt_of_trunc_lt ((cmp_eq_gt_iff _ _).mp hcmp))]
    | eq => rw [(cmp_eq_eq_iff _ _).mp hcmp, cmp_sub_zero, cmp_swap]

/-- A number whose order needs no machine. -/
inductive Number
  | int (i : Int64)
  | float (f : F64)

def Number.isNan : Number → Bool
  | .float .nan => true
  | _ => false

/-- Python's exact numeric order; none when either side is `NaN`. -/
def Number.partialCmp : Number → Number → Option Ordering
  | .int a, .int b => some (cmp a.toInt b.toInt)
  | .float a, .float b => a.partialCmp b
  | .int a, .float b => i64CmpF64 a b
  | .float a, .int b => (i64CmpF64 b a).map Ordering.swap

/-- What a number denotes. -/
def Number.value : Number → Option Extended
  | .int i => some (rational i.toInt)
  | .float f => f.value

/-- **Numbers are compared by what they denote.** -/
theorem Number.partialCmp_eq (a b : Number) : a.partialCmp b = cmpValues a.value b.value := by
  cases a with
  | int a =>
    cases b with
    | int b =>
      rw [partialCmp, value, value, cmpValues, cmp_rational, Int.cast_strictMono.cmp_map_eq]
    | float b => exact i64CmpF64_eq a b
  | float a =>
    cases b with
    | int b =>
      rw [partialCmp, i64CmpF64_eq, value, value]
      cases a.value with
      | none => rfl
      | some x => exact congrArg some (cmp_swap _ _)
    | float b => rfl

theorem Number.exists_value {a : Number} (h : a.isNan = false) : ∃ x, a.value = some x := by
  rcases a with i | _ | _ | q | _
  · exact ⟨_, rfl⟩
  · exact absurd h (by decide)
  · exact ⟨_, rfl⟩
  · exact ⟨_, rfl⟩
  · exact ⟨_, rfl⟩

/-! ## Values -/

/-- The bytes of a string; strings compare by them. -/
abbrev Bytes := List (Fin 256)

/-- `str::cmp`. -/
def cmpBytes (a b : Bytes) : Ordering := cmp a b

theorem cmpBytes_eq_gt_iff (a b : Bytes) : cmpBytes a b = .gt ↔ b < a := by
  rw [cmpBytes, cmp, cmpUsing]
  split_ifs with hab hba
  · exact iff_of_false (by decide) (List.lt_asymm hab)
  · exact iff_of_true rfl hba
  · exact iff_of_false (by decide) hba

/-- A value, as far as sorting tells them apart. -/
inductive Value (Obj : Type)
  | int (i : Int64)
  | bool (b : Bool)
  | float (f : F64)
  | str (s : Bytes)
  | other (o : Obj)

variable {Obj VM Err : Type}

def Number.of : Value Obj → Option Number
  | .int i => some (.int i)
  | .bool b => some (.int (if b then 1 else 0))
  | .float f => some (.float f)
  | _ => none

/-- The text of a `str` value. -/
def strOf : Value Obj → Option Bytes
  | .str s => some s
  | _ => none

/-- What a sort asks of the machine. -/
structure Machine (VM Err Obj : Type) where
  /-- The time check, made every so many comparisons; a limit that is exceeded is an error. -/
  checkTimeEvery : Nat → VM → Option Err
  /-- `<` between values that are neither two numbers nor two strings. -/
  cmpValues : Value Obj → Value Obj → VM → Except Err Bool × VM
  /-- Calls a key function. -/
  evaluateFunction : Value Obj → Value Obj → VM → Except Err (Value Obj) × VM

/-- Python's `a < b`, the only comparison a sort makes. -/
def pyLt (m : Machine VM Err Obj) (a b : Value Obj) (vm : VM) : Except Err Bool × VM :=
  match a, b with
  | .int a, .int b => (.ok (decide (a.toInt < b.toInt)), vm)
  | .float a, .float b => (.ok (a.partialCmp b == some .lt), vm)
  | a, b =>
    match Number.of a, Number.of b with
    | some a, some b => (.ok (a.partialCmp b == some .lt), vm)
    | _, _ =>
      match strOf a, strOf b with
      | some a, some b => (.ok (decide (a < b)), vm)
      | _, _ => m.cmpValues a b vm

theorem pyLt_numbers (m : Machine VM Err Obj) {a b : Value Obj} {x y : Number}
    (ha : Number.of a = some x) (hb : Number.of b = some y) (vm : VM) :
    pyLt m a b vm = (.ok (x.partialCmp y == some .lt), vm) := by
  have hint (i j : Int64) : decide (i.toInt < j.toInt) =
      ((Number.int i).partialCmp (.int j) == some .lt) := by
    rw [Bool.eq_iff_iff, decide_eq_true_iff, beq_iff_eq, Number.partialCmp, some.injEq,
      cmp_eq_lt_iff]
  rcases a with i | i | f | s | o <;> rcases b with j | j | g | s' | o' <;> cases ha <;> cases hb
  · rw [pyLt, hint]
  all_goals rfl

theorem pyLt_strs (m : Machine VM Err Obj) {a b : Value Obj} {x y : Bytes} (ha : strOf a = some x)
    (hb : strOf b = some y) (vm : VM) : pyLt m a b vm = (.ok (decide (x < y)), vm) := by
  cases a with
  | str s =>
    cases b with
    | str s' =>
      obtain rfl := some.inj ha
      obtain rfl := some.inj hb
      rfl
    | _ => exact absurd hb (by simp [strOf])
  | _ => exact absurd ha (by simp [strOf])

/-! ## Total orders -/

/-- Kinds of elements whose `<` is a total order that runs no code and cannot raise. -/
inductive TotalOrder
  | numbers
  | strs
  deriving DecidableEq

/-- Longer strings are sorted with time checks. -/
def maxFastStrLen : Nat := 256

namespace TotalOrder

/-- The element may be compared as one of its kind. -/
def accepts : TotalOrder → Value Obj → Bool
  | numbers, v => (Number.of v).any fun n => !n.isNan
  | strs, v => (strOf v).any fun s => s.length ≤ maxFastStrLen

def of (values : List (Value Obj)) : Option TotalOrder :=
  match values with
  | [] => none
  | first :: _ =>
    if (Number.of first).isSome then
      if values.all numbers.accepts then some numbers else none
    else if values.all strs.accepts then some strs else none

/-- Compares two elements. -/
def cmp (order : TotalOrder) (a b : Value Obj) : Ordering :=
  let ordering :=
    match order with
    | numbers =>
      match Number.of a, Number.of b with
      | some a, some b => a.partialCmp b
      | _, _ => none
    | strs =>
      match strOf a, strOf b with
      | some a, some b => some (cmpBytes a b)
      | _, _ => none
  ordering.getD .eq

variable {order : TotalOrder}

theorem accepts_of_of {values : List (Value Obj)} (h : of values = some order)
    {v : Value Obj} (hv : v ∈ values) : order.accepts v = true := by
  cases values with
  | nil => cases h
  | cons first values =>
    simp only [of] at h
    split_ifs at h with _ hall hall <;> cases h
    · exact List.all_eq_true.mp hall v hv
    · exact List.all_eq_true.mp hall v hv

/-- **The total order is Python's**: of two elements it accepts the first comes after the second
just if the second is less. -/
theorem pyLt_of_accepts {a b : Value Obj} (ha : order.accepts a = true)
    (hb : order.accepts b = true) (m : Machine VM Err Obj) (vm : VM) :
    (pyLt m b a vm).1 = .ok (order.cmp a b == .gt) := by
  cases order with
  | numbers =>
    obtain ⟨x, hx, hxnan⟩ := (any_eq_true _ _).mp ha
    obtain ⟨y, hy, hynan⟩ := (any_eq_true _ _).mp hb
    obtain ⟨x', hx'⟩ := Number.exists_value (by simpa using hxnan)
    obtain ⟨y', hy'⟩ := Number.exists_value (by simpa using hynan)
    rw [pyLt_numbers m hy hx, cmp, hx, hy]
    dsimp only
    rw [Number.partialCmp_eq, Number.partialCmp_eq, hx', hy', cmpValues, cmpValues,
      getD_some, Except.ok.injEq, Bool.eq_iff_iff, beq_iff_eq, beq_iff_eq,
      some.injEq, cmp_eq_lt_iff, cmp_eq_gt_iff]
  | strs =>
    obtain ⟨x, hx, -⟩ := (any_eq_true _ _).mp ha
    obtain ⟨y, hy, -⟩ := (any_eq_true _ _).mp hb
    rw [pyLt_strs m hy hx, cmp, hx, hy]
    rw [getD_some, Except.ok.injEq, Bool.eq_iff_iff, decide_eq_true_iff, beq_iff_eq,
      cmpBytes_eq_gt_iff]

end TotalOrder

end Monty.Sorting
