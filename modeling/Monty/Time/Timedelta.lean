import Mathlib.Algebra.Group.Int.Defs
import Mathlib.Algebra.Group.Nat.Defs
import Monty.Lib.Division
import Monty.Lib.Fallible
import Monty.Lib.MachineInt

/-!
# `datetime.timedelta`

A timedelta is kept as a `chrono::TimeDelta`, seconds and nanoseconds. Its arithmetic is done on
microseconds, in 128 bits, and Python is shown days, seconds and microseconds. A step of the
machine whose result does not fit and an `expect` that fails are `Failure.panicked`.

What is assumed of `chrono` are the laws of `Chrono`: there are durations for all seconds and
nanoseconds that a timedelta may have, and a duration is read as it was made.

The bounds are on the days, rounded down, so there is one part of a day more above than below. What
an operator owes is said once (`Exact`): the timedelta of the exact count, or `OverflowError` if
there is none. Sums with dates are left out, and so is the value of a quotient of two timedeltas as
a float.
-/

namespace Monty.Time

open Fallible Division Int MachineInt

/-- What an operation fails with. -/
inductive Failure
  | overflowError (message : String)
  | zeroDivisionError
  | panicked
  deriving DecidableEq, Repr

/-- A result that must be an `i32`. -/
def i32 (n : Int) : Except Failure Int := narrow .panicked 31 n

/-- A result that must be an `i128`. -/
def i128 (n : Int) : Except Failure Int := narrow .panicked 127 n

theorem i32_of_bounds {n : Int} (hlo : -2 ^ 31 ≤ n) (hhi : n < 2 ^ 31) : i32 n = .ok n :=
  narrow_of_fits ⟨hlo, hhi⟩

theorem i128_of_bounds {n : Int} (hlo : -2 ^ 127 ≤ n) (hhi : n < 2 ^ 127) : i128 n = .ok n :=
  narrow_of_fits ⟨hlo, hhi⟩

/-! ## Representations -/

/-- **`chrono::TimeDelta`**, as far as it is used: durations of whole nanoseconds, made of seconds
and nanoseconds, and read as seconds and the nanoseconds that are left, both of the sign of the
whole. -/
class Chrono (δ : Type) where
  new : Int → Int → Option δ
  numSeconds : δ → Int
  subsecNanos : δ → Int
  /-- A duration is what is read from it. -/
  ext : ∀ {x y : δ}, numSeconds x = numSeconds y → subsecNanos x = subsecNanos y → x = y
  /-- There is a duration for everything that a timedelta may be. -/
  exists_new : ∀ {secs nanos : Int}, secs.natAbs ≤ 86400000000000 → 0 ≤ nanos → nanos < 1000000000 →
    ∃ x, new secs nanos = some x
  nanos_new : ∀ {secs nanos : Int} {x : δ}, new secs nanos = some x →
    numSeconds x * 1000000000 + subsecNanos x = secs * 1000000000 + nanos
  subsecNanos_lt : ∀ x : δ, (subsecNanos x).natAbs < 1000000000
  sign : ∀ x : δ, (0 < subsecNanos x → 0 ≤ numSeconds x) ∧ (subsecNanos x < 0 → numSeconds x ≤ 0)

/-- A count of microseconds within `MIN_TIMEDELTA_DAYS` and `MAX_TIMEDELTA_DAYS`. -/
def InRange (total : Int) : Prop :=
  -999999999 ≤ total / 86400000000 ∧ total / 86400000000 ≤ 999999999

instance (total : Int) : Decidable (InRange total) := inferInstanceAs (Decidable (_ ∧ _))

variable {δ : Type} [Chrono δ]

open Chrono

/-- The microseconds of a duration. -/
def chronoMicros (x : δ) : Int := numSeconds x * 1000000 + subsecNanos x / 1000

/-- A timedelta: whole microseconds, as many as the bounds allow. -/
structure TimeDelta (δ : Type) [Chrono δ] where
  chrono : δ
  whole : subsecNanos chrono % 1000 = 0
  inRange : InRange (chronoMicros chrono)

/-- The microseconds of a timedelta, without a machine. -/
def TimeDelta.micros (delta : TimeDelta δ) : Int := chronoMicros delta.chrono

theorem new_spec {total : Int} {x : δ}
    (h : new (total / 1000000) (total % 1000000 * 1000) = some x) :
    subsecNanos x % 1000 = 0 ∧ chronoMicros x = total := by
  have hnanos := nanos_new h
  rw [chronoMicros]
  omega

/-- The count of a timedelta. -/
def totalMicroseconds (delta : TimeDelta δ) : Except Failure Int := do
  let seconds := numSeconds delta.chrono
  let microseconds := (subsecNanos delta.chrono).tdiv 1000
  i128 ((← i128 (seconds * 1000000)) + microseconds)

/-- What is raised for too many days. -/
def daysError (days : Int) : Failure :=
  .overflowError s!"days={days}; must have magnitude <= 999999999"

/-- What is raised if there is no duration. -/
def outOfRange : Failure := .overflowError "timedelta value out of range"

/-- The timedelta of a count. -/
def fromTotalMicroseconds (total : Int) : Except Failure (TimeDelta δ) :=
  if hrange : InRange total then
    let seconds := total / 1000000
    let nanos := total % 1000000 * 1000
    if ¬ Fits 63 seconds then .error outOfRange
    else if ¬ (0 ≤ nanos ∧ nanos < 2 ^ 32) then .error .panicked
    else
      match hnew : new seconds nanos with
      | none => .error outOfRange
      | some x => .ok ⟨x, (new_spec hnew).1, (new_spec hnew).2 ▸ hrange⟩
  else .error (daysError (total / 86400000000))

/-- Days, seconds and microseconds. -/
def components (delta : TimeDelta δ) : Except Failure (Int × Int × Int) := do
  let total ← totalMicroseconds delta
  let rem := total % 86400000000
  return (← i32 (total / 86400000000), ← i32 (rem / 1000000), ← i32 (rem % 1000000))

open TimeDelta

section

variable (a : TimeDelta δ) {t : Int}

theorem TimeDelta.micros_lt : a.micros.natAbs < 2 ^ 126 := by
  obtain ⟨hlo, hhi⟩ := a.inRange
  rw [micros]
  omega

theorem totalMicroseconds_eq : totalMicroseconds a = .ok a.micros := by
  have hwhole := a.whole
  obtain ⟨hlo, hhi⟩ := a.inRange
  have hsub := subsecNanos_lt a.chrono
  rw [chronoMicros] at hlo hhi
  rw [totalMicroseconds, micros, chronoMicros]
  -- No nanosecond is left when they are divided.
  rw [tdiv_eq_ediv_of_dvd (by omega), i128_of_bounds (by omega) (by omega), ok_bind]
  exact i128_of_bounds (by omega) (by omega)

/-- Both parts have the sign of the whole, so the count determines them. -/
theorem TimeDelta.ext_micros {a b : TimeDelta δ} (h : a.micros = b.micros) : a = b := by
  obtain ⟨x, hx, hxr⟩ := a
  obtain ⟨y, hy, hyr⟩ := b
  have hx' := subsecNanos_lt x
  have hy' := subsecNanos_lt y
  obtain ⟨hxpos, hxneg⟩ := sign x
  obtain ⟨hypos, hyneg⟩ := sign y
  simp only [micros, chronoMicros] at h
  obtain rfl : x = y := Chrono.ext (by omega) (by omega)
  rfl

theorem exists_fromTotalMicroseconds (h : InRange t) :
    ∃ delta : TimeDelta δ, fromTotalMicroseconds t = .ok delta ∧ delta.micros = t := by
  obtain ⟨hlo, hhi⟩ := h
  obtain ⟨x, hx⟩ : ∃ x : δ, new (t / 1000000) (t % 1000000 * 1000) = some x :=
    exists_new (by omega) (by omega) (by omega)
  refine ⟨⟨x, (new_spec hx).1, (new_spec hx).2 ▸ ⟨hlo, hhi⟩⟩, ?_, (new_spec hx).2⟩
  rw [fromTotalMicroseconds, dif_pos ⟨hlo, hhi⟩]
  simp only
  rw [if_neg (not_not_intro ⟨by omega, by omega⟩), if_neg (not_not_intro ⟨by omega, by omega⟩)]
  split
  next hnone => exact nomatch hnone.symm.trans hx
  next y hy =>
    obtain rfl : y = x := Option.some.inj (hy.symm.trans hx)
    rfl

theorem fromTotalMicroseconds_micros : fromTotalMicroseconds a.micros = .ok a := by
  obtain ⟨delta, hdelta, hmicros⟩ := exists_fromTotalMicroseconds (δ := δ) a.inRange
  rw [micros, hdelta, ext_micros hmicros]

/-- Days, seconds and microseconds that make up a count, as Python has them. -/
structure IsComponents (total days seconds micros : Int) : Prop where
  seconds_range : 0 ≤ seconds ∧ seconds < 86400
  micros_range : 0 ≤ micros ∧ micros < 1000000
  sum : days * 86400000000 + seconds * 1000000 + micros = total

theorem components_eq : ∃ days seconds micros, components a = .ok (days, seconds, micros) ∧
    ∀ d s m, IsComponents a.micros d s m ↔ d = days ∧ s = seconds ∧ m = micros := by
  obtain ⟨hlo, hhi⟩ : InRange a.micros := a.inRange
  refine ⟨a.micros / 86400000000, a.micros % 86400000000 / 1000000,
    a.micros % 86400000000 % 1000000, ?_, fun d s m => ⟨fun ⟨hs, hm, hsum⟩ => by omega, ?_⟩⟩
  · simp only [components, totalMicroseconds_eq, ok_bind]
    rw [i32_of_bounds (by omega) (by omega), i32_of_bounds (by omega) (by omega),
      i32_of_bounds (by omega) (by omega)]
    rfl
  · rintro ⟨rfl, rfl, rfl⟩
    exact ⟨by omega, by omega, by omega⟩

end

/-! ## Division -/

/-- The nearest quotient of two magnitudes, the even one of two. -/
def roundTiesEven (numerator denominator : Int) : Except Failure Int := do
  let quotient := numerator / denominator
  let remainder := numerator % denominator
  match compare (← i128 (remainder * 2)) denominator with
  | .lt => return quotient
  | .gt => i128 (quotient + 1)
  | .eq => if quotient % 2 = 0 then return quotient else i128 (quotient + 1)

/-- The nearest quotient. -/
def divMicrosecondsRoundTiesEven (total divisor : Int) : Except Failure Int := do
  if divisor = 0 then .error .panicked
  else
    let rounded ← roundTiesEven (← i128 total.natAbs) (← i128 divisor.natAbs)
    if ¬ (total < 0 ↔ divisor < 0) then i128 (-rounded) else return rounded

/-- Division as Python has it, from division towards zero. -/
def floorDivRem (total divisor : Int) : Except Failure (Int × Int) := do
  if divisor = 0 then .error .panicked
  else
    let quotient ← i128 (total.tdiv divisor)
    let remainder := total.tmod divisor
    if remainder ≠ 0 ∧ ¬ (remainder < 0 ↔ divisor < 0) then
      return (← i128 (quotient - 1), ← i128 (remainder + divisor))
    else return (quotient, remainder)

section

variable {n d t : Int}

theorem roundTiesEven_eq (hn : 0 ≤ n) (hn' : n < 2 ^ 126) (hd : 0 < d) (hd' : d < 2 ^ 126) :
    ∃ q, roundTiesEven n d = .ok q ∧ Halves n d q ∧ 0 ≤ q ∧ q ≤ n + 1 := by
  have hsum := emod_add_ediv_mul n d
  have hlt := emod_lt_of_pos n hd
  have hrem := emod_nonneg n hd.ne'
  have hquot := ediv_nonneg hn hd.le
  have hle := ediv_le_self d hn
  have hsucc : (n / d + 1) * d = n / d * d + d := by rw [Int.add_mul, Int.one_mul]
  have hup : i128 (n / d + 1) = .ok (n / d + 1) := i128_of_bounds (by omega) (by omega)
  simp only [roundTiesEven, i128_of_bounds (n := n % d * 2) (by omega) (by omega), ok_bind, hup]
  rcases lt_trichotomy (n % d * 2) d with h | h | h
  · exact ⟨n / d, by rw [compare_lt_iff_lt.mpr h]; rfl, ⟨by omega, by omega⟩, hquot, by omega⟩
  · rw [compare_eq_iff_eq.mpr h]
    by_cases heven : n / d % 2 = 0
    · exact ⟨n / d, if_pos heven, ⟨by omega, by omega⟩, hquot, by omega⟩
    · exact ⟨n / d + 1, if_neg heven, ⟨by omega, by omega⟩, by omega, by omega⟩
  · exact ⟨n / d + 1, by rw [compare_gt_iff_gt.mpr h], ⟨by omega, by omega⟩, by omega, by omega⟩

theorem divMicrosecondsRoundTiesEven_eq (ht : t.natAbs < 2 ^ 126) (hd : d ≠ 0)
    (hd' : d.natAbs < 2 ^ 126) :
    ∃ q, divMicrosecondsRoundTiesEven t d = .ok q ∧ NearestEven t d q := by
  obtain ⟨q, hq, hhalves, hpos, hle⟩ := roundTiesEven_eq (n := t.natAbs) (d := d.natAbs)
    (by omega) (by omega) (by omega) (by omega)
  refine ⟨_, ?_, hhalves.of_natAbs.nearestEven⟩
  rw [divMicrosecondsRoundTiesEven, if_neg hd, i128_of_bounds (by omega) (by omega), ok_bind,
    i128_of_bounds (by omega) (by omega), ok_bind, hq, ok_bind,
    i128_of_bounds (by omega) (by omega)]
  split_ifs <;> rfl

theorem floorDivRem_eq (ht : t.natAbs < 2 ^ 126) (hd : d ≠ 0) (hd' : Fits 127 d) :
    floorDivRem t d = .ok (t.fdiv d, t.fmod d) := by
  have hsum := tmod_add_tdiv_mul t d
  have hsmall : (t.tmod d).natAbs < d.natAbs := by
    rw [natAbs_tmod]
    exact Nat.mod_lt _ (natAbs_pos.mpr hd)
  have hle := natAbs_tdiv_le_natAbs t d
  have hpred : (t.tdiv d - 1) * d = t.tdiv d * d - d := by rw [Int.sub_mul, Int.one_mul]
  obtain ⟨hlo, hhi⟩ := hd'
  rw [floorDivRem, if_neg hd, i128_of_bounds (by omega) (by omega), ok_bind]
  by_cases hadjust : t.tmod d ≠ 0 ∧ ¬ (t.tmod d < 0 ↔ d < 0)
  · rw [if_pos hadjust, i128_of_bounds (by omega) (by omega), ok_bind,
      i128_of_bounds (by omega) (by omega), ok_bind]
    have hdiv : FloorDivides t d (t.tdiv d - 1) (t.tmod d + d) := ⟨by omega, by omega, by omega⟩
    rw [(hdiv.eq_fdiv hd).1, (hdiv.eq_fdiv hd).2]
    rfl
  · rw [if_neg hadjust]
    have hdiv : FloorDivides t d (t.tdiv d) (t.tmod d) := ⟨by omega, hsmall, by omega⟩
    rw [(hdiv.eq_fdiv hd).1, (hdiv.eq_fdiv hd).2]
    rfl

end

/-! ## Operators -/

/-- The operands and the results. -/
inductive Value (δ : Type) [Chrono δ]
  | int (value : Int)
  | bool (value : Bool)
  | longInt (value : Int)
  | timeDelta (delta : TimeDelta δ)
  /-- The float next to a quotient. -/
  | ratio (num den : Int)
  | tuple (fst snd : Value δ)

/-- `None` leaves the operation to the other operand. -/
abbrev Answer (δ : Type) [Chrono δ] := Except Failure (Option (Value δ))

/-- The timedelta of a count, allocated. -/
def allocated (total : Int) : Answer δ := do
  return some (.timeDelta (← fromTotalMicroseconds total))

/-- Allocation of a count that must be in range. -/
def allocateMicros (total : Int) : Except Failure (Value δ) :=
  match fromTotalMicroseconds total with
  | .ok delta => .ok (.timeDelta delta)
  | .error _ => .error .panicked

/-- An integer, long if it has to be. -/
def intFromMicroseconds (quotient : Int) : Value δ :=
  if Fits 63 quotient then .int quotient else .longInt quotient

/-- The count of a timedelta that is divided by. -/
def rhsMicroseconds : Value δ → Except Failure (Option Int)
  | .timeDelta rhs => do
    let total ← totalMicroseconds rhs
    if total = 0 then .error .zeroDivisionError else return some total
  | _ => return none

/-- The integer that `/` and `//` divide by. -/
def intDivisor : Value δ → Except Failure (Option Int)
  | .int 0 | .bool false => .error .zeroDivisionError
  | .int value => return some value
  | .bool true => return some 1
  | _ => return none

section

variable (self : TimeDelta δ)

/-- `abs(self)`. -/
def pyAbsImpl : Answer δ := do allocated (← i128 (← totalMicroseconds self).natAbs)

/-- `-self`. -/
def pyNegImpl : Answer δ := do allocated (← i128 (-(← totalMicroseconds self)))

/-- `self + other`. -/
def pyAddImpl : Value δ → Answer δ
  | .timeDelta other => do
    allocated (← i128 ((← totalMicroseconds self) + (← totalMicroseconds other)))
  | _ => return none

/-- `self - other`. -/
def pySubImpl : Value δ → Answer δ
  | .timeDelta other => do
    allocated (← i128 ((← totalMicroseconds self) - (← totalMicroseconds other)))
  | _ => return none

variable (other : Value δ)

/-- `self * other`. -/
def pyMulImpl : Answer δ := do
  let multiplier := match other with
    | .int value => some value
    | .bool value => some (value.toNat : Int)
    | _ => none
  match multiplier with
  | none => return none
  | some multiplier =>
    let total := (← totalMicroseconds self) * multiplier
    if Fits 127 total then allocated total
    else .error (.overflowError "timedelta multiplication overflow")

/-- `self / other`. -/
def pyTruedivImpl : Answer δ := do
  match ← rhsMicroseconds other with
  | some rhs => return some (.ratio (← totalMicroseconds self) rhs)
  | none =>
    match ← intDivisor other with
    | none => return none
    | some divisor => allocated (← divMicrosecondsRoundTiesEven (← totalMicroseconds self) divisor)

/-- `self // other`. -/
def pyFloordivImpl : Answer δ := do
  match ← rhsMicroseconds other with
  | some rhs => return some (intFromMicroseconds (← floorDivRem (← totalMicroseconds self) rhs).1)
  | none =>
    match ← intDivisor other with
    | none => return none
    | some divisor => allocated (← floorDivRem (← totalMicroseconds self) divisor).1

/-- `self % other`. -/
def pyModImpl : Answer δ := do
  match ← rhsMicroseconds other with
  | some rhs => allocated (← floorDivRem (← totalMicroseconds self) rhs).2
  | none => return none

/-- `divmod(self, other)`. -/
def pyDivmodImpl : Answer δ := do
  match ← rhsMicroseconds other with
  | some rhs =>
    let (quotient, remainder) ← floorDivRem (← totalMicroseconds self) rhs
    return some (.tuple (intFromMicroseconds quotient) (← allocateMicros remainder))
  | none => return none

end

/-- What arithmetic owes: the timedelta of the exact count if there is one, `OverflowError` if
not. -/
inductive Exact (t : Int) : Answer δ → Prop
  | ok {delta : TimeDelta δ} (h : totalMicroseconds delta = .ok t) :
    Exact t (.ok (some (.timeDelta delta)))
  | overflow {message : String} (h : ¬ InRange t) : Exact t (.error (.overflowError message))

section Exact

variable (a b : TimeDelta δ) {t k : Int}

theorem exact_allocated : Exact t (allocated t : Answer δ) := by
  by_cases h : InRange t
  · obtain ⟨delta, hdelta, hmicros⟩ := exists_fromTotalMicroseconds (δ := δ) h
    rw [allocated, hdelta]
    exact .ok (by rw [totalMicroseconds_eq, hmicros])
  · rw [allocated, fromTotalMicroseconds, dif_neg h]
    exact .overflow h

theorem exact_allocated_i128 (h : t.natAbs < 2 ^ 127) :
    Exact t (i128 t >>= allocated : Answer δ) := by
  rw [i128_of_bounds (by omega) (by omega)]
  exact exact_allocated

theorem exact_mul : Exact (a.micros * k) (pyMulImpl a (.int k)) := by
  simp only [pyMulImpl, totalMicroseconds_eq, ok_bind]
  split_ifs with h
  · exact exact_allocated
  · exact .overflow fun ⟨hlo, hhi⟩ => h ⟨by omega, by omega⟩

theorem intDivisor_int (hk : k ≠ 0) : intDivisor (.int k : Value δ) = .ok (some k) := by
  rw [intDivisor]
  · rfl
  · exact hk

theorem rhsMicroseconds_eq (hb : b.micros ≠ 0) :
    rhsMicroseconds (.timeDelta b) = .ok (some b.micros) := by
  rw [rhsMicroseconds, totalMicroseconds_eq, ok_bind, if_neg hb]
  rfl

/-- A remainder is between zero and the divisor. -/
theorem inRange_of_floorDivides {q r : Int} (h : FloorDivides t b.micros q r) : InRange r := by
  obtain ⟨hlo, hhi⟩ : InRange b.micros := b.inRange
  obtain ⟨-, hsmall, hsign⟩ := h
  exact ⟨by omega, by omega⟩

theorem truediv_int (hk : k ≠ 0) (hfits : Fits 63 k) :
    ∃ q, NearestEven a.micros k q ∧ Exact q (pyTruedivImpl a (.int k)) := by
  obtain ⟨hlo, hhi⟩ := hfits
  obtain ⟨q, hq, hnear⟩ := divMicrosecondsRoundTiesEven_eq a.micros_lt hk (by omega)
  refine ⟨q, hnear, ?_⟩
  simp only [pyTruedivImpl, rhsMicroseconds, pure_bind, intDivisor_int hk, totalMicroseconds_eq,
    ok_bind, hq]
  exact exact_allocated

theorem floordiv_int (hk : k ≠ 0) (hfits : Fits 63 k) :
    Exact (a.micros.fdiv k) (pyFloordivImpl a (.int k)) := by
  obtain ⟨hlo, hhi⟩ := hfits
  simp only [pyFloordivImpl, rhsMicroseconds, pure_bind, intDivisor_int hk, totalMicroseconds_eq,
    ok_bind, floorDivRem_eq a.micros_lt hk ⟨by omega, by omega⟩]
  exact exact_allocated

/-- Dividing by a timedelta: its remainder is always one. -/
theorem divmod_eq (hb : b.micros ≠ 0) : ∃ q r, FloorDivides a.micros b.micros q (micros r) ∧
    pyFloordivImpl a (.timeDelta b) = .ok (some (intFromMicroseconds q)) ∧
    pyModImpl a (.timeDelta b) = .ok (some (.timeDelta r)) ∧
    pyDivmodImpl a (.timeDelta b) = .ok (some (.tuple (intFromMicroseconds q) (.timeDelta r))) := by
  have hlt := b.micros_lt
  have hdiv := floorDivides_fdiv (t := a.micros) hb
  obtain ⟨r, hr, hmicros⟩ := exists_fromTotalMicroseconds (δ := δ) (inRange_of_floorDivides b hdiv)
  have hfloor := floorDivRem_eq a.micros_lt hb ⟨by omega, by omega⟩
  refine ⟨_, r, by rwa [hmicros], ?_, ?_, ?_⟩
  all_goals
    simp only [pyFloordivImpl, pyModImpl, pyDivmodImpl, rhsMicroseconds_eq b hb,
      totalMicroseconds_eq, ok_bind, hfloor, allocated, allocateMicros, hr]
    rfl

/-- **The arithmetic of timedeltas is exact.** Counts and components stand for one timedelta each.
Every operator gives the timedelta of the exact result, for `/` the nearest microsecond, or
`OverflowError` if that is none, and no step of the machine overflows. Dividing by a timedelta
leaves a remainder that is one. -/
theorem timedelta_arithmetic_exact (hk : Fits 63 k) :
    ∃ t u, totalMicroseconds a = .ok t ∧ totalMicroseconds b = .ok u ∧ InRange t ∧
      fromTotalMicroseconds t = .ok a ∧
      (∃ days seconds micros, components a = .ok (days, seconds, micros) ∧
        ∀ d s m, IsComponents t d s m ↔ d = days ∧ s = seconds ∧ m = micros) ∧
      Exact (t + u) (pyAddImpl a (.timeDelta b)) ∧ Exact (t - u) (pySubImpl a (.timeDelta b)) ∧
      Exact (-t) (pyNegImpl a) ∧ Exact t.natAbs (pyAbsImpl a) ∧
      Exact (t * k) (pyMulImpl a (.int k)) ∧ (k ≠ 0 → Exact (t.fdiv k) (pyFloordivImpl a (.int k)) ∧
        ∃ q, NearestEven t k q ∧ Exact q (pyTruedivImpl a (.int k))) ∧
      (k = 0 → pyFloordivImpl a (.int k) = .error .zeroDivisionError ∧
        pyTruedivImpl a (.int k) = .error .zeroDivisionError) ∧
      (∀ d ≠ 0, Fits 127 d → ∃ q r, floorDivRem t d = .ok (q, r) ∧ FloorDivides t d q r) ∧
      (u ≠ 0 → ∃ q r,
        pyDivmodImpl a (.timeDelta b) = .ok (some (.tuple (intFromMicroseconds q) (.timeDelta r))) ∧
        ∃ m, totalMicroseconds r = .ok m ∧ FloorDivides t u q m) := by
  have ha := a.micros_lt
  have hb := b.micros_lt
  refine ⟨a.micros, b.micros, totalMicroseconds_eq a, totalMicroseconds_eq b, a.inRange,
    fromTotalMicroseconds_micros a, components_eq a, ?_, ?_, ?_, ?_, exact_mul a,
    fun hne => ⟨floordiv_int a hne hk, truediv_int a hne hk⟩, ?_,
    fun d hd hfits => ⟨_, _, floorDivRem_eq ha hd hfits, floorDivides_fdiv hd⟩, fun hne => ?_⟩
  · rw [pyAddImpl, totalMicroseconds_eq, ok_bind, totalMicroseconds_eq, ok_bind]
    exact exact_allocated_i128 (by omega)
  · rw [pySubImpl, totalMicroseconds_eq, ok_bind, totalMicroseconds_eq, ok_bind]
    exact exact_allocated_i128 (by omega)
  · rw [pyNegImpl, totalMicroseconds_eq, ok_bind]
    exact exact_allocated_i128 (by omega)
  · rw [pyAbsImpl, totalMicroseconds_eq, ok_bind]
    exact exact_allocated_i128 (by omega)
  · rintro rfl
    exact ⟨rfl, rfl⟩
  · obtain ⟨q, r, hdiv, -, -, hdivmod⟩ := divmod_eq a b hne
    exact ⟨q, r, hdivmod, _, totalMicroseconds_eq r, hdiv⟩

end Exact

/-! ## Durations -/

/-- Seconds, rounded down, and the nanoseconds after them. -/
structure ChronoTimeDelta where
  secs : Int
  nanos : Int
  subsec : 0 ≤ nanos ∧ nanos < 1000000000

/-- Durations up to `i64::MAX` milliseconds either way. -/
instance : Chrono ChronoTimeDelta where
  new secs nanos :=
    if h : (0 ≤ nanos ∧ nanos < 1000000000) ∧ -9223372036854775807000000 ≤
        secs * 1000000000 + nanos ∧
        secs * 1000000000 + nanos ≤ 9223372036854775807000000 then some ⟨secs, nanos, h.1⟩
    else none
  numSeconds x := if x.secs < 0 ∧ 0 < x.nanos then x.secs + 1 else x.secs
  subsecNanos x := if x.secs < 0 ∧ 0 < x.nanos then x.nanos - 1000000000 else x.nanos
  ext := by
    rintro ⟨secs, nanos, hx⟩ ⟨secs', nanos', hy⟩ hsecs hnanos
    dsimp only at hsecs hnanos
    obtain ⟨rfl, rfl⟩ : secs = secs' ∧ nanos = nanos' := by split_ifs at hsecs hnanos <;> omega
    rfl
  exists_new hsecs hnonneg hlt := ⟨_, dif_pos ⟨⟨hnonneg, hlt⟩, by omega, by omega⟩⟩
  nanos_new h := by
    split_ifs at h with hfits
    cases h
    dsimp only
    split_ifs <;> omega
  subsecNanos_lt x := by
    have := x.subsec
    split_ifs <;> omega
  sign x := by
    have := x.subsec
    split_ifs <;> omega

/-- `timedelta.max`. -/
def maxTimedelta : TimeDelta ChronoTimeDelta :=
  ⟨⟨86399999999999, 999999000, by decide⟩, by decide, by decide⟩

theorem totalMicroseconds_max : totalMicroseconds maxTimedelta = .ok 86399999999999999999 := rfl

/-- There is one part of a day more above than below, so that the quotient by `-1` may be out of
range. -/
theorem max_truediv_neg_one : Fits 63 (-1) ∧
    pyTruedivImpl maxTimedelta (.int (-1)) = .error (daysError (-1000000000)) := by
  have hdiv : divMicrosecondsRoundTiesEven 86399999999999999999 (-1) =
      .ok (-86399999999999999999) := by
    decide
  have hnot : ¬ InRange (-86399999999999999999) := by decide
  simp only [pyTruedivImpl, rhsMicroseconds, pure_bind, intDivisor_int (k := -1) (by decide),
    totalMicroseconds_max, ok_bind, hdiv, allocated, fromTotalMicroseconds, dif_neg hnot]
  exact ⟨by decide, rfl⟩

theorem timedelta_arithmetic_exact_max : Fits 63 2 ∧
    totalMicroseconds maxTimedelta = .ok 86399999999999999999 ∧
    Exact (86399999999999999999 * 2) (pyMulImpl maxTimedelta (.int 2)) := by
  obtain ⟨t, u, ht, -, -, -, -, -, -, -, -, hmul, -⟩ :=
    timedelta_arithmetic_exact maxTimedelta maxTimedelta (k := 2) (by decide)
  obtain rfl : t = 86399999999999999999 := Except.ok.inj (ht.symm.trans totalMicroseconds_max)
  exact ⟨by decide, totalMicroseconds_max, hmul⟩

end Monty.Time
