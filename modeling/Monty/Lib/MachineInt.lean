import Mathlib.Algebra.GroupWithZero.Nat
import Mathlib.Algebra.Ring.Int.Defs
import Mathlib.Tactic.SplitIfs
import Mathlib.Tactic.TypeStar

/-!
# Integers of a machine

The integers that a signed type holds, arithmetic that is refused when its result is none of them,
and the largest numbers of some types. The width of a pointer is a parameter of what uses it.
-/

namespace MachineInt

/-- The integers of so many bits and a sign. -/
def Fits (bits : Nat) (n : Int) : Prop := -2 ^ bits ≤ n ∧ n < 2 ^ bits

instance (bits : Nat) (n : Int) : Decidable (Fits bits n) := inferInstanceAs (Decidable (_ ∧ _))

/-- A result that must fit, and the failure if it does not. -/
def narrow {ε : Type*} (failure : ε) (bits : Nat) (n : Int) : Except ε Int :=
  if Fits bits n then .ok n else .error failure

theorem narrow_of_fits {ε : Type*} {failure : ε} {bits : Nat} {n : Int} (h : Fits bits n) :
    narrow failure bits n = .ok n := if_pos h

theorem narrow_eq_ok {ε : Type*} {failure : ε} {bits : Nat} {n m : Int} :
    narrow failure bits n = .ok m ↔ n = m ∧ Fits bits n := by
  rw [narrow]
  split_ifs with h
  · rw [Except.ok.injEq, and_iff_left h]
  · exact iff_of_false nofun fun hm => h hm.2

/-- The largest `i64`. -/
def i64Max : Int := 2 ^ 63 - 1

/-- The largest `u32`. -/
def u32Max : Nat := 2 ^ 32 - 1

/-- The largest `u64`. -/
def u64Max : Nat := 2 ^ 64 - 1

/-- How many bits a pointer has, and a `usize`. -/
inductive PointerWidth
  | bits32
  | bits64
  deriving DecidableEq, Repr

/-- The largest `usize`. -/
def PointerWidth.usizeMax : PointerWidth → Nat
  | .bits32 => u32Max
  | .bits64 => u64Max

/-- A conversion to `usize`, with the largest one in place of what does not fit. -/
def PointerWidth.usizeOrMax (width : PointerWidth) (n : Int) : Nat :=
  if 0 ≤ n ∧ n ≤ width.usizeMax then n.toNat else width.usizeMax

variable (width : PointerWidth)

theorem PointerWidth.usizeOrMax_natCast (n : Nat) : width.usizeOrMax n = min n width.usizeMax := by
  rw [usizeOrMax]
  split_ifs with h
  · omega
  · omega

end MachineInt
