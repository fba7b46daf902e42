import Mathlib.Logic.Function.Iterate

/-!
# Reflected shift registers

A register of `w` bits over the field of two elements. `tick` moves it down one place and, when the
bit that falls out is set, adds the polynomial; `feed` does so after adding one bit of the message
to the lowest. The register is linear (`tick_xor`), so the message may be added several bits at a
time before the ticks (`feedAll_eq`), and several ticks are a shift and the ticks of the low bits
alone (`iterate_tick`), which a table can hold.
-/

namespace ShiftRegister

open BitVec

variable {w : Nat} {poly : BitVec w}

def tick (poly reg : BitVec w) : BitVec w :=
  if reg.getLsbD 0 then (reg >>> 1) ^^^ poly else reg >>> 1

def feed (poly reg : BitVec w) (bit : Bool) : BitVec w :=
  if reg.getLsbD 0 != bit then (reg >>> 1) ^^^ poly else reg >>> 1

theorem tick_xor (x y : BitVec w) : tick poly (x ^^^ y) = tick poly x ^^^ tick poly y := by
  ext i
  unfold tick
  rw [getLsbD_xor, ushiftRight_xor_distrib]
  cases x.getLsbD 0 <;> cases y.getLsbD 0 <;> simp
  all_goals grind

theorem iterate_tick_xor (n : Nat) (x y : BitVec w) :
    (tick poly)^[n] (x ^^^ y) = (tick poly)^[n] x ^^^ (tick poly)^[n] y := by
  induction n generalizing x y with
  | zero => rfl
  | succ n ih => rw [Function.iterate_succ_apply, tick_xor, ih]; rfl

/-- While the bits that fall out are clear, the register only moves. -/
theorem iterate_tick_of_clear {n : Nat} {x : BitVec w} (h : ∀ i < n, x.getLsbD i = false) :
    (tick poly)^[n] x = x >>> n := by
  induction n with
  | zero => exact (ushiftRight_zero x).symm
  | succ n ih =>
    rw [Function.iterate_succ_apply', ih fun i hi => h i (by omega), tick, if_neg, shiftRight_add]
    rw [getLsbD_ushiftRight, Nat.add_zero, h n (Nat.lt_succ_self n)]
    exact Bool.false_ne_true

/-- `n` ticks are a shift by `n` and the ticks of what the shift loses. -/
theorem iterate_tick (n : Nat) (mask x : BitVec w) (h : ∀ i < w, mask.getLsbD i = decide (i < n)) :
    (tick poly)^[n] x = (x >>> n) ^^^ (tick poly)^[n] (x &&& mask) := by
  have hx : x = (x &&& ~~~ mask) ^^^ (x &&& mask) := by
    ext i hi
    simp only [getElem_xor, getElem_and, getElem_not]
    cases x[i] <;> cases mask[i] <;> rfl
  have hclear : (tick poly)^[n] (x &&& ~~~ mask) = (x &&& ~~~ mask) >>> n := by
    refine iterate_tick_of_clear fun i hi => ?_
    by_cases hw : i < w
    · simp [h i hw, hi]
    · simp [hw]
  have hshift : (x &&& ~~~ mask) >>> n = x >>> n := by
    ext i hi
    simp only [getElem_ushiftRight, getLsbD_and, getLsbD_not]
    by_cases hw : n + i < w
    · rw [h (n + i) hw]
      simp [hw]
    · simp [getLsbD_of_ge x (n + i) (by omega)]
  rw [← hshift, ← hclear, ← iterate_tick_xor, ← hx]

/-- The bits of a message, the first of them the lowest. -/
def ofBits (w : Nat) : List Bool → BitVec w
  | [] => 0#w
  | bit :: bits => (ofBool bit).setWidth w ^^^ (ofBits w bits <<< 1)

theorem getLsbD_ofBits (bits : List Bool) (i : Nat) :
    (ofBits w bits).getLsbD i = (decide (i < w) && bits.getD i false) := by
  induction bits generalizing i with
  | nil => simp [ofBits]
  | cons bit bits ih =>
    cases i with
    | zero => cases bit <;> simp [ofBits]
    | succ i =>
      simp [ofBits, ih]
      grind

theorem feed_eq (hw : 0 < w) (reg : BitVec w) (bit : Bool) :
    feed poly reg bit = tick poly (reg ^^^ (ofBool bit).setWidth w) := by
  have hshift : (ofBool bit).setWidth w >>> 1 = 0#w := by
    ext i
    simp
  rw [feed, tick, getLsbD_xor, ushiftRight_xor_distrib, hshift, xor_zero]
  cases bit <;> simp [hw]

theorem tick_shiftLeft {x : BitVec w} (h : x.getLsbD (w - 1) = false) :
    tick poly (x <<< 1) = x := by
  rw [tick, if_neg (by simp)]
  ext i hi
  grind

/-- Bits added one before each tick, or all before the first. -/
theorem feedAll_eq (bits : List Bool) (hw : bits.length ≤ w) (reg : BitVec w) :
    bits.foldl (feed poly) reg = (tick poly)^[bits.length] (reg ^^^ ofBits w bits) := by
  induction bits generalizing reg with
  | nil => simp [ofBits]
  | cons bit bits ih =>
    rw [List.length_cons] at hw
    have htop : (ofBits w bits).getLsbD (w - 1) = false := by
      rw [getLsbD_ofBits, List.getD_eq_getElem?_getD, List.getElem?_eq_none (by omega)]
      simp
    rw [List.foldl_cons, ih (by omega), feed_eq (by omega), List.length_cons,
      Function.iterate_succ_apply,
      ofBits, ← xor_assoc, tick_xor _ (ofBits w bits <<< 1), tick_shiftLeft htop]

end ShiftRegister
