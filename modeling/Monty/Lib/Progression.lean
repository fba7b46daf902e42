import Mathlib.Tactic.Linarith
import Mathlib.Tactic.Ring

/-!
# Arithmetic progressions with a bound

`walk stop step h start` is `start`, `start + step`, …, as long as `stop` is not reached. The step
may be negative, and then the progression goes down. Its element `j` is `start + j * step`, if that
is before `stop`, and there are `⌈(stop - start) / step⌉` elements.
-/

namespace Progression

open Int

/-- A number that is not yet at the bound, in the direction of the step. -/
def Before (stop step n : Int) : Prop := if 0 < step then n < stop else stop < n

instance (stop step n : Int) : Decidable (Before stop step n) :=
  inferInstanceAs (Decidable (if 0 < step then n < stop else stop < n))

variable {stop step : Int} {n : Int}

theorem before_of_pos (h : 0 < step) : Before stop step n ↔ n < stop := by
  rw [Before, if_pos h]

theorem before_of_neg (h : step < 0) : Before stop step n ↔ stop < n := by
  rw [Before, if_neg (by omega)]

/-- How far it is to the bound. -/
def distance (stop step n : Int) : Nat := if 0 < step then (stop - n).toNat else (n - stop).toNat

theorem distance_lt (hstep : step ≠ 0) (h : Before stop step n) :
    distance stop step (n + step) < distance stop step n := by
  rcases lt_or_gt_of_ne hstep with hneg | hpos
  · rw [before_of_neg hneg] at h
    rw [distance, distance, if_neg (by omega), if_neg (by omega)]
    omega
  · rw [before_of_pos hpos] at h
    rw [distance, distance, if_pos hpos, if_pos hpos]
    omega

def walk (stop step : Int) (hstep : step ≠ 0) (start : Int) : List Int :=
  if h : Before stop step start then
    have := distance_lt hstep h
    start :: walk stop step hstep (start + step)
  else []
termination_by distance stop step start

section

variable (hstep : step ≠ 0)

include hstep

theorem walk_of_before {start : Int} (h : Before stop step start) :
    walk stop step hstep start = start :: walk stop step hstep (start + step) := by
  rw [walk, dif_pos h]

theorem walk_of_not_before {start : Int} (h : ¬ Before stop step start) :
    walk stop step hstep start = [] := by rw [walk, dif_neg h]

theorem Before.of_add {j : Nat} (h : Before stop step (n + j * step)) : Before stop step n := by
  rcases lt_or_gt_of_ne hstep with hneg | hpos
  · rw [before_of_neg hneg] at h ⊢
    nlinarith
  · rw [before_of_pos hpos] at h ⊢
    nlinarith

theorem getElem?_walk (start : Int) (j : Nat) : (walk stop step hstep start)[j]? =
      if Before stop step (start + j * step) then some (start + j * step) else none := by
  induction j generalizing start with
  | zero =>
    rw [Nat.cast_zero, zero_mul, add_zero]
    split_ifs with h
    · rw [walk_of_before hstep h, List.getElem?_cons_zero]
    · rw [walk_of_not_before hstep h, List.getElem?_nil]
  | succ j ih =>
    have hnext : start + step + j * step = start + (j + 1 : Nat) * step := by
      push_cast
      ring
    by_cases h : Before stop step start
    · rw [walk_of_before hstep h, List.getElem?_cons_succ, ih, hnext]
    · rw [walk_of_not_before hstep h, List.getElem?_nil, if_neg (mt (Before.of_add hstep) h)]

theorem lt_length_walk (start : Int) (j : Nat) :
    j < (walk stop step hstep start).length ↔ Before stop step (start + j * step) := by
  rw [← Nat.not_le, ← List.getElem?_eq_none_iff, getElem?_walk]
  split_ifs with h <;> simp [h]

theorem mem_walk (start n : Int) : n ∈ walk stop step hstep start ↔
      ∃ j : Nat, n = start + j * step ∧ Before stop step n := by
  rw [List.mem_iff_getElem?]
  refine exists_congr fun j => ?_
  rw [getElem?_walk]
  split_ifs with h
  · rw [Option.some_inj]
    exact ⟨fun heq => ⟨heq.symm, heq ▸ h⟩, fun heq => heq.1.symm⟩
  · refine iff_of_false nofun ?_
    rintro ⟨rfl, hbefore⟩
    exact h hbefore

end

/-! ## Counting -/

/-- The quotient, rounded up. -/
def ceilDiv (x y : Int) : Int := -(-x).fdiv y

theorem lt_ceilDiv (hstep : step ≠ 0) (start : Int) (k : Int) :
    k < ceilDiv (stop - start) step ↔ Before stop step (start + k * step) := by
  rcases lt_or_gt_of_ne hstep with hneg | hpos
  · have hdiv : ceilDiv (stop - start) step = -((stop - start) / -step) := by
      rw [ceilDiv, ← Int.neg_neg step, Int.neg_fdiv_neg, Int.neg_neg,
        fdiv_eq_ediv_of_nonneg _ (by omega)]
    rw [hdiv, before_of_neg hneg, lt_neg, Int.ediv_lt_iff_lt_mul (by omega), Int.neg_mul_neg]
    omega
  · have hdiv : ceilDiv (stop - start) step = -(-(stop - start) / step) := by
      rw [ceilDiv, fdiv_eq_ediv_of_nonneg _ hpos.le]
    rw [hdiv, before_of_pos hpos, lt_neg, Int.ediv_lt_iff_lt_mul hpos, Int.neg_mul]
    omega

theorem length_walk (hstep : step ≠ 0) (start : Int) :
    ((walk stop step hstep start).length : Int) = max (ceilDiv (stop - start) step) 0 := by
  have h : ∀ j : Nat, j < (walk stop step hstep start).length ↔
      (j : Int) < max (ceilDiv (stop - start) step) 0 := by
    intro j
    rw [lt_length_walk, ← lt_ceilDiv hstep]
    omega
  refine le_antisymm (not_lt.mp fun hlt => ?_) (not_lt.mp fun hlt => ?_)
  · have := (h (max (ceilDiv (stop - start) step) 0).toNat).mp (by omega)
    omega
  · exact absurd ((h _).mpr hlt) (Nat.lt_irrefl _)

/-- With a whole number of steps to the bound, that number counts. -/
theorem before_add_mul (hstep : step ≠ 0) (start count k : Int) :
    Before (start + count * step) step (start + k * step) ↔ k < count := by
  rcases lt_or_gt_of_ne hstep with hneg | hpos
  · rw [before_of_neg hneg, add_lt_add_iff_left]
    exact ⟨fun h => by nlinarith, fun h => by nlinarith⟩
  · rw [before_of_pos hpos, add_lt_add_iff_left]
    exact mul_lt_mul_iff_of_pos_right hpos

theorem abs_ceilDiv_le (hstep : step ≠ 0) (n : Int) : |ceilDiv n step| ≤ |n| := by
  have hlt : ∀ k : Int, k < ceilDiv n step ↔ Before n step (k * step) := fun k => by
    have h : k < ceilDiv (n - 0) step ↔ Before n step (0 + k * step) := lt_ceilDiv hstep 0 k
    rwa [sub_zero, zero_add] at h
  have hle := le_abs_self n
  have hge := neg_abs_le n
  rw [abs_le]
  constructor
  · refine le_of_sub_one_lt ((hlt _).mpr ?_)
    rcases lt_or_gt_of_ne hstep with hneg | hpos
    · rw [before_of_neg hneg]
      nlinarith
    · rw [before_of_pos hpos]
      nlinarith
  refine not_lt.mp fun h => ?_
  have hbefore := (hlt _).mp h
  rcases lt_or_gt_of_ne hstep with hneg | hpos
  · rw [before_of_neg hneg] at hbefore
    nlinarith
  · rw [before_of_pos hpos] at hbefore
    nlinarith

end Progression
