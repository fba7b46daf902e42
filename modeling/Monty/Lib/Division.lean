import Mathlib.Order.Lattice

/-!
# Division of integers

Two ways to round a quotient: down, so that the remainder has the sign of the divisor, and to the
nearest integer, the even one if two are equally near.
-/

namespace Division

open Int

variable {t d q r : Int}

/-- Quotient and remainder of a division that rounds down. -/
structure FloorDivides (t d q r : Int) : Prop where
  sum : t = q * d + r
  small : r.natAbs < d.natAbs
  sign : r = 0 ∨ (r < 0 ↔ d < 0)

theorem floorDivides_fdiv (hd : d ≠ 0) : FloorDivides t d (t.fdiv d) (t.fmod d) := by
  have hsum := fmod_add_fdiv_mul t d
  rcases lt_or_gt_of_ne hd with hneg | hpos
  · have hlt := fmod_lt_of_pos (-t) (Int.neg_pos.mpr hneg)
    have hnonneg := fmod_nonneg_of_pos (-t) (Int.neg_pos.mpr hneg)
    rw [Int.neg_fmod_neg] at hlt hnonneg
    exact ⟨by omega, by omega, by omega⟩
  · have hlt := fmod_lt_of_pos t hpos
    have hnonneg := fmod_nonneg_of_pos t hpos
    exact ⟨by omega, by omega, by omega⟩

/-- Two remainders of one sign differ by less than the divisor, so there is one quotient. -/
theorem FloorDivides.eq_fdiv (h : FloorDivides t d q r) (hd : d ≠ 0) :
    q = t.fdiv d ∧ r = t.fmod d := by
  obtain ⟨hsum, hsmall, hsign⟩ := h
  obtain ⟨hsum', hsmall', hsign'⟩ := floorDivides_fdiv (t := t) hd
  have hmul : (q - t.fdiv d) * d = t.fmod d - r := by
    rw [Int.sub_mul]
    omega
  have hlt : (q - t.fdiv d).natAbs * d.natAbs < 1 * d.natAbs := by
    rw [← natAbs_mul, hmul]
    omega
  have hzero : q - t.fdiv d = 0 :=
    Int.natAbs_eq_zero.mp (Nat.lt_one_iff.mp (Nat.lt_of_mul_lt_mul_right hlt))
  rw [hzero, Int.zero_mul] at hmul
  omega

/-- No integer is nearer to `t / d`, and if another is as near, this one is even. -/
structure NearestEven (t d q : Int) : Prop where
  nearest : ∀ n, (t - q * d).natAbs ≤ (t - n * d).natAbs
  even : ∀ n ≠ q, (t - n * d).natAbs = (t - q * d).natAbs → q % 2 = 0

/-- At most half of the divisor is left. -/
structure Halves (t d q : Int) : Prop where
  half : 2 * (t - q * d).natAbs ≤ d.natAbs
  even : 2 * (t - q * d).natAbs = d.natAbs → q % 2 = 0

theorem Halves.nearestEven (h : Halves t d q) : NearestEven t d q := by
  obtain ⟨hhalf, heven⟩ := h
  -- What two integers leave is the divisor at least, taken together.
  have hfar : ∀ n ≠ q, d.natAbs ≤ (t - n * d).natAbs + (t - q * d).natAbs := by
    intro n hn
    have hle : d.natAbs ≤ ((n - q) * d).natAbs := by
      rw [natAbs_mul]
      exact Nat.le_mul_of_pos_left _ (by omega)
    rw [Int.sub_mul] at hle
    omega
  refine ⟨fun n => ?_, fun n hn heq => heven ?_⟩
  · by_cases hn : n = q
    · rw [hn]
    · have := hfar n hn
      omega
  · have := hfar n hn
    omega

/-- Dividing the magnitudes, and then the sign. -/
theorem Halves.of_natAbs (h : Halves t.natAbs d.natAbs q) :
    Halves t d (if ¬ (t < 0 ↔ d < 0) then -q else q) := by
  have heq : (t - (if ¬ (t < 0 ↔ d < 0) then -q else q) * d).natAbs =
      ((t.natAbs : Int) - q * (d.natAbs : Int)).natAbs := by
    rcases lt_or_ge t 0 with ht | ht <;> rcases lt_or_ge d 0 with hd | hd <;>
      simp only [ofNat_natAbs_of_nonpos, natAbs_of_nonneg, ht, hd, le_of_lt,
        Int.not_lt.mpr, iff_true,
        iff_false, not_true, not_false_eq_true, if_true, if_false, Int.mul_neg, Int.neg_mul] <;>
      omega
  refine ⟨by rw [heq]; exact h.half, fun hh => ?_⟩
  have := h.even (heq ▸ hh)
  split_ifs <;> omega

end Division
