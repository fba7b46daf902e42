import Monty.Decimal.Words

/-!
# Sums and differences of coefficients

Each loop goes over the words once, with a carry or a borrow that is at most one. Sums are not
trimmed: a word is added at the top only if the sum needs it.
-/

namespace Monty.Decimal

open Fallible Radix List
open Nat (ofDigits ofDigits_cons)

namespace Coeff

/-! ## Comparing -/

theorem Normal.eq_iff {a b : Coeff} (ha : a.Normal) (hb : b.Normal) : a = b ↔ a.val = b.val := by
  rw [val, val, ← Canonical.inj one_lt_radix ha hb]
  cases a
  cases b
  exact .of_eq (Coeff.mk.injEq ..)

theorem Normal.cmp_eq {a b : Coeff} (ha : a.Normal) (hb : b.Normal) :
    a.cmp b = compare a.val b.val := compareTop_eq one_lt_radix ha hb

theorem Normal.length_le {a b : Coeff} (ha : a.Normal) (hb : b.Normal) (h : b.val ≤ a.val) :
    b.words.length ≤ a.words.length :=
  not_lt.mp fun hlt => not_lt.mpr h (Canonical.lt_of_length_lt one_lt_radix ha hb hlt)

/-! ## Sums -/

theorem headD_lt {words : List Nat} (h : ∀ w ∈ words, w < radix) : words.headD 0 < radix := by
  cases words with
  | nil => exact radix_pos
  | cons w words => exact h w mem_cons_self

theorem addLoop_spec (carry : Bool) (long short : List Nat) (hlong : ∀ w ∈ long, w < radix)
    (hshort : ∀ w ∈ short, w < radix) (hlen : short.length ≤ long.length) :
    ∃ words, addLoop carry long short = some words ∧ Grows radix long words ∧ ofDigits radix words =
        ofDigits radix long + ofDigits radix short + carry.toNat := by
  induction long generalizing carry short with
  | nil =>
    obtain rfl := length_eq_zero_iff.mp (Nat.le_zero.mp hlen)
    refine ⟨_, rfl, ?_⟩
    cases carry with
    | false => exact ⟨⟨nofun, .inl rfl⟩, rfl⟩
    | true => exact ⟨⟨by decide, .inr ⟨rfl, by decide⟩⟩, rfl⟩
  | cons word long ih =>
    have hword : word < radix := hlong word mem_cons_self
    have hhead := headD_lt hshort
    have haddend : short.headD 0 + carry.toNat ≤ radix := by
      have := Bool.toNat_le carry
      omega
    rw [addLoop, bind_of_some (u64_of_lt (lt_of_le_of_lt haddend radix_lt)),
      bind_of_some (minus_of_le haddend)]
    rw [ofDigits_cons, ofDigits_head_tail radix short]
    have hradix := radix_lt
    -- the word that is put out, and the carry into the next one
    obtain ⟨out, hout, hlt, hsum⟩ : ∃ out, (if radix - (short.headD 0 + carry.toNat) ≤ word then
          minus word (radix - (short.headD 0 + carry.toNat))
        else u64 (word + (short.headD 0 + carry.toNat))) = some out ∧ out < radix ∧
        out + radix * (decide (radix - (short.headD 0 + carry.toNat) ≤ word)).toNat =
          word + (short.headD 0 + carry.toNat) := by
      split_ifs with hroom
      · exact ⟨_, minus_of_le hroom, by omega, by rw [decide_eq_true hroom, Bool.toNat_true]; omega⟩
      · exact ⟨_, u64_of_lt (by omega), by omega,
          by rw [decide_eq_false hroom, Bool.toNat_false]; omega⟩
    obtain ⟨rest, hrest, hgrows, hval⟩ := ih (decide (radix - (short.headD 0 + carry.toNat) ≤ word))
      short.tail (fun w hw => hlong w (mem_cons_of_mem _ hw))
      (fun w hw => hshort w (mem_of_mem_tail hw)) (by
        rw [length_tail]
        rw [length_cons] at hlen
        omega)
    rw [bind_of_some hout, bind_of_some hrest]
    refine ⟨_, rfl, hgrows.cons hlt, ?_⟩
    rw [ofDigits_cons, hval, Nat.mul_add, Nat.mul_add]
    omega

theorem Normal.add {a b : Coeff} (ha : a.Normal) (hb : b.Normal) :
    Yields (a.add b) (a.val + b.val) := by
  have key : ∀ {long short : Coeff}, long.Normal → short.Normal →
      short.words.length ≤ long.words.length →
      ∃ words, addLoop false long.words short.words = some words ∧
        Represents ⟨words⟩ (long.val + short.val) := by
    intro long short hlong hshort hlen
    obtain ⟨words, hwords, hgrows, hval⟩ := addLoop_spec false _ _ hlong.lt hshort.lt hlen
    refine ⟨words, hwords, hgrows.canonical one_lt_radix hlong ?_, hval⟩
    rw [hval]
    omega
  rw [Coeff.add]
  split_ifs with hlen
  · obtain ⟨words, hwords, hrep⟩ := key ha hb hlen
    exact ⟨_, bind_of_some hwords, hrep⟩
  · obtain ⟨words, hwords, hrep⟩ := key hb ha (Nat.le_of_not_le hlen)
    exact ⟨_, bind_of_some hwords, by rwa [add_comm] at hrep⟩

/-! ## Differences -/

theorem subLoop_spec (borrow : Nat) (words others : List Nat) (hwords : ∀ w ∈ words, w < radix)
    (hothers : ∀ w ∈ others, w < radix) (hlen : others.length ≤ words.length)
      (hborrow : borrow ≤ 1) :
    ∃ out last, subLoop borrow words others = some out ∧ (∀ w ∈ out, w < radix) ∧
      out.length = words.length ∧
      ofDigits radix out + ofDigits radix others + borrow =
        ofDigits radix words + radix ^ words.length * last := by
  induction words generalizing borrow others with
  | nil =>
    obtain rfl := length_eq_zero_iff.mp (Nat.le_zero.mp hlen)
    exact ⟨[], borrow, rfl, nofun, rfl, by simp⟩
  | cons word words ih =>
    have hword : word < radix := hwords word mem_cons_self
    have hhead := headD_lt hothers
    have hradix := radix_lt
    have hrest := fun borrow => ih borrow others.tail (fun w hw => hwords w (mem_cons_of_mem _ hw))
      (fun w hw => hothers w (mem_of_mem_tail hw)) (by
        rw [length_tail]
        rw [length_cons] at hlen
        omega)
    rw [subLoop, bind_of_some (u64_of_lt (by omega)), ofDigits_cons,
      ofDigits_head_tail radix others, length_cons]
    -- the equation of the rest, one place further up
    have hscale : ∀ {rest borrow last : Nat}, rest + ofDigits radix others.tail + borrow =
          ofDigits radix words + radix ^ words.length * last →
        radix * rest + radix * ofDigits radix others.tail + radix * borrow =
          radix * ofDigits radix words + radix ^ (words.length + 1) * last := by
      intro rest borrow last hval
      rw [← mul_add, ← mul_add, hval, mul_add, pow_succ', mul_assoc]
    split_ifs with hle
    · obtain ⟨rest, last, hout, hlt, hlength, hval⟩ := hrest 0 (Nat.zero_le _)
      refine ⟨_, last, bind_of_some hout, ?_, congrArg (· + 1) hlength, ?_⟩
      · exact forall_mem_cons.mpr ⟨by omega, hlt⟩
      · have := hscale hval
        rw [ofDigits_cons]
        omega
    obtain ⟨rest, last, hout, hlt, hlength, hval⟩ := hrest 1 (le_refl _)
    rw [bind_of_some (minus_of_le (by omega)), bind_of_some (u64_of_lt (by omega))]
    refine ⟨_, last, bind_of_some hout, ?_, congrArg (· + 1) hlength, ?_⟩
    · exact forall_mem_cons.mpr ⟨by omega, hlt⟩
    · have := hscale hval
      rw [ofDigits_cons]
      omega

theorem Normal.sub {a b : Coeff} (ha : a.Normal) (hb : b.Normal) (h : b.val ≤ a.val) :
    Yields (a.sub b) (a.val - b.val) := by
  have hcmp : a.cmp b ≠ .lt := by
    rw [ha.cmp_eq hb, Ne, compare_lt_iff_lt]
    omega
  obtain ⟨out, last, hout, hlt, hlength, hval⟩ :=
    subLoop_spec 0 _ _ ha.lt hb.lt (ha.length_le hb h) (Nat.zero_le _)
  have hbound : ofDigits radix out < radix ^ a.words.length :=
    hlength ▸ Nat.ofDigits_lt_base_pow_length one_lt_radix hlt
  -- nothing is borrowed from beyond the top
  have hlast : last = 0 := by
    rcases eq_zero_or_pos last with hzero | hpos
    · exact hzero
    · have := Nat.mul_le_mul_left (radix ^ a.words.length) hpos
      change ofDigits radix b.words ≤ ofDigits radix a.words at h
      omega
  rw [Coeff.sub, bind_of_some (require_of hcmp)]
  refine ⟨_, bind_of_some hout, ?_⟩
  convert fromWords_represents hlt using 1
  rw [hlast] at hval
  rw [val, val]
  omega

/-! ## The next number -/

theorem incrementLoop_spec (words : List Nat) (h : ∀ w ∈ words, w < radix) :
    ∃ out, incrementLoop words = some out ∧ Grows radix words out ∧
      ofDigits radix out = ofDigits radix words + 1 := by
  induction words with
  | nil => exact ⟨[1], rfl, ⟨by decide, .inr ⟨rfl, by decide⟩⟩, rfl⟩
  | cons word words ih =>
    have hword := h word mem_cons_self
    have hradix := radix_lt
    rw [incrementLoop]
    split_ifs with htop
    · obtain ⟨out, hout, hgrows, hval⟩ := ih fun w hw => h w (mem_cons_of_mem _ hw)
      refine ⟨_, bind_of_some hout, hgrows.cons radix_pos, ?_⟩
      rw [ofDigits_cons, ofDigits_cons, hval, Nat.mul_add]
      omega
    · refine ⟨_, bind_of_some (u64_of_lt (by omega)), ?_, ?_⟩
      · exact ⟨forall_mem_cons.mpr ⟨by omega, fun w hw => h w (mem_cons_of_mem _ hw)⟩, .inl rfl⟩
      · rw [ofDigits_cons, ofDigits_cons]
        omega

theorem Normal.increment {c : Coeff} (h : c.Normal) : Yields c.increment (c.val + 1) := by
  obtain ⟨out, hout, hgrows, hval⟩ := incrementLoop_spec c.words h.lt
  have hle : ofDigits radix c.words ≤ ofDigits radix out := by omega
  exact ⟨_, bind_of_some hout, hgrows.canonical one_lt_radix h hle, hval⟩

end Coeff

end Monty.Decimal
