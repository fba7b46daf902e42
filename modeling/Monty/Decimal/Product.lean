import Monty.Decimal.Sum

/-!
# Products of coefficients

Schoolbook multiplication adds one row after another, each one place further. Longer factors are
cut: into pieces as long as the shorter factor, or both into halves, of which three products are
enough.
-/

namespace Monty.Decimal

open Fallible Radix List Nat

namespace Coeff

/-! ## Schoolbook multiplication -/

/-- A product of words leaves room for two more. -/
theorem row_bound {x y w carry : Nat} (hx : x < radix) (hy : y < radix) (hw : w < radix)
    (hcarry : carry < radix) : x * y + w + carry < radix * radix := by
  have hxy : x * y ≤ (radix - 1) * (radix - 1) := Nat.mul_le_mul (by omega) (by omega)
  have hsquare : (radix - 1) * (radix - 1) + 2 * (radix - 1) < radix * radix := by decide
  omega

/-- One row: `front` is what stands in its place, and a word that is still zero comes after it. -/
theorem schoolbookRow_spec {x : Nat} (hx : x < radix) (carry : Nat) (front ys tail : List Nat)
    (hcarry : carry < radix) (hfront : ∀ w ∈ front, w < radix) (hys : ∀ w ∈ ys, w < radix)
    (hlen : front.length = ys.length) :
    ∃ out, schoolbookRow x carry (front ++ 0 :: tail) ys = some (out ++ tail) ∧
      (∀ w ∈ out, w < radix) ∧ out.length = ys.length + 1 ∧
      ofDigits radix out = ofDigits radix front + x * ofDigits radix ys + carry := by
  induction ys generalizing carry front with
  | nil =>
    obtain rfl := length_eq_zero_iff.mp hlen
    refine ⟨[carry], rfl, by simpa using hcarry, rfl, ?_⟩
    simp
  | cons y ys ih =>
    obtain ⟨w, front, rfl⟩ := exists_cons_of_length_eq_add_one hlen
    have hw := hfront w mem_cons_self
    have hy := hys y mem_cons_self
    have hbound := row_bound hx hy hw hcarry
    have hsquare : radix * radix ≤ 2 ^ 128 := by decide
    have hdiv : x * y + w + carry < radix * 2 ^ 64 :=
      lt_trans hbound (mul_lt_mul_of_pos_left radix_lt radix_pos)
    have hnext : (x * y + w + carry) / radix < radix := by rwa [div_lt_iff_lt_mul radix_pos]
    obtain ⟨out, hout, hlt, hlength, hval⟩ := ih _ front hnext
      (fun v hv => hfront v (mem_cons_of_mem _ hv))
      (fun v hv => hys v (mem_cons_of_mem _ hv)) (by simpa using hlen)
    have ht : x * y + w + carry < 2 ^ 128 := lt_of_lt_of_le hbound hsquare
    rw [cons_append, schoolbookRow,
      bind_of_some (u128_of_lt (Nat.lt_of_le_of_lt (Nat.le_add_right ..) (Nat.lt_of_le_of_lt
        (Nat.le_add_right ..) ht))),
      bind_of_some (u128_of_lt (Nat.lt_of_le_of_lt (Nat.le_add_right ..) ht)),
      bind_of_some (u128_of_lt ht), bind_of_some (divRadix_eq hdiv)]
    dsimp only
    rw [bind_of_some hout]
    refine ⟨(x * y + w + carry) % radix :: out, rfl,
      forall_mem_cons.mpr ⟨mod_lt _ radix_pos, hlt⟩, congrArg (· + 1) hlength, ?_⟩
    have hsum := mod_add_div (x * y + w + carry) radix
    rw [ofDigits_cons, ofDigits_cons, ofDigits_cons, hval]
    generalize (x * y + w + carry) % radix = low at hsum
    generalize (x * y + w + carry) / radix = high at hsum
    rw [mul_add, mul_add, mul_add, mul_left_comm]
    omega

theorem schoolbookLoop_spec (b : List Nat) (hb : ∀ w ∈ b, w < radix) (a front : List Nat)
    (ha : ∀ w ∈ a, w < radix) (hfront : ∀ w ∈ front, w < radix) (hlen : front.length = b.length) :
    ∃ out, schoolbookLoop b a (front ++ List.replicate a.length 0) = some out ∧
      (∀ w ∈ out, w < radix) ∧
      ofDigits radix out = ofDigits radix front + ofDigits radix a * ofDigits radix b := by
  induction a generalizing front with
  | nil =>
    refine ⟨front, ?_, hfront, ?_⟩
    · rw [length_nil, replicate_zero, append_nil]
      rfl
    · rw [ofDigits_nil, zero_mul, add_zero]
  | cons x a ih =>
    obtain ⟨row, hrow, hlt, hlength, hval⟩ := schoolbookRow_spec (ha x mem_cons_self) 0 front b
      (.replicate a.length 0) radix_pos hfront hb hlen
    obtain ⟨w, row, rfl⟩ := exists_cons_of_length_eq_add_one hlength
    have hlength' : row.length = b.length := by simpa using hlength
    obtain ⟨out, hout, houtlt, houtval⟩ := ih row (fun v hv => ha v (mem_cons_of_mem _ hv))
      (fun v hv => hlt v (mem_cons_of_mem _ hv)) hlength'
    rw [length_cons, replicate_succ, schoolbookLoop, bind_of_some hrow]
    dsimp only [cons_append]
    rw [bind_of_some hout]
    refine ⟨_, rfl, forall_mem_cons.mpr ⟨hlt w mem_cons_self, houtlt⟩, ?_⟩
    rw [ofDigits_cons] at hval
    rw [ofDigits_cons, houtval, ofDigits_cons, add_mul, mul_add, mul_assoc]
    omega

theorem schoolbook_yields {a b : List Nat} (ha : ∀ w ∈ a, w < radix) (hb : ∀ w ∈ b, w < radix) :
    Yields (schoolbook a b) (ofDigits radix a * ofDigits radix b) := by
  obtain ⟨out, hout, hlt, hval⟩ := schoolbookLoop_spec b hb a (.replicate b.length 0) ha
    (fun w hw => by rw [eq_of_mem_replicate hw]; exact radix_pos) length_replicate
  rw [replicate_append_replicate, add_comm] at hout
  rw [ofDigits_replicate_zero, zero_add] at hval
  rw [schoolbook, bind_of_some hout, ← hval]
  exact (fromWords_represents hlt).yields

/-! ## Pieces -/

variable {c : Coeff}

theorem Normal.shiftWords (h : c.Normal) (n : Nat) :
    (c.shiftWords n).Represents (radix ^ n * c.val) := by
  rw [Coeff.shiftWords]
  split_ifs with hzero
  · rw [h.isZero_iff.mp hzero, mul_zero]
    exact represents_zero
  · exact ⟨h.replicate_append one_lt_radix (mt isEmpty_iff.mpr hzero) n,
      ofDigits_replicate_append ..⟩

/-- A coefficient in two parts, of which the low one has `n` words. -/
structure Halves (c : Coeff) (n : Nat) (low high : Coeff) : Prop where
  lowNormal : low.Normal
  highNormal : high.Normal
  sum : c.val = low.val + radix ^ n * high.val
  lowLength : low.words.length ≤ n
  highLength : high.words.length ≤ c.words.length - n

theorem Normal.halves (h : c.Normal) {n : Nat} (hn : n ≤ c.words.length) :
    ∃ low high, c.splitWords n = (low, high) ∧ Halves c n low high := by
  have hlow := fromWords_represents fun w (hw : w ∈ c.words.take n) => h.lt w (mem_of_mem_take hw)
  have hhigh := fromWords_represents fun w (hw : w ∈ c.words.drop n) => h.lt w (mem_of_mem_drop hw)
  refine ⟨_, _, by rw [splitWords, min_eq_left hn], hlow.normal, hhigh.normal, ?_, ?_, ?_⟩
  · rw [hlow.val_eq, hhigh.val_eq, val]
    conv_lhs => rw [← take_append_drop n c.words, ofDigits_append, length_take, min_eq_left hn]
  · exact (length_trim_le _).trans (by rw [length_take]; omega)
  · exact (length_trim_le _).trans (by rw [length_drop])

variable {k : Nat}

theorem Normal.length_le_iff (h : c.Normal) : c.words.length ≤ k ↔ c.val < radix ^ k := by
  have hlen : (radix.digits c.val).length = c.words.length :=
    congrArg List.length (h.digits_ofDigits one_lt_radix)
  rw [← not_lt, ← hlen, lt_digits_length_iff one_lt_radix, not_le]

theorem mulPieces_yields {mul : Coeff → Coeff → Option Coeff} {long short : Coeff}
    (hlong : long.Normal) (hne : 0 < short.words.length)
    (hmul : ∀ a : Coeff, a.Normal → a.words.length ≤ short.words.length →
      Yields (mul a short) (a.val * short.val)) :
    Yields (mulPieces mul long short) (long.val * short.val) := by
  -- the pieces that are left, from piece `i` on
  have loop : ∀ (k : Nat) (words : List Nat) (i : Nat) (acc : Coeff), words.length ≤ k →
      (∀ w ∈ words, w < radix) → acc.Normal →
      Yields (((chunks short.words.length words).zipIdx i).foldlM (fun acc piece => do
          let part ← mul (fromWords piece.1) short
          acc.add (part.shiftWords (piece.2 * short.words.length))) acc)
        (acc.val + radix ^ (i * short.words.length) * (ofDigits radix words * short.val)) := by
    intro k
    induction k with
    | zero =>
      intro words i acc hlen _ hacc
      obtain rfl := length_eq_zero_iff.mp (le_zero.mp hlen)
      rw [ofDigits_nil, zero_mul, mul_zero, add_zero]
      exact hacc.represents.yields
    | succ k ih =>
      intro words i acc hlen hwords hacc
      by_cases hnil : words = []
      · rw [hnil, ofDigits_nil, zero_mul, mul_zero, add_zero]
        exact hacc.represents.yields
      have hpiece := fromWords_represents fun w (hw : w ∈ words.take short.words.length) =>
        hwords w (mem_of_mem_take hw)
      obtain ⟨part, hpart, hrep⟩ := hmul _ hpiece.normal
        ((length_trim_le _).trans (by rw [length_take]; omega))
      have hshift := hrep.normal.shiftWords (i * short.words.length)
      obtain ⟨sum, hsum, hsumrep⟩ := hacc.add hshift.normal
      have hstep : (do
          let part ← mul (fromWords (words.take short.words.length)) short
          acc.add (part.shiftWords (i * short.words.length))) = some sum := by
        rw [bind_of_some hpart, hsum]
      rw [chunks_of_ne_nil hne hnil, zipIdx_cons, foldlM_cons, bind_of_some hstep]
      convert ih (words.drop short.words.length) (i + 1) sum
        (by rw [length_drop]; omega) (fun w hw => hwords w (mem_of_mem_drop hw))
        hsumrep.normal using 1
      rw [hsumrep.val_eq, hshift.val_eq, hrep.val_eq, hpiece.val_eq]
      by_cases hle : short.words.length ≤ words.length
      · conv_lhs => rw [← take_append_drop short.words.length words, ofDigits_append,
          length_take, min_eq_left hle]
        ring
      · rw [take_of_length_le (by omega), drop_eq_nil_of_le (by omega), ofDigits_nil]
        ring
  have h := loop long.words.length long.words 0 zero (le_refl _) hlong.lt represents_zero.normal
  rwa [represents_zero.val_eq, zero_add, zero_mul, pow_zero, one_mul] at h

theorem Normal.add_length {a b : Coeff} (ha : a.Normal) (hb : b.Normal)
    (hak : a.words.length ≤ k) (hbk : b.words.length ≤ k) :
    ∃ c, a.add b = some c ∧ c.Represents (a.val + b.val) ∧ c.words.length ≤ k + 1 := by
  obtain ⟨c, hc, hrep⟩ := ha.add hb
  refine ⟨c, hc, hrep, hrep.normal.length_le_iff.mpr ?_⟩
  have hlt := ha.length_le_iff.mp hak
  have hlt' := hb.length_le_iff.mp hbk
  have hpow := mul_le_mul_left (radix ^ k) (succ_le_of_lt one_lt_radix)
  rw [hrep.val_eq, pow_succ]
  omega

theorem mulHalves_yields {mul : Coeff → Coeff → Option Coeff} {long short : Coeff}
    (hlong : long.Normal) (hshort : short.Normal)
      (hhalf : long.words.length / 2 ≤ short.words.length)
    (hle : short.words.length ≤ long.words.length)
    (hk : long.words.length - long.words.length / 2 + 1 ≤ k)
    (hmul : ∀ a b : Coeff, a.Normal → b.Normal → a.words.length ≤ k → b.words.length ≤ k →
      Yields (mul a b) (a.val * b.val)) :
    Yields (mulHalves mul long short) (long.val * short.val) := by
  obtain ⟨a0, a1, hsplita, ha⟩ := hlong.halves (div_le_self long.words.length 2)
  obtain ⟨b0, b1, hsplitb, hb⟩ := hshort.halves hhalf
  have ha0 := ha.lowLength
  have ha1 := ha.highLength
  have hb0 := hb.lowLength
  have hb1 := hb.highLength
  obtain ⟨low, hlow, hlowrep⟩ := hmul a0 b0 ha.lowNormal hb.lowNormal (by omega) (by omega)
  obtain ⟨high, hhigh, hhighrep⟩ := hmul a1 b1 ha.highNormal hb.highNormal (by omega) (by omega)
  obtain ⟨a, hadda, harep, halen⟩ := ha.lowNormal.add_length ha.highNormal (k := k - 1)
    (by omega) (by omega)
  obtain ⟨b, haddb, hbrep, hblen⟩ := hb.lowNormal.add_length hb.highNormal (k := k - 1)
    (by omega) (by omega)
  obtain ⟨whole, hwhole, hwholerep⟩ := hmul a b harep.normal hbrep.normal (by omega) (by omega)
  have hexpand : whole.val = low.val + high.val + (a0.val * b1.val + a1.val * b0.val) := by
    rw [hwholerep.val_eq, harep.val_eq, hbrep.val_eq, hlowrep.val_eq, hhighrep.val_eq]
    ring
  obtain ⟨rest, hrest, hrestrep⟩ := hwholerep.normal.sub hlowrep.normal (by omega)
  obtain ⟨middle, hmiddle, hmiddlerep⟩ := hrestrep.normal.sub hhighrep.normal (by
    rw [hrestrep.val_eq]
    omega)
  have hmid : middle.val = a0.val * b1.val + a1.val * b0.val := by
    rw [hmiddlerep.val_eq, hrestrep.val_eq]
    omega
  have hhighshift := hhighrep.normal.shiftWords (2 * (long.words.length / 2))
  have hmiddleshift := hmiddlerep.normal.shiftWords (long.words.length / 2)
  obtain ⟨sum, hsum, hsumrep⟩ := hhighshift.normal.add hmiddleshift.normal
  rw [mulHalves]
  rw [hsplita, hsplitb]
  dsimp only
  rw [bind_of_some hlow, bind_of_some hhigh, bind_of_some hadda, bind_of_some haddb,
    bind_of_some hwhole, bind_of_some hrest, bind_of_some hmiddle, bind_of_some hsum]
  convert hsumrep.normal.add hlowrep.normal using 1
  rw [hsumrep.val_eq, hhighshift.val_eq, hmiddleshift.val_eq, hmid, hhighrep.val_eq, hlowrep.val_eq,
    ha.sum, hb.sum]
  ring

/-! ## Products -/

theorem mulAux_yields (depth : Nat) {a b : Coeff} (ha : a.Normal) (hb : b.Normal)
    (hdepth : a.words.length + b.words.length < depth) :
    Yields (mulAux depth a b) (a.val * b.val) := by
  induction depth generalizing a b with
  | zero => omega
  | succ depth ih =>
    -- the cases for more than one word, once it is known which factor is the longer
    have hlong : ∀ {long short : Coeff}, long.Normal → short.Normal →
        short.words.length ≤ long.words.length →
        long.words.length + short.words.length < depth + 1 →
        Yields (if short.words.length < karatsubaWords then schoolbook long.words short.words
          else if 2 * short.words.length ≤ long.words.length then mulPieces
            (mulAux depth) long short
          else mulHalves (mulAux depth) long short) (long.val * short.val) := by
      intro long short hlong hshort hle hlt
      rw [karatsubaWords]
      split_ifs with hsmall hpieces
      · exact schoolbook_yields hlong.lt hshort.lt
      · exact mulPieces_yields hlong (by omega) fun c hc hlen => ih hc hshort (by omega)
      · exact mulHalves_yields hlong hshort (by omega) hle (le_refl _) fun c d hc hd hclen hdlen =>
          ih hc hd (by omega)
    rw [mulAux]
    by_cases hzero : (a.isZero || b.isZero) = true
    · rw [if_pos hzero]
      rw [Bool.or_eq_true, ha.isZero_iff, hb.isZero_iff] at hzero
      rw [Nat.mul_eq_zero.mpr hzero]
      exact represents_zero.yields
    rw [if_neg hzero]
    split
    · rename_i x y hx hy
      have hxlt : x < radix := ha.lt x (by rw [hx]; exact mem_cons_self)
      have hylt : y < radix := hb.lt y (by rw [hy]; exact mem_cons_self)
      have hbound : x * y < radix * radix := row_bound hxlt hylt radix_pos radix_pos
      have hsquare : radix * radix ≤ 2 ^ 128 := by decide
      have hdiv : x * y < radix * 2 ^ 64 :=
        lt_trans hbound (mul_lt_mul_of_pos_left radix_lt radix_pos)
      have hwords : ∀ w ∈ [x * y % radix, x * y / radix], w < radix := by
        simpa using ⟨mod_lt _ radix_pos, by rwa [div_lt_iff_lt_mul radix_pos]⟩
      have hval : a.val * b.val = ofDigits radix [x * y % radix, x * y / radix] := by
        rw [val, val, hx, hy, ofDigits_singleton, ofDigits_singleton, ofDigits_cons,
          ofDigits_singleton, mod_add_div]
      rw [bind_of_some (u128_of_lt (lt_of_lt_of_le hbound hsquare)),
        bind_of_some (divRadix_eq hdiv), hval]
      exact (fromWords_represents hwords).yields
    · by_cases hle : b.words.length ≤ a.words.length
      · rw [if_pos hle]
        exact hlong ha hb hle hdepth
      · rw [if_neg hle, mul_comm]
        exact hlong hb ha (Nat.le_of_not_le hle) (by omega)

theorem Normal.mul {a b : Coeff} (ha : a.Normal) (hb : b.Normal) :
    Yields (a.mul b) (a.val * b.val) := mulAux_yields _ ha hb (lt_succ_self _)

end Coeff

end Monty.Decimal
