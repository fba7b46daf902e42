import Mathlib.Data.Nat.Choose.Bounds
import Mathlib.Data.Nat.Size
import Monty.Lib.Fallible
import Monty.Lib.MachineInt

/-!
# `factorial`, `comb` and `perm`

The three functions of `math` that multiply long runs of integers. Before the first multiplication
each hands a bound on the size of its result to `check_product_size`; then `product_range` splits
its interval in halves and `falling_product` takes one factor after the other. Every product and
every division is written to a log, so that what was announced can be compared with what is made
afterwards.

The results are those of the textbook and the divisions leave no remainder (`combinatorics_exact`).
The bits that are announced suffice, apart from the empty product, announced with no bits at all
(`comb_zero_reports_nothing`), and from results whose size is no `u64`.
-/

namespace Monty.Math

open Fallible MachineInt Nat Int

/-- A product that stops at the largest `u64`. -/
def saturatingMul (a b : Nat) : Nat := min (a * b) u64Max

/-- What the limits allow: a large result of so many bytes, and to go on at a reading of the
clock. -/
structure Tracker where
  admits : Nat → Bool
  inTime : Nat → Bool

/-- No limit is ever hit. -/
def Tracker.Unlimited (tr : Tracker) : Prop :=
  (∀ bytes, tr.admits bytes) ∧ ∀ reading, tr.inTime reading

/-- Why there is no result. -/
inductive Failure where
  | resource
  | valueError (message : String)
  | overflowError (message : String)
  deriving DecidableEq, Repr

/-- What is announced and computed. -/
inductive Event where
  /-- The bits handed to `check_product_size`. -/
  | reported (bits : Nat)
  | product (p : Int)
  | divided (dividend divisor : Int)
  deriving DecidableEq, Repr

/-- How often the clock was read, and what happened so far, the latest first. -/
structure Meter where
  readings : Nat
  log : List Event
  deriving DecidableEq, Repr

/-- A computation with a log. -/
abbrev Calc := EStateM Failure Meter

/-- Writes to the log. -/
def record (e : Event) : Calc Unit := modify fun m => { m with log := e :: m.log }

/-- A product, for the log. -/
def multiply (a b : Int) : Calc Int := do
  record (.product (a * b))
  return a * b

/-- A division, for the log. -/
def divide (a b : Int) : Calc Int := do
  record (.divided a b)
  return a.tdiv b

section

variable (tr : Tracker)

/-- Reads the clock. -/
def checkTime : Calc Unit := do
  let m ← get
  set { m with readings := m.readings + 1 }
  if tr.inTime m.readings then return else throw .resource

/-- How many rounds there are to a look at the clock. -/
def loopCheckInterval : Nat := 64

/-- Reads the clock now and then. -/
def checkTimeEvery (i : Nat) : Calc Unit :=
  if i % loopCheckInterval = loopCheckInterval - 1 then checkTime tr else return

/-- Smaller results are not checked. -/
def largeResultThreshold : Nat := 100000

/-- Whole bytes. -/
def estimateBitsToBytes (bits : Nat) : Nat := min (bits + 7) u64Max / 8

/-- Asks whether a large result is allowed. -/
def checkEstimatedSize (bytes : Nat) : Calc Unit :=
  if bytes > largeResultThreshold ∧ tr.admits bytes = false then throw .resource else return

/-- Announces a result of so many bits. -/
def checkProductSize (bits : Nat) : Calc Unit := do
  record (.reported bits)
  checkEstimatedSize tr (saturatingMul (estimateBitsToBytes bits) 2)

/-- The product of `lo..=hi`, and the number of polls so far. -/
def productRange (lo hi polls : Nat) : Calc (Int × Nat) :=
  if lo > hi then return (1, polls)
  else if h : hi - lo < 32 then do
    checkTimeEvery tr polls
    let product ← (List.range' lo (hi + 1 - lo)).foldlM
      (fun product (i : Nat) => multiply product i) 1
    return (product, polls + 1)
  else do
    let mid := lo + (hi - lo) / 2
    let (low, polls) ← productRange lo mid polls
    let (high, polls) ← productRange (mid + 1) hi polls
    checkTime tr
    return (← multiply low high, polls)
termination_by hi - lo

/-- `math.factorial`. -/
def factorial (n : Int) : Calc Int := do
  if n < 0 then throw (.valueError "factorial() not defined for negative values")
  else if n > i64Max then throw (.overflowError
    "factorial() argument should not exceed 9223372036854775807")
  else
    checkProductSize tr (saturatingMul n.toNat n.toNat.size)
    let (product, _) ← productRange tr 2 n.toNat 0
    return product

/-- The bits that are announced. -/
def resultBits (n : Int) (k : Nat) (binomial : Bool) : Nat :=
  let bits := saturatingMul k n.natAbs.size
  if binomial ∧ 0 ≤ n ∧ n ≤ u64Max then min bits n.toNat else bits

/-- The next factor, and the next divisor of a binomial. -/
def fallingStep (n : Int) (binomial : Bool) (result : Int) (i : Nat) : Calc Int := do
  checkTimeEvery tr i
  let result ← multiply result (n - i)
  if binomial then divide result (i + 1) else return result

/-- The product of the `k` factors from `n` down. -/
def fallingProduct (n : Int) (k : Nat) (binomial : Bool) : Calc Int := do
  checkProductSize tr (resultBits n k binomial)
  (List.range' 0 k).foldlM (fallingStep tr n binomial) 1

/-- `math.comb`. -/
def comb (n k : Int) : Calc Int :=
  if n < 0 then throw (.valueError "n must be a non-negative integer")
  else if k < 0 then throw (.valueError "k must be a non-negative integer")
  else if k > n then return 0
  else
    let k := min k (n - k)
    if k > i64Max then throw (.overflowError "min(n - k, k) must not exceed 9223372036854775807")
    else fallingProduct tr n k.toNat true

/-- `math.perm`. -/
def perm (n : Int) (k : Option Int) : Calc Int :=
  match k with
  | none => factorial tr n
  | some k =>
    if n < 0 then throw (.valueError "n must be a non-negative integer")
    else if k < 0 then throw (.valueError "k must be a non-negative integer")
    else if k > n then return 0
    else if k > i64Max then throw (.overflowError "k must not exceed 9223372036854775807")
    else fallingProduct tr n k.toNat false

end

/-! ## What is logged -/

/-- The latest events are of this kind. -/
def Logs (P : Event → Prop) (m m' : Meter) : Prop :=
  ∃ events, m'.log = events ++ m.log ∧ ∀ e ∈ events, P e

/-- Only a limit stops the computation; otherwise it answers as described, with events of this
kind. -/
def Computes {α : Type} (tr : Tracker) (P : Event → Prop) (x : Calc α) (Q : α → Prop) : Prop :=
  ∀ m, Ensures x m (fun a m' => Q a ∧ Logs P m m') fun err _ => err = .resource ∧ ¬ tr.Unlimited

variable {tr : Tracker} {P : Event → Prop} {m m' : Meter}

theorem Logs.rfl : Logs P m m := ⟨[], by simp, by simp⟩

theorem Logs.trans {m'' : Meter} (h : Logs P m m') (h' : Logs P m' m'') : Logs P m m'' := by
  obtain ⟨es, hlog, hes⟩ := h
  obtain ⟨es', hlog', hes'⟩ := h'
  refine ⟨es' ++ es, by rw [hlog', hlog, List.append_assoc], fun e he => ?_⟩
  exact (List.mem_append.mp he).elim (hes' e) (hes e)

section

variable {α β : Type} {x : Calc α} {f : α → Calc β} {Q : α → Prop} {R : β → Prop}

theorem Computes.pure {a : α} (h : Q a) : Computes tr P (pure a) Q := fun _ => ⟨h, .rfl⟩

theorem Computes.bind (hx : Computes tr P x Q) (hf : ∀ a, Q a → Computes tr P (f a) R) :
    Computes tr P (x >>= f) R := by
  intro m
  refine (hx m).bind fun a m' ha => ?_
  exact (hf a ha.1 m').mono (fun b m'' hb => ⟨hb.1, ha.2.trans hb.2⟩) fun _ _ h => h

theorem computes_checkTime : Computes tr P (checkTime tr) fun _ => True := by
  intro m
  change Ensures (if tr.inTime m.readings then return else throw Failure.resource)
    { m with readings := m.readings + 1 } _ _
  split
  · exact .pure ⟨trivial, [], rfl, by simp⟩
  · exact .throw ⟨rfl, fun h => absurd (h.2 m.readings) ‹_›⟩

theorem computes_checkTimeEvery (i : Nat) : Computes tr P (checkTimeEvery tr i) fun _ => True := by
  rw [checkTimeEvery]
  split
  · exact computes_checkTime
  · exact .pure trivial

theorem computes_multiply {a b c : Int} (hc : a * b = c) (h : P (.product c)) :
    Computes tr P (multiply a b) (· = c) := by
  subst hc
  exact fun _ => ⟨rfl, [.product (a * b)], rfl, by simpa using h⟩

theorem computes_divide {a b c : Int} (ha : a = c * b) (hb : b ≠ 0) (h : P (.divided a b)) :
    Computes tr P (divide a b) (· = c) :=
  fun _ => ⟨by rw [ha, mul_tdiv_cancel _ hb], [.divided a b], rfl, by simpa using h⟩

/-- A loop over consecutive numbers, by the value it has after each. -/
theorem computes_foldlM {step : Int → Nat → Calc Int} {start k : Nat} (value : Nat → Nat)
    (hone : value 0 = 1)
    (h : ∀ i < k, Computes tr P (step (value i) (start + i)) (· = (value (i + 1) : Int))) :
    Computes tr P ((List.range' start k).foldlM step 1) (· = (value k : Int)) := by
  induction k with
  | zero => exact .pure (by rw [hone]; rfl)
  | succ k ih =>
    rw [List.range'_1_concat, List.foldlM_append]
    refine (ih fun i hi => h i (by omega)).bind fun r hr => ?_
    subst hr
    simpa using h k (by omega)

end

/-- After the announcement, products keep to the bits announced (where these fit an `u64`, by `C`)
up to one word, and divisions leave no remainder. -/
def Event.Sound (bits : Nat) (C : Prop) : Event → Prop
  | .reported _ => False
  | .product p => C → p.natAbs.size ≤ bits + 64
  | .divided a b => b ∣ a

/-- Unless a limit is hit the value is computed, after its bits have been announced. Of an empty
product one bit is not. -/
def Announces (tr : Tracker) (x : Calc Int) (value : Nat) (C : Prop) : Prop :=
  ∀ m, Ensures x m (fun r m' => r = value ∧ ∃ bits, (C → value.size ≤ max bits 1) ∧
      Logs (Event.Sound bits C) { m with log := .reported bits :: m.log } m')
    fun err _ => err = .resource ∧ ¬ tr.Unlimited

variable {C : Prop} {bits n k : Nat}

theorem announces_checkProductSize {value : Nat} {rest : Calc Int}
    (hvalue : C → value.size ≤ max bits 1)
    (hrest : Computes tr (Event.Sound bits C) rest (· = (value : Int))) :
    Announces tr (do checkProductSize tr bits; rest) value C := by
  intro m
  have hcheck : Ensures (checkProductSize tr bits) m
      (fun _ m' => m' = { m with log := .reported bits :: m.log })
      fun err _ => err = .resource ∧ ¬ tr.Unlimited := by
    refine .modify_bind _ ?_
    rw [checkEstimatedSize]
    split
    case isTrue h => exact .throw ⟨rfl, fun hall => by simp [hall.1] at h⟩
    case isFalse => exact .pure rfl
  refine hcheck.bind fun _ m' hm' => ?_
  subst hm'
  exact (hrest _).mono (fun r m' hr => ⟨hr.1, bits, hvalue, hr.2⟩) fun _ _ h => h

/-! ## Sizes -/

theorem size_le_of_le_pow {p j : Nat} (hp : p ≤ n ^ j) (hj : 0 < j) (hjk : j ≤ k) : p.size ≤
    k * n.size := by
  rw [size_le]
  calc p ≤ n ^ j := hp
    _ < (2 ^ n.size) ^ j := Nat.pow_lt_pow_left (Nat.lt_size_self n) hj.ne'
    _ = 2 ^ (j * n.size) := by rw [← pow_mul, mul_comm]
    _ ≤ 2 ^ (k * n.size) := Nat.pow_le_pow_right (by decide) (Nat.mul_le_mul_right _ hjk)

/-! ## Factorials -/

theorem ascFactorial_le_pow {lo j : Nat} (hlo : 0 < lo) (hj : lo + j ≤ n + 1) : lo.ascFactorial
    j ≤ n ^ j := by
  obtain ⟨lo, rfl⟩ := Nat.exists_eq_add_of_lt hlo
  rw [zero_add]
  exact (Nat.ascFactorial_le_pow_add lo j).trans (Nat.pow_le_pow_left (by omega) j)

theorem productRange_computes (lo hi polls : Nat) (hlo : 0 < lo)
    (hP : ∀ lo' j, lo ≤ lo' → lo' + j ≤ hi → P (.product (lo'.ascFactorial (j + 1)))) :
    Computes tr P (productRange tr lo hi polls) fun r => r.1 =
      (lo.ascFactorial (hi + 1 - lo) : Int) := by
  induction lo, hi, polls using productRange.induct with
  | case1 lo hi polls h =>
    rw [productRange, if_pos h, show hi + 1 - lo = 0 by omega]
    exact .pure rfl
  | case2 lo hi polls h hshort =>
    rw [productRange, if_neg h, dif_pos hshort]
    refine (computes_checkTimeEvery polls).bind fun _ _ => ?_
    refine (computes_foldlM (fun i => lo.ascFactorial i) rfl fun i hi' => ?_).bind
      fun r hr => .pure hr
    refine computes_multiply ?_ (hP lo i le_rfl (by omega))
    rw [ascFactorial_succ, mul_comm, natCast_mul]
  | case3 lo hi polls h hshort mid ihlow ihhigh =>
    rw [productRange, if_neg h, dif_neg hshort]
    refine (ihlow hlo fun lo' j h1 h2 => hP lo' j h1 (by omega)).bind fun low hlow => ?_
    refine (ihhigh _ (by omega) fun lo' j h1 h2 => hP lo' j (by omega) h2).bind fun high hhigh => ?_
    refine computes_checkTime.bind fun _ _ => ?_
    refine (computes_multiply ?_ ?_).bind fun p hp => .pure hp
    · have hsplit := ascFactorial_mul_ascFactorial lo (mid + 1 - lo) (hi - mid)
      rw [show lo + (mid + 1 - lo) = mid + 1 by omega, show mid + 1 - lo + (hi - mid) =
        hi + 1 - lo by omega] at hsplit
      rw [hlow, hhigh, ← natCast_mul, Nat.add_sub_add_right, hsplit]
    · have := hP lo (hi - lo) le_rfl (by omega)
      rwa [show hi - lo + 1 = hi + 1 - lo by omega] at this

/-- `n!`, as far as its size is an `u64`. -/
theorem factorial_announces (hn : (n : Int) ≤ i64Max) :
    Announces tr (factorial tr n) n ! (n * n.size ≤ u64Max) := by
  rw [factorial, if_neg (by omega), if_neg (by omega), toNat_natCast]
  have hsize : ∀ {lo j : Nat}, 0 < lo → lo + j ≤ n → n * n.size ≤ u64Max →
      (lo.ascFactorial (j + 1)).size ≤ saturatingMul n n.size := by
    intro lo j hlo hj hC
    rw [saturatingMul, min_eq_left hC]
    exact size_le_of_le_pow (ascFactorial_le_pow hlo (by omega)) (by omega) (by omega)
  have hfactorial : ascFactorial 2 (n - 1) = n ! := by
    cases n with
    | zero => rfl
    | succ j => simpa [add_comm] using factorial_mul_ascFactorial 1 j
  refine announces_checkProductSize ?_ ?_
  · intro hC
    rw [← hfactorial]
    cases hcard : n - 1 with
    | zero => exact le_max_right _ 1
    | succ j => exact (hsize (by omega) (by omega) hC).trans (le_max_left _ 1)
  · refine (productRange_computes 2 n 0 (by omega) ?_).bind fun r hr => .pure ?_
    · intro lo j hlo hj hC
      exact (hsize (by omega) hj hC).trans (by omega)
    · rw [hr, ← hfactorial, show n + 1 - 2 = n - 1 by omega]

/-! ## Falling products -/

/-- The partial product after `i` factors. -/
def partialProduct (n : Nat) (b : Bool) (i : Nat) : Nat :=
  if b then n.choose i else n.descFactorial i

/-- What is at most a power of `n`, and for a binomial not much more than `2 ^ n`, has been
announced. -/
theorem size_le_resultBits {b : Bool} {p j d : Nat} (hp : p ≤ n ^ j) (hj : 0 < j) (hjk : j ≤ k)
    (hpow2 : b = true → n ≤ u64Max → p < 2 ^ (n + d))
    (hC : k * n.size ≤ u64Max ∨ b = true ∧ n ≤ u64Max) : p.size ≤ resultBits n k b + d := by
  have hpow := size_le_of_le_pow hp hj hjk
  rw [resultBits, saturatingMul, natAbs_natCast, toNat_natCast]
  by_cases hb : b = true ∧ n ≤ u64Max
  · have := size_le.mpr (hpow2 hb.1 hb.2)
    rw [if_pos ⟨hb.1, by omega, by omega⟩]
    omega
  · rw [if_neg fun h => hb ⟨h.1, by omega⟩]
    have := hC.resolve_right hb
    omega

theorem choose_succ_mul_le (n i : Nat) : n.choose (i + 1) * (i + 1) ≤ n.descFactorial (i + 1) := by
  rw [descFactorial_eq_factorial_mul_choose, mul_comm]
  exact mul_le_mul_right _ (self_le_factorial _)

/-- Factor by factor: each product is announced, and each quotient is the next binomial
coefficient. -/
theorem fallingStep_computes {b : Bool} {i : Nat} (hi : i < k) (hk : k ≤ n)
    (hC : C → k * n.size ≤ u64Max ∨ b = true ∧ n ≤ u64Max) :
    Computes tr (Event.Sound (resultBits n k b) C) (fallingStep tr n b (partialProduct n b i) i)
      (· = (partialProduct n b (i + 1) : Int)) := by
  have hfactor : (n : Int) - i = (n - i : Nat) := by omega
  refine (computes_checkTimeEvery i).bind fun _ _ => ?_
  cases b with
  | false =>
    refine (computes_multiply (c := n.descFactorial (i + 1)) ?_ fun h => ?_).bind
      fun r hr => .pure hr
    · rw [hfactor, ← natCast_mul, descFactorial_succ, mul_comm]
      rfl
    · exact size_le_resultBits (descFactorial_le_pow n _) i.succ_pos hi nofun (hC h)
  | true =>
    refine (computes_multiply (c := (n.choose (i + 1) * (i + 1) : Nat)) ?_ fun h => ?_).bind
      fun r hr => ?_
    · rw [hfactor, ← natCast_mul, choose_succ_right_eq]
      rfl
    · refine size_le_resultBits ((choose_succ_mul_le n i).trans (descFactorial_le_pow n _))
        i.succ_pos hi ?_ (hC h)
      intro _ hn
      rw [pow_add]
      exact mul_lt_mul'' (choose_lt_two_pow n _ (by omega)) (by simp only [u64Max] at hn; omega)
    · subst hr
      rw [natCast_mul]
      exact computes_divide rfl (by omega) ⟨_, Int.mul_comm _ _⟩

theorem fallingProduct_announces {b : Bool} (hk : k ≤ n) :
    Announces tr (fallingProduct tr n k b) (partialProduct n b k)
      (k * n.size ≤ u64Max ∨ b = true ∧ n ≤ u64Max) := by
  have hone : partialProduct n b 0 = 1 := by cases b <;> simp [partialProduct]
  refine announces_checkProductSize (fun hC => ?_) ?_
  · rcases k.eq_zero_or_pos with rfl | hpos
    · rw [hone]
      exact le_max_right _ 1
    refine (size_le_resultBits (d := 0) ?_ hpos le_rfl ?_ hC).trans (le_max_left _ 1)
    · cases b with
      | false => exact descFactorial_le_pow n k
      | true => exact choose_le_pow n k
    · rintro rfl -
      exact choose_lt_two_pow n k (by omega)
  · refine computes_foldlM (partialProduct n b) hone fun i hi => ?_
    rw [zero_add]
    exact fallingStep_computes hi hk id

/-! ## The three functions -/

theorem comb_announces (hk : k ≤ n) (hmin : (min k (n - k) : Nat) ≤ i64Max) :
    Announces tr (comb tr n k) (n.choose k) (min k (n - k) * n.size ≤ u64Max ∨ n ≤ u64Max) := by
  have hmin' : min (k : Int) (n - k) = (min k (n - k) : Nat) := by omega
  have hchoose : n.choose (min k (n - k)) = n.choose k := by
    rcases min_choice k (n - k) with h | h
    · rw [h]
    · rw [h, choose_symm hk]
  rw [comb, if_neg (by omega), if_neg (by omega), if_neg (by omega), hmin',
    if_neg (by omega), toNat_natCast, ← hchoose]
  have h : Announces tr (fallingProduct tr n (min k (n - k)) true) _ _ :=
    fallingProduct_announces (by omega)
  simpa [partialProduct] using h

theorem perm_announces (hk : k ≤ n) (hmax : (k : Int) ≤ i64Max) :
    Announces tr (perm tr n (some k)) (n.descFactorial k) (k * n.size ≤ u64Max) := by
  rw [perm, if_neg (by omega), if_neg (by omega), if_neg (by omega),
    if_neg (by omega), toNat_natCast]
  have h : Announces tr (fallingProduct tr n k false) _ _ := fallingProduct_announces hk
  simpa [partialProduct] using h

/-- **The three functions are exact.** Whatever the limits, only they stop an accepted call;
otherwise the result is the quotient of factorials, and every division on the way was one without
remainder. If the announced number of bits is an `u64` it is that of the result at least, except
that it is `0` for an empty product, and no product on the way has 64 bits more. -/
theorem combinatorics_exact (tr : Tracker) :
    (∀ n : Nat, n ≤ i64Max → Announces tr (factorial tr n) n ! (n * n.size ≤ u64Max) ∧
      Announces tr (perm tr n none) n ! (n * n.size ≤ u64Max)) ∧
    (∀ n k : Nat, k ≤ n → (min k (n - k) : Nat) ≤ i64Max →
      Announces tr (comb tr n k)
        (n ! / (k ! * (n - k)!)) (min k (n - k) * n.size ≤ u64Max ∨ n ≤ u64Max)) ∧
    (∀ n k : Nat, k ≤ n → k ≤ i64Max →
      Announces tr (perm tr n (some k)) (n ! / (n - k)!) (k * n.size ≤ u64Max)) ∧
    ∀ n k : Nat, n < k → ∀ m, comb tr n k m = .ok 0 m ∧ perm tr n (some k) m = .ok 0 m := by
  refine ⟨fun n hn => ⟨factorial_announces hn, factorial_announces hn⟩, fun n k hk hmin => ?_,
    fun n k hk hmax => ?_, fun n k hk m => ⟨?_, ?_⟩⟩
  · rw [← choose_eq_factorial_div_factorial hk]
    exact comb_announces hk hmin
  · rw [← descFactorial_eq_div hk]
    exact perm_announces hk hmax
  · rw [comb, if_neg (by omega), if_neg (by omega), if_pos (by omega), pure_apply]
  · rw [perm, if_neg (by omega), if_neg (by omega), if_pos (by omega), pure_apply]

/-- Everything is allowed. -/
def unlimited : Tracker := ⟨fun _ => true, fun _ => true⟩

/-- Two factors of three bits would be `6`, but two of five are fewer than `2 ^ 5`. -/
theorem combinatorics_exact_two_of_five :
    Announces unlimited (comb unlimited (5 : Nat) (2 : Nat)) (5 ! / (2 ! * (5 - 2)!))
      (min 2 (5 - 2) * size 5 ≤ u64Max ∨ 5 ≤ u64Max) ∧
    comb unlimited 5 2 ⟨0, []⟩ =
      .ok 10 ⟨0, [.divided 20 2, .product 20, .divided 5 1, .product 5, .reported 5]⟩ :=
  ⟨(combinatorics_exact unlimited).2.1 5 2 (by decide) (by decide), rfl⟩

/-- The empty product is announced with no bits, and its value has one. -/
theorem comb_zero_reports_nothing : comb unlimited 5 0 ⟨0, []⟩ = .ok 1
    ⟨0, [.reported 0]⟩ ∧ 0 < size 1 :=
  ⟨rfl, by decide⟩

end Monty.Math
