import Monty.Lib.Fallible
import Monty.Lib.MachineInt
import Monty.Lib.Progression

/-!
# Slices of sequences

`sequence[start:stop:step]`. A slice has three optional bounds, each an `i64`; `Slice.indices`
resolves them for a given length, and `sliceCollectIterator` takes from an iterator what they
select: `take`, `skip` and `step_by` on the iterator, or on the reversed one.

`Slice.reference` is Python's own algorithm, on integers. A step of the machine whose result does
not fit, a conversion that is expected to succeed and does not, and a failed assertion are all
`Failure.panicked`.
-/

namespace Monty.Sequence

open Fallible MachineInt Progression

/-! ## Machine arithmetic -/

/-- The numbers of an `i64`. -/
abbrev FitsI64 (n : Int) : Prop := Fits 63 n

/-- The numbers of an `i128`. -/
abbrev FitsI128 (n : Int) : Prop := Fits 127 n

/-- What an operation on a sequence fails with. -/
inductive Failure where
  /-- `ValueError`, a slice of step zero. -/
  | sliceStepZero
  /-- `IndexError`, an index beyond a range. -/
  | rangeIndex
  /-- `OverflowError`, a number that is no `i64`. -/
  | overflow
  /-- The time limit of the run. -/
  | timedOut
  | panicked
  deriving DecidableEq, Repr

/-- A result that must be an `i64`. -/
def i64 (n : Int) : Except Failure Int := narrow .panicked 63 n

/-- A result that must be an `i128`. -/
def i128 (n : Int) : Except Failure Int := narrow .panicked 127 n

/-- A conversion that must succeed. -/
def usize (n : Int) : Except Failure Nat :=
  if 0 ≤ n ∧ n < 2 ^ 64 then .ok n.toNat else .error .panicked

/-- A conversion with the largest `usize` of 64 bits in place of what does not fit. -/
def usizeOrMax (n : Int) : Nat := PointerWidth.bits64.usizeOrMax n

variable {n : Int}

theorem i64_of_fits (h : FitsI64 n) : i64 n = .ok n := narrow_of_fits h

theorem i128_of_fits (h : FitsI128 n) : i128 n = .ok n := narrow_of_fits h

theorem usize_of_fits (h : 0 ≤ n) (hlt : n < 2 ^ 64) : usize n = .ok n.toNat := if_pos ⟨h, hlt⟩

theorem usizeOrMax_of_fits (h : 0 ≤ n) (hlt : n < 2 ^ 64) : usizeOrMax n = n.toNat :=
  if_pos ⟨h, Int.le_sub_one_of_lt hlt⟩

/-! ## Slices -/

structure Slice where
  start : Option Int
  stop : Option Int
  step : Option Int
  fitsStart : ∀ n ∈ start, FitsI64 n
  fitsStop : ∀ n ∈ stop, FitsI64 n
  fitsStep : ∀ n ∈ step, FitsI64 n

/-- `Ord::clamp`, which asserts that the bounds are in order. -/
def clamp (n lower upper : Int) : Except Failure Int :=
  if lower ≤ upper then .ok (if n < lower then lower else if upper < n then upper else n)
  else .error .panicked

def normalizeIndex (index length lower upper : Int) : Except Failure Int := do
  let offset := if index < 0 then i64 (index + length) else .ok index
  let normalized ← offset
  clamp normalized lower upper

variable (slice : Slice)

namespace Slice

/-- The step, `1` if there is none. -/
def stride : Int := slice.step.getD 1

/-- `Option::map_or` for a bound. -/
def boundOr (bound : Option Int) (default : Int) (normalize : Int → Except Failure Int) :
    Except Failure Int :=
  match bound with
  | none => .ok default
  | some n => normalize n

def indices (length : Nat) : Except Failure (Int × Int × Int) := do
  let step := slice.stride
  if step = 0 then .error .sliceStepZero
  else
    let len : Int := if FitsI64 length then length else i64Max
    if 0 < step then do
      let start ← boundOr slice.start 0 (normalizeIndex · len 0 len)
      let stop ← boundOr slice.stop len (normalizeIndex · len 0 len)
      pure (start, stop, step)
    else do
      let last ← i64 (len - 1)
      let start ← boundOr slice.start last (normalizeIndex · len (-1) last)
      let stop ← boundOr slice.stop (-1) (normalizeIndex · len (-1) last)
      pure (start, stop, step)

end Slice

/-! ## Taking from an iterator -/

/-- What `StepBy` still yields when it has to pass over `skip` items first. -/
def stepByFrom {α : Type} (stepMinusOne : Nat) : Nat → List α → List α
  | _, [] => []
  | 0, item :: rest => item :: stepByFrom stepMinusOne stepMinusOne rest
  | skip + 1, _ :: rest => stepByFrom stepMinusOne skip rest

/-- `Iterator::step_by`, which asserts that the step is not zero. -/
def stepBy {α : Type} (step : Nat) (items : List α) : Except Failure (List α) :=
  if step = 0 then .error .panicked else .ok (stepByFrom (step - 1) 0 items)

/-- What a sequence holds in memory: no more than `isize::MAX` items. -/
structure Items (α : Type) where
  list : List α
  fits : list.length < 2 ^ 63

section

variable {α β : Type} (inTime : Nat → Bool)

/-- Maps the items from number `i` on. The time is checked before each of them. -/
def finalCollect (collectMap : α → β) : Nat → List α → Except Failure (List β)
  | _, [] => .ok []
  | i, item :: items => do
    if inTime i then
      let rest ← finalCollect collectMap (i + 1) items
      pure (collectMap item :: rest)
    else .error .timedOut

/-- The items that a slice selects, mapped. `inTime i` says whether there is time for item `i`. -/
def sliceCollectIterator (slice : Slice) (iter : Items α) (collectMap : α → β) :
    Except Failure (List β) := do
  let length := iter.list.length
  let (start, stop, step) ← slice.indices length
  if 0 < step then do
    let step := usizeOrMax step
    let start ← usize start
    let stop ← usize stop
    let taken ← stepBy step ((iter.list.take stop).drop start)
    finalCollect inTime collectMap 0 taken
  else do
    let step := usizeOrMax step.natAbs
    -- one more than the bound, saturated
    let normalizedStart := length - usizeOrMax (min (start + 1) i64Max)
    let normalizedStop := length - usizeOrMax (min (stop + 1) i64Max)
    let taken ← stepBy step ((iter.list.reverse.take normalizedStop).drop normalizedStart)
    finalCollect inTime collectMap 0 taken

end

/-! ## Python's algorithm -/

namespace Slice

/-- A bound, counted from the end once if it is negative, then cut off. -/
def referenceBound (bound : Option Int) (default length lower upper : Int) : Int :=
  match bound with
  | none => default
  | some n => if n < 0 then max (n + length) lower else min n upper

/-- `slice.indices(length)`: defaults and limits depend on the direction. -/
def reference (length : Int) : Int × Int :=
  if 0 < slice.stride then
    (referenceBound slice.start 0 length 0 length, referenceBound slice.stop length length 0 length)
  else
    (referenceBound slice.start (length - 1) length (-1) (length - 1),
      referenceBound slice.stop (-1) length (-1) (length - 1))

/-- The indices that Python selects, in order. -/
def selected (length : Int) (hstep : slice.stride ≠ 0) : List Int :=
  walk (slice.reference length).2 slice.stride hstep (slice.reference length).1

end Slice

def itemAt {α : Type} (items : List α) (index : Int) : Option α :=
  if 0 ≤ index then items[index.toNat]? else none

/-! ## The bounds are Python's -/

theorem Slice.stride_fits : FitsI64 slice.stride := by
  rw [stride]
  cases h : slice.step with
  | none => exact (by decide : FitsI64 1)
  | some n => exact slice.fitsStep n (by simp [h])

variable {lower upper : Int}

theorem clamp_eq (h : lower ≤ upper) : clamp n lower upper = .ok (max lower (min n upper)) := by
  rw [clamp, if_pos h]
  congr 1
  split_ifs <;> omega

variable {length : Int}

theorem normalizeIndex_eq (hn : FitsI64 n) (hlength : FitsI64 length)
    (hnonneg : 0 ≤ length) (h : lower ≤ upper) :
    normalizeIndex n length lower upper =
      .ok (max lower (min (if n < 0 then n + length else n) upper)) := by
  have hsum : (if n < 0 then i64 (n + length) else .ok n) =
      Except.ok (if n < 0 then n + length else n) := by
    split_ifs with hneg
    · refine i64_of_fits ⟨?_, ?_⟩
      · have := hn.1
        omega
      · have := hlength.2
        omega
    · rfl
  rw [normalizeIndex]
  simp only [hsum, ok_bind]
  exact clamp_eq h

variable {bound : Option Int} {default : Int}

/-- With limits between which the length leaves room, cutting off on both sides is what Python
does. -/
theorem boundOr_eq (hbound : ∀ n ∈ bound, FitsI64 n) (hlength : FitsI64 length)
    (hnonneg : 0 ≤ length) (hlower : lower ≤ 0) (h : lower ≤ upper) (hupper : length - 1 ≤ upper) :
    Slice.boundOr bound default (normalizeIndex · length lower upper) =
      .ok (Slice.referenceBound bound default length lower upper) := by
  cases bound with
  | none => rfl
  | some n =>
    rw [Slice.boundOr, normalizeIndex_eq (hbound n rfl) hlength hnonneg h, Slice.referenceBound]
    congr 1
    split_ifs <;> omega

theorem referenceBound_mem (hdefault : lower ≤ default ∧ default ≤ upper) (hlower : lower ≤ 0)
    (hupper : length - 1 ≤ upper) :
    lower ≤ Slice.referenceBound bound default length lower upper ∧
      Slice.referenceBound bound default length lower upper ≤ upper := by
  cases bound with
  | none => exact hdefault
  | some n =>
    rw [Slice.referenceBound]
    split_ifs <;> omega

namespace Slice

variable {slice : Slice} {length : Nat}

theorem fits_length (h : length < 2 ^ 63) : FitsI64 length := by
  constructor <;> omega

theorem reference_forward (hpos : 0 < slice.stride) : slice.reference length =
      (referenceBound slice.start 0 length 0 length, referenceBound slice.stop length
        length 0 length) :=
  if_pos hpos

theorem reference_backward (hneg : slice.stride < 0) : slice.reference length =
      (referenceBound slice.start (length - 1) length (-1) (length - 1),
        referenceBound slice.stop (-1) length (-1) (length - 1)) :=
  if_neg (by omega)

/-- Both bounds are indices or the end. -/
theorem reference_mem_forward (length : Nat) (hpos : 0 < slice.stride) :
    (0 ≤ (slice.reference length).1 ∧ (slice.reference length).1 ≤ length) ∧
      0 ≤ (slice.reference length).2 ∧ (slice.reference length).2 ≤ length := by
  rw [reference_forward hpos]
  exact ⟨referenceBound_mem ⟨by omega, by omega⟩ (by omega) (by omega),
    referenceBound_mem ⟨by omega, by omega⟩ (by omega) (by omega)⟩

/-- Both bounds are indices or the place before the first. -/
theorem reference_mem_backward (length : Nat) (hneg : slice.stride < 0) :
    (-1 ≤ (slice.reference length).1 ∧ (slice.reference length).1 ≤ length - 1) ∧
      -1 ≤ (slice.reference length).2 ∧ (slice.reference length).2 ≤ length - 1 := by
  rw [reference_backward hneg]
  exact ⟨referenceBound_mem ⟨by omega, by omega⟩ (by omega) (by omega),
    referenceBound_mem ⟨by omega, by omega⟩ (by omega) (by omega)⟩

theorem indices_of_zero (hstep : slice.stride = 0) :
    slice.indices length = .error .sliceStepZero := by
  rw [indices, if_pos hstep]

/-- What is beyond `i64::MAX` is not seen. -/
theorem indices_min : slice.indices (min length (2 ^ 63 - 1)) = slice.indices length := by
  have hlen : (if FitsI64 (min length (2 ^ 63 - 1) : Nat)
      then ((min length (2 ^ 63 - 1) : Nat) : Int) else i64Max) =
      if FitsI64 length then (length : Int) else i64Max := by
    rw [if_pos ⟨by omega, by omega⟩, i64Max]
    split_ifs with h
    · have := h.2
      omega
    · have : ¬ (length : Int) < 2 ^ 63 := fun hlt => h ⟨by omega, hlt⟩
      omega
  simp only [indices, hlen]

theorem indices_eq (hstep : slice.stride ≠ 0) (hlength : length < 2 ^ 63) : slice.indices length =
      .ok ((slice.reference length).1, (slice.reference length).2, slice.stride) := by
  have hfits := fits_length hlength
  rw [indices, if_neg hstep]
  simp only [if_pos hfits]
  split_ifs with hpos
  · rw [boundOr_eq slice.fitsStart hfits (by omega) (by omega) (by omega) (by omega), ok_bind,
      boundOr_eq slice.fitsStop hfits (by omega) (by omega) (by omega) (by omega), ok_bind,
      reference_forward hpos]
    rfl
  have hlast : FitsI64 ((length : Int) - 1) := by
    constructor
    · omega
    · omega
  rw [i64_of_fits hlast, ok_bind,
    boundOr_eq slice.fitsStart hfits (by omega) (by omega) (by omega) (by omega), ok_bind,
    boundOr_eq slice.fitsStop hfits (by omega) (by omega) (by omega) (by omega), ok_bind,
    reference_backward (by omega)]
  rfl

theorem mem_selected (hstep : slice.stride ≠ 0) {index : Int}
    (h : index ∈ slice.selected length hstep) : 0 ≤ index ∧ index < length := by
  obtain ⟨j, hj, hbefore⟩ := (mem_walk hstep _ _).mp h
  rcases Int.lt_or_gt_of_ne hstep with hneg | hpos
  · have hmem := reference_mem_backward length hneg
    rw [before_of_neg hneg] at hbefore
    have hle : (j : Int) * slice.stride ≤ 0 := by nlinarith
    omega
  · have hmem := reference_mem_forward length hpos
    rw [before_of_pos hpos] at hbefore
    have hle : 0 ≤ (j : Int) * slice.stride := by nlinarith
    omega

end Slice

/-! ## The items are Python's -/

section

variable {α β : Type} (inTime : Nat → Bool)

theorem getElem?_stepByFrom (stepMinusOne skip j : Nat) (items : List α) :
    (stepByFrom stepMinusOne skip items)[j]? = items[skip + j * (stepMinusOne + 1)]? := by
  induction items generalizing skip j with
  | nil => simp [stepByFrom]
  | cons item rest ih =>
    cases skip with
    | zero =>
      cases j with
      | zero => simp [stepByFrom]
      | succ j =>
        rw [stepByFrom, List.getElem?_cons_succ, ih,
          show 0 + (j + 1) * (stepMinusOne + 1) = stepMinusOne + j * (stepMinusOne + 1) + 1 by ring,
          List.getElem?_cons_succ]
    | succ skip =>
      rw [stepByFrom, ih,
        show skip + 1 + j * (stepMinusOne + 1) = skip + j * (stepMinusOne + 1) + 1 by omega,
        List.getElem?_cons_succ]

theorem stepBy_eq {step : Nat} (h : 0 < step) (items : List α) :
    stepBy step items = .ok (stepByFrom (step - 1) 0 items) := if_neg (by omega)

theorem getElem?_stepped {step : Nat} (h : 0 < step) (items : List α) (start stop j : Nat) :
    (stepByFrom (step - 1) 0 ((items.take stop).drop start))[j]? =
      if start + j * step < stop then items[start + j * step]? else none := by
  rw [getElem?_stepByFrom, List.getElem?_drop, Nat.sub_add_cancel h, Nat.zero_add,
    List.getElem?_take]

variable {slice : Slice}

/-- A list of items is read off at a list of indices if each place agrees. -/
theorem map_some_eq_map_itemAt {items picked : List α} {hstep : slice.stride ≠ 0}
    (h : ∀ j : Nat, picked[j]? =
      if Before (slice.reference items.length).2 slice.stride
          ((slice.reference items.length).1 + j * slice.stride) then
        itemAt items ((slice.reference items.length).1 + j * slice.stride)
      else none) :
    picked.map some = (slice.selected items.length hstep).map (itemAt items) := by
  refine List.ext_getElem? fun j => ?_
  rw [List.getElem?_map, List.getElem?_map, h, Slice.selected, getElem?_walk]
  split_ifs with hbefore
  · have hmem := Slice.mem_selected hstep ((mem_walk hstep _ _).mpr ⟨j, rfl, hbefore⟩)
    rw [Option.map_some, itemAt, if_pos hmem.1, List.getElem?_eq_getElem (by omega)]
    rfl
  · rfl

theorem collect_forward (hpos : 0 < slice.stride) (iter : Items α) (collectMap : α → β) :
    ∃ picked : List α, sliceCollectIterator inTime slice iter collectMap =
        finalCollect inTime collectMap 0 picked ∧
      picked.map some = (slice.selected iter.list.length (by omega)).map (itemAt iter.list) := by
  have hfits := iter.fits
  obtain ⟨⟨hstart, hstartLe⟩, hstop, hstopLe⟩ := Slice.reference_mem_forward iter.list.length hpos
  have hstride := slice.stride_fits.2
  rw [sliceCollectIterator, Slice.indices_eq (by omega) hfits]
  simp only [ok_bind, if_pos hpos]
  rw [usize_of_fits hstart (by omega), ok_bind, usize_of_fits hstop (by omega), ok_bind,
    usizeOrMax_of_fits hpos.le (by omega), stepBy_eq (by omega), ok_bind]
  refine ⟨_, rfl, map_some_eq_map_itemAt fun j => ?_⟩
  rw [getElem?_stepped (by omega)]
  simp only [before_of_pos hpos]
  have hindex : (((slice.reference iter.list.length).1.toNat + j * slice.stride.toNat : Nat) :
      Int) = (slice.reference iter.list.length).1 + j * slice.stride := by
    push_cast
    rw [Int.toNat_of_nonneg hstart, Int.toNat_of_nonneg hpos.le]
  rw [← hindex, itemAt, if_pos (Int.natCast_nonneg _), Int.toNat_natCast]
  refine if_congr ?_ rfl rfl
  omega

/-- The place of an index, counted from the end. -/
theorem getElem?_reverse_eq_itemAt (items : List α) {i : Nat} (hi : i < items.length) :
    items.reverse[i]? = itemAt items (items.length - 1 - i) := by
  rw [List.getElem?_reverse hi, itemAt, if_pos (by omega)]
  congr 1
  omega

theorem collect_backward (hneg : slice.stride < 0) (iter : Items α) (collectMap : α → β) :
    ∃ picked : List α, sliceCollectIterator inTime slice iter collectMap =
        finalCollect inTime collectMap 0 picked ∧
      picked.map some = (slice.selected iter.list.length (by omega)).map (itemAt iter.list) := by
  have hfits := iter.fits
  obtain ⟨⟨hstart, hstartLe⟩, hstop, hstopLe⟩ := Slice.reference_mem_backward iter.list.length hneg
  have hstride := slice.stride_fits.1
  -- neither bound saturates
  have hbound : ∀ n : Int, -1 ≤ n → n ≤ iter.list.length - 1 →
      usizeOrMax (min (n + 1) i64Max) = (n + 1).toNat := by
    intro n hn hle
    rw [Int.min_eq_left (by rw [i64Max]; omega)]
    exact usizeOrMax_of_fits (by omega) (by omega)
  rw [sliceCollectIterator, Slice.indices_eq (by omega) hfits]
  simp only [ok_bind, if_neg (show ¬ 0 < slice.stride by omega)]
  rw [hbound _ hstart hstartLe, hbound _ hstop hstopLe,
    usizeOrMax_of_fits (Int.natCast_nonneg _) (by omega), Int.toNat_natCast, stepBy_eq (by omega),
    ok_bind]
  refine ⟨_, rfl, map_some_eq_map_itemAt fun j => ?_⟩
  rw [getElem?_stepped (by omega)]
  simp only [before_of_neg hneg]
  have hstep : ((j * slice.stride.natAbs : Nat) : Int) = -(j * slice.stride) := by
    push_cast
    rw [abs_of_neg hneg]
    ring
  split_ifs with hlt hbefore hbefore
  · rw [getElem?_reverse_eq_itemAt _ (by omega)]
    congr 1
    omega
  · omega
  · omega
  · rfl

theorem finalCollect_eq (collectMap : α → β) (i : Nat) (items : List α) :
    finalCollect inTime collectMap i items = if ∀ j < items.length, inTime (i + j) = true then
      .ok (items.map collectMap) else .error .timedOut := by
  induction items generalizing i with
  | nil => simp [finalCollect]
  | cons item items ih =>
    simp only [finalCollect, ih, List.length_cons, Nat.forall_lt_succ_left, Nat.add_zero,
      Nat.add_right_comm i _ 1, ← Nat.add_assoc]
    by_cases hi : inTime i = true
    · simp only [hi, if_true, true_and]
      split_ifs <;> rfl
    · simp [hi]

/-- The shared back end of slicing: an error just if the step is zero, or if there is no time for
one of the items, and otherwise the items at the indices that Python selects, in that order. -/
theorem sliceCollectIterator_selected (slice : Slice) (iter : Items α) (collectMap : α → β) :
    (slice.stride = 0 → sliceCollectIterator inTime slice iter collectMap = .error .sliceStepZero) ∧
      ∀ hstep : slice.stride ≠ 0, ∃ picked : List α,
        sliceCollectIterator inTime slice iter collectMap =
            (if ∀ i < picked.length, inTime i = true then .ok (picked.map collectMap)
              else .error .timedOut) ∧
          picked.map some = (slice.selected iter.list.length hstep).map (itemAt iter.list) := by
  refine ⟨fun hzero => ?_, fun hstep => ?_⟩
  · rw [sliceCollectIterator, Slice.indices_of_zero hzero]
    rfl
  · have hcollect : ∀ picked, finalCollect inTime collectMap 0 picked = _ :=
      finalCollect_eq inTime collectMap 0
    simp only [Nat.zero_add] at hcollect
    simp only [← hcollect]
    rcases Int.lt_or_gt_of_ne hstep with hneg | hpos
    · exact collect_backward inTime hneg iter collectMap
    · exact collect_forward inTime hpos iter collectMap

end

/-- `sequence[::step]`. -/
def Slice.every (step : Int) (h : FitsI64 step) : Slice where
  start := none
  stop := none
  step := some step
  fitsStart := nofun
  fitsStop := nofun
  fitsStep := fun n hn => by cases hn; exact h

/-- The smallest step takes the last item only. -/
theorem sliceCollectIterator_selected_smallest : ∃ picked : List Nat,
      sliceCollectIterator (fun _ => true) (Slice.every (-2 ^ 63) (by decide))
        ⟨[7, 8, 9], by decide⟩ id = .ok (picked.map id) ∧
      picked.map some = ((Slice.every (-2 ^ 63) (by decide)).selected 3 (by decide)).map
        (itemAt [7, 8, 9]) := by
  obtain ⟨picked, hrun, hpicked⟩ := (sliceCollectIterator_selected (fun _ => true)
    (.every (-2 ^ 63) (by decide)) ⟨[7, 8, 9], by decide⟩ id).2 (by decide)
  rw [if_pos fun _ _ => rfl] at hrun
  exact ⟨picked, hrun, hpicked⟩

/-- `sequence[-1:]`. -/
def Slice.last : Slice where
  start := some (-1)
  stop := none
  step := none
  fitsStart := fun n hn => by cases hn; decide
  fitsStop := nofun
  fitsStep := nofun

end Monty.Sequence
