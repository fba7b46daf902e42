import Monty.Sequence.Slice

/-!
# Ranges

A `Range` stands for the progression from `start` up or down to `stop`, and every operation on it is
a closed formula: the length is a quotient, membership a remainder, an item a product, all in 128
bits. `Range.sequence` is the progression itself, and the operations are those of a sequence, as far
as the length is not cut off. `len` cuts it off at `usize::MAX`, which a range on a target of 32
bits can exceed: then iteration ends early, and ranges that differ only in what is cut off are
equal. Slicing computes a new range, and there the two part on every target: the length is cut off
at `i64::MAX` too before the bounds are resolved, and the end of the new range, which is no item of
it, must be an `i64`.
-/

namespace Monty.Sequence

open Fallible MachineInt Progression List Int Slice

/-- A range: what it starts with, where it ends, and its step. -/
structure Range where
  start : Int
  stop : Int
  step : Int
  fitsStart : FitsI64 start
  fitsStop : FitsI64 stop
  fitsStep : FitsI64 step
  step_ne : step ≠ 0
  deriving DecidableEq

/-- A result that is refused if it does not fit 64 bits. -/
def toI64 (n : Int) : Except Failure Int := narrow .overflow 63 n

namespace Range

variable (width : PointerWidth) (range : Range)

/-- The exact length; `ceilDiv` is `div_ceil`. -/
def lenI128 : Except Failure Int := do
  let distance ← i128 (range.stop - range.start)
  let quotient ← i128 (ceilDiv distance range.step)
  pure (max quotient 0)

/-- The length, cut off at what the target can count. -/
def len : Except Failure Nat := do
  let exact ← range.lenI128
  pure (width.usizeOrMax exact)

/-- Whether a number is an item. -/
def contains (n : Int) : Except Failure Bool :=
  let inBounds :=
    if 0 < range.step then range.start ≤ n ∧ n < range.stop
    else n ≤ range.start ∧ range.stop < n
  if ¬ inBounds then .ok false
  else do
    let distance ← i128 (n - range.start)
    pure (distance.tmod range.step == 0)

/-- The item at an index, from the end if the index is negative. -/
def getItem (index : Int) : Except Failure Int := do
  let len ← range.lenI128
  let offset := if index < 0 then i128 (index + len) else .ok index
  let normalized ← offset
  if normalized < 0 ∨ len ≤ normalized then .error .rangeIndex
  else do
    let product ← i128 (normalized * range.step)
    let offset ← i128 (range.start + product)
    toI64 offset

/-- Whether two ranges are equal. -/
def pyEq (a b : Range) : Except Failure Bool := do
  let len1 ← a.len width
  let len2 ← b.len width
  if len1 ≠ len2 then pure false
  else if len1 = 0 then pure true
  else if len1 = 1 then pure (a.start == b.start)
  else pure (a.start == b.start && a.step == b.step)

/-- A new range of given numbers. -/
def new (start stop step : Int) : Except Failure Range :=
  if h : FitsI64 start ∧ FitsI64 stop ∧ FitsI64 step ∧ step ≠ 0 then
    .ok ⟨start, stop, step, h.1, h.2.1, h.2.2.1, h.2.2.2⟩
  else .error .panicked

/-- The slice of a range, which is a range. -/
def getitemSlice (slice : Slice) : Except Failure Range := do
  let rangeLen ← range.len width
  let (start, stop, sliceStep) ← slice.indices rangeLen
  let newStep ← i128 (range.step * sliceStep)
  let offset ← i128 (start * range.step)
  let newStart ← i128 (range.start + offset)
  let distance ← i128 (stop - start)
  let numElements ← i128 (ceilDiv distance sliceStep)
  let extent ← i128 (numElements * newStep)
  let newStop ← i128 (newStart + extent)
  let newStep ← toI64 newStep
  let newStart ← toI64 newStart
  let newStop ← toI64 newStop
  new newStart newStop newStep

/-- The hash, given what the hasher makes of the numbers written to it. -/
def pyHash {η : Type} (finish : List Int → η) (range : Range) : Except Failure η := do
  let len ← range.len width
  let written : List Int :=
    if 0 < len then
      if 1 < len then [(len : Int), range.start, range.step] else [(len : Int), range.start]
    else [(len : Int)]
  pure (finish written)

end Range

/-! ## Iterators -/

/-- The state of an iteration. -/
structure RangeIterator where
  next : Int
  step : Int
  remaining : Nat

namespace RangeIterator

/-- The iterator of a range. -/
def allocate (width : PointerWidth) (range : Range) : Except Failure RangeIterator := do
  let remaining ← range.len width
  pure { next := range.start, step := range.step, remaining }

/-- The next item, if there is one. -/
def pyNext (iter : RangeIterator) : Except Failure (Option Int × RangeIterator) :=
  if iter.remaining = 0 then .ok (none, iter)
  else
    let remaining := iter.remaining - 1
    -- past the last item nothing is added
    let following := if 0 < remaining then i64 (iter.next + iter.step) else .ok iter.next
    do
      let next ← following
      pure (some iter.next, { iter with next, remaining })

/-- What a number of calls in a row return. -/
def run : Nat → RangeIterator → Except Failure (List (Option Int))
  | 0, _ => .ok []
  | calls + 1, iter => do
    let (item, iter) ← iter.pyNext
    let items ← run calls iter
    pure (item :: items)

end RangeIterator

/-! ## The sequence -/

namespace Range

/-- What the range stands for. -/
def sequence (range : Range) : List Int := walk range.stop range.step range.step_ne range.start

variable (range : Range)

theorem length_sequence :
    (range.sequence.length : Int) = max (ceilDiv (range.stop - range.start) range.step) 0 :=
  length_walk range.step_ne range.start

theorem getElem?_sequence {j : Nat} (h : j < range.sequence.length) :
    range.sequence[j]? = some (range.start + j * range.step) := by
  rw [sequence, getElem?_walk, if_pos ((lt_length_walk range.step_ne _ _).mp h)]

theorem fits_item {j : Nat} (h : j < range.sequence.length) :
    FitsI64 (range.start + j * range.step) := by
  have hbefore := (lt_length_walk range.step_ne _ _).mp h
  have hstart := range.fitsStart
  have hstop := range.fitsStop
  rcases lt_or_gt_of_ne range.step_ne with hneg | hpos
  · rw [before_of_neg hneg] at hbefore
    have hle : (j : Int) * range.step ≤ 0 := by nlinarith
    exact ⟨le_trans hstop.1 hbefore.le, lt_of_le_of_lt (by omega) hstart.2⟩
  · rw [before_of_pos hpos] at hbefore
    have hle : 0 ≤ (j : Int) * range.step := by nlinarith
    exact ⟨le_trans hstart.1 (by omega), lt_trans hbefore hstop.2⟩

theorem abs_distance_lt : |range.stop - range.start| < 2 ^ 64 := by
  have hstart := range.fitsStart
  have hstop := range.fitsStop
  rw [abs_lt]
  exact ⟨by linarith [hstart.2, hstop.1], by linarith [hstart.1, hstop.2]⟩

theorem length_sequence_lt : (range.sequence.length : Int) < 2 ^ 64 := by
  have hdistance := range.abs_distance_lt
  have hquotient := abs_le.mp (abs_ceilDiv_le range.step_ne (range.stop - range.start))
  have hlength := range.length_sequence
  omega

theorem lenI128_eq : range.lenI128 = .ok (range.sequence.length : Int) := by
  have hdistance := range.abs_distance_lt
  have hquotient := abs_ceilDiv_le range.step_ne (range.stop - range.start)
  obtain ⟨hlow, hhigh⟩ := abs_lt.mp hdistance
  obtain ⟨hbelow, habove⟩ := abs_le.mp hquotient
  rw [lenI128, i128_of_fits ⟨by linarith, by linarith⟩, ok_bind,
    i128_of_fits ⟨by linarith, by linarith⟩, ok_bind, length_sequence]
  rfl

variable (width : PointerWidth)

/-- How many items of a range the target can count. -/
def counted : Nat := min range.sequence.length width.usizeMax

theorem len_eq : range.len width = .ok (range.counted width) := by
  rw [len, lenI128_eq, ok_bind, width.usizeOrMax_natCast]
  rfl

/-! ## Membership -/

theorem mem_sequence (n : Int) : n ∈ range.sequence ↔
      (if 0 < range.step then range.start ≤ n ∧ n < range.stop
        else n ≤ range.start ∧ range.stop < n) ∧ range.step ∣ n - range.start := by
  rw [sequence, mem_walk]
  constructor
  · rintro ⟨j, rfl, hbefore⟩
    refine ⟨?_, j, by ring⟩
    split_ifs with hpos
    · rw [before_of_pos hpos] at hbefore
      exact ⟨by nlinarith, hbefore⟩
    have hneg : range.step < 0 := by
      have := range.step_ne
      omega
    rw [before_of_neg hneg] at hbefore
    exact ⟨by nlinarith, hbefore⟩
  · rintro ⟨hbounds, k, hk⟩
    -- the quotient is not negative, since the distance has the sign of the step
    have hnonneg : 0 ≤ k := by
      by_contra hlt
      split_ifs at hbounds with hpos
      · nlinarith
      · have := range.step_ne
        have hneg : range.step < 0 := by omega
        nlinarith
    refine ⟨k.toNat, ?_, ?_⟩
    · rw [toNat_of_nonneg hnonneg, mul_comm]
      omega
    · rw [Before]
      split_ifs at hbounds ⊢
      · exact hbounds.2
      · exact hbounds.2

theorem contains_eq {n : Int} (hn : FitsI64 n) :
    range.contains n = .ok (decide (n ∈ range.sequence)) := by
  have hstart := range.fitsStart
  have hfits : FitsI128 (n - range.start) :=
    ⟨by linarith [hn.1, hstart.2], by linarith [hn.2, hstart.1]⟩
  rw [contains]
  simp only [mem_sequence, i128_of_fits hfits, ok_bind]
  by_cases hbounds : if 0 < range.step then range.start ≤ n ∧ n < range.stop
    else n ≤ range.start ∧ range.stop < n
  · rw [if_neg (not_not.mpr hbounds)]
    simp only [hbounds, true_and, dvd_iff_tmod_eq_zero]
    rfl
  · simp [hbounds]

/-! ## Items -/

/-- Python's indexing of a sequence: negative indices count from the end. -/
def pyIndex {α : Type} (items : List α) (index : Int) : Option α :=
  itemAt items (if index < 0 then index + items.length else index)

theorem getItem_eq {index : Int} (hindex : FitsI64 index) : range.getItem index =
      match pyIndex range.sequence index with
      | some item => .ok item
      | none => .error .rangeIndex := by
  have hlt := range.length_sequence_lt
  have hnormalized : (if index < 0 then i128 (index + range.sequence.length) else .ok index) =
      Except.ok (if index < 0 then index + (range.sequence.length : Int) else index) := by
    split_ifs
    · exact i128_of_fits ⟨by linarith [hindex.1, natCast_nonneg range.sequence.length],
        by linarith [hindex.2]⟩
    · rfl
  rw [getItem, lenI128_eq, ok_bind]
  simp only [hnormalized, ok_bind]
  rw [pyIndex]
  generalize (if index < 0 then index + (range.sequence.length : Int) else index) = place
  rw [itemAt]
  split_ifs with hout hnonneg hnonneg
  · rw [getElem?_eq_none (by omega)]
  · rfl
  · have hin : place.toNat < range.sequence.length := by omega
    have hitem := range.fits_item hin
    rw [range.getElem?_sequence hin]
    rw [toNat_of_nonneg hnonneg] at hitem ⊢
    have hstart := range.fitsStart
    have hproduct : FitsI128 (place * range.step) :=
      ⟨by linarith [hitem.1, hstart.2], by linarith [hitem.2, hstart.1]⟩
    rw [i128_of_fits hproduct, ok_bind,
      i128_of_fits ⟨by linarith [hitem.1], by linarith [hitem.2]⟩, ok_bind]
    exact narrow_of_fits hitem
  · exact absurd (not_or.mp hout).1 (by omega)

/-! ## Iteration -/

end Range

namespace RangeIterator

/-- An iterator before item `index` of a range. -/
def At (width : PointerWidth) (range : Range) (index : Nat) (iter : RangeIterator) : Prop :=
  iter.step = range.step ∧ iter.remaining = range.counted width - index ∧
    (index < range.counted width → iter.next = range.start + index * range.step)

variable (width : PointerWidth) {range : Range}

theorem at_allocate (range : Range) :
    ∃ iter, allocate width range = .ok iter ∧ At width range 0 iter := by
  refine ⟨⟨range.start, range.step, range.counted width⟩, ?_, rfl, rfl, fun _ => by simp⟩
  rw [allocate, range.len_eq, ok_bind]
  rfl

variable {width} {iter : RangeIterator} {index : Nat}

theorem pyNext_spec (h : At width range index iter) :
    ∃ iter', iter.pyNext = .ok ((range.sequence.take width.usizeMax)[index]?, iter') ∧
      At width range (index + 1) iter' := by
  obtain ⟨hstep, hremaining, hnext⟩ := h
  rw [pyNext]
  split_ifs with hzero
  · refine ⟨iter, ?_, hstep, by omega, fun hlt => by omega⟩
    rw [getElem?_eq_none (by rw [length_take, Nat.min_comm, ← Range.counted]; omega)]
  have hlt : index < range.counted width := by omega
  have hle : range.counted width ≤ range.sequence.length := Nat.min_le_left ..
  have hcut : index < width.usizeMax := Nat.lt_of_lt_of_le hlt (Nat.min_le_right ..)
  rw [getElem?_take_of_lt hcut, range.getElem?_sequence (by omega), ← hnext hlt]
  simp only
  split_ifs with hmore
  · have hsum : iter.next + iter.step = range.start + (index + 1 : Nat) * range.step := by
      rw [hnext hlt, hstep]
      push_cast
      ring
    rw [hsum, i64_of_fits (range.fits_item (show index + 1 < range.sequence.length by omega))]
    exact ⟨_, rfl, hstep, by simp only; omega, fun _ => rfl⟩
  · exact ⟨_, rfl, hstep, by simp only; omega, fun hlast => by omega⟩

theorem run_spec (h : At width range index iter) (calls : Nat) :
    iter.run calls = .ok ((range' index calls).map ((range.sequence.take width.usizeMax)[·]?)) := by
  induction calls generalizing index iter with
  | zero => rfl
  | succ calls ih =>
    obtain ⟨iter', hnext, hat⟩ := pyNext_spec h
    rw [run, hnext, ok_bind]
    simp only [ih hat, ok_bind]
    rfl

end RangeIterator

theorem map_getElem?_range {α : Type} (items : List α) (count : Nat) :
    (range' 0 count).map (items[·]?) =
      (items.take count).map some ++ replicate (count - items.length) none := by
  refine ext_getElem? fun j => ?_
  rw [getElem?_map, getElem?_append, length_map, length_take,
    getElem?_replicate, getElem?_map, getElem?_take]
  by_cases hj : j < count
  · rw [getElem?_range' hj]
    by_cases hlt : j < items.length
    · simp [hlt, hj]
    · rw [if_neg (by omega), if_pos (by omega)]
      simp only [Option.map_some, Nat.zero_add, Nat.one_mul]
      rw [getElem?_eq_none (by omega)]
  rw [getElem?_eq_none (by simpa using hj)]
  split_ifs
  · omega
  · omega
  · rfl

/-! ## Equality -/

namespace Range

/-- A range is determined by its length, its first item and, from two items on, its step. -/
theorem sequence_eq_iff (a b : Range) : a.sequence = b.sequence ↔
      a.sequence.length = b.sequence.length ∧ (0 < a.sequence.length → a.start = b.start) ∧
        (1 < a.sequence.length → a.step = b.step) := by
  constructor
  · intro h
    have hitem : ∀ j : Nat, j < a.sequence.length →
        a.start + j * a.step = b.start + j * b.step := by
      intro j hj
      rw [← Option.some_inj, ← a.getElem?_sequence hj, ← b.getElem?_sequence (h ▸ hj), h]
    refine ⟨by rw [h], fun hlt => by simpa using hitem 0 hlt, fun hlt => ?_⟩
    have hfirst := hitem 0 (by omega)
    have hsecond := hitem 1 hlt
    push_cast at hfirst hsecond
    omega
  · rintro ⟨hlength, hstart, hstep⟩
    refine ext_getElem? fun j => ?_
    by_cases hj : j < a.sequence.length
    · rw [a.getElem?_sequence hj, b.getElem?_sequence (hlength ▸ hj), hstart (by omega)]
      cases j with
      | zero => simp
      | succ j => rw [hstep (by omega)]
    · rw [getElem?_eq_none (by omega), getElem?_eq_none (by omega)]

variable (width : PointerWidth)

theorem two_le_usizeMax : 2 ≤ width.usizeMax := by cases width <;> decide

/-- What is compared: the length as it is counted, the first item and, from two items on, the
step. -/
theorem pyEq_eq (a b : Range) : a.pyEq width b = .ok (decide (a.counted width = b.counted width ∧
    (0 < a.counted width → a.start = b.start) ∧ (1 < a.counted width → a.step = b.step))) := by
  rw [pyEq, a.len_eq, ok_bind, b.len_eq, ok_bind]
  split_ifs with hlength hzero hone
  · rw [decide_eq_false fun h => hlength h.1]
    rfl
  · rw [decide_eq_true ⟨not_not.mp hlength, by omega, by omega⟩]
    rfl
  · refine congrArg Except.ok (Bool.eq_iff_iff.mpr ?_)
    rw [beq_iff_eq, decide_eq_true_iff]
    exact ⟨fun h => ⟨not_not.mp hlength, fun _ => h, by omega⟩, fun h => h.2.1 (by omega)⟩
  · refine congrArg Except.ok (Bool.eq_iff_iff.mpr ?_)
    rw [Bool.and_eq_true, beq_iff_eq, beq_iff_eq, decide_eq_true_iff]
    exact ⟨fun h => ⟨not_not.mp hlength, fun _ => h.1, fun _ => h.2⟩,
      fun h => ⟨h.2.1 (by omega), h.2.2 (by omega)⟩⟩

/-- Two ranges that differ only in items that are not counted. -/
def Confused (a b : Range) : Prop :=
  a.start = b.start ∧ a.step = b.step ∧ width.usizeMax ≤ a.sequence.length ∧
    width.usizeMax ≤ b.sequence.length ∧ a.sequence.length ≠ b.sequence.length

theorem pyEq_eq_iff (a b : Range) :
    a.pyEq width b = .ok (decide (a.sequence = b.sequence)) ↔ ¬ Confused width a b := by
  have hmax := two_le_usizeMax width
  rw [pyEq_eq, Except.ok.injEq, decide_eq_decide, sequence_eq_iff, Confused, counted, counted]
  refine ⟨fun h hconfused => ?_, fun h => ?_⟩
  · obtain ⟨hstart, hstep, ha, hb, hne⟩ := hconfused
    exact hne (h.mp ⟨by omega, fun _ => hstart, fun _ => hstep⟩).1
  · constructor
    · rintro ⟨hlength, hstart, hstep⟩
      refine ⟨?_, fun hpos => hstart (by omega), fun hmore => hstep (by omega)⟩
      by_contra hne
      exact h ⟨hstart (by omega), hstep (by omega), by omega, by omega, hne⟩
    · rintro ⟨hlength, hstart, hstep⟩
      exact ⟨by omega, fun hpos => hstart (by omega), fun hmore => hstep (by omega)⟩

theorem pyHash_congr {a b : Range} (h : a.pyEq width b = .ok true) {η : Type}
    (finish : List Int → η) :
    ∃ hash, a.pyHash width finish = .ok hash ∧ b.pyHash width finish = .ok hash := by
  rw [pyEq_eq, Except.ok.injEq, decide_eq_true_iff] at h
  obtain ⟨hlength, hstart, hstep⟩ := h
  rw [pyHash, pyHash, a.len_eq, ok_bind, b.len_eq, ok_bind, ← hlength]
  refine ⟨_, rfl, ?_⟩
  split_ifs with hpos hmore
  · rw [hstart hpos, hstep hmore]
    rfl
  · rw [hstart hpos]
    rfl
  · rfl

/-! ## The operations are those of the sequence -/

/-- What calls in a row return that go through all of the items. -/
def exhausted {α : Type} (items : List α) (calls : Nat) : List (Option α) :=
  (items.take calls).map some ++ replicate (calls - items.length) none

variable (range : Range)

theorem run_eq_exhausted_iff : ∃ iter, RangeIterator.allocate width range = .ok iter ∧
    ((∀ calls, iter.run calls = .ok (exhausted range.sequence calls)) ↔
      range.sequence.length ≤ width.usizeMax) := by
  obtain ⟨iter, hiter, hat⟩ := RangeIterator.at_allocate width range
  refine ⟨iter, hiter, fun h => ?_, fun hle calls => ?_⟩
  · by_contra hlt
    -- the first call for an item that is not counted
    have hlast := h (width.usizeMax + 1)
    rw [RangeIterator.run_spec hat, Except.ok.injEq] at hlast
    have hplace := congrArg (·[width.usizeMax]?) hlast
    simp only [exhausted, getElem?_map] at hplace
    rw [getElem?_append_left (by rw [length_map, length_take]; omega), getElem?_map,
      getElem?_take_of_lt (Nat.lt_succ_self _), getElem?_range' (Nat.lt_succ_self _),
      range.getElem?_sequence (by omega)] at hplace
    simp at hplace
  · rw [RangeIterator.run_spec hat, take_of_length_le hle, map_getElem?_range, exhausted]

/-- Each operation on a range is what it is on the sequence, and none of them overflows, but for two
that use the length as it is counted: iteration goes through all items just if they can be counted,
and equality is right just if the ranges do not differ in uncounted items alone. -/
theorem operations_agree : range.lenI128 = .ok (range.sequence.length : Int) ∧
      (∀ n, FitsI64 n → range.contains n = .ok (decide (n ∈ range.sequence))) ∧
      (∀ index, FitsI64 index → range.getItem index =
          match pyIndex range.sequence index with
          | some item => .ok item
          | none => .error .rangeIndex) ∧
      (∃ iter, RangeIterator.allocate width range = .ok iter ∧
        ((∀ calls, iter.run calls = .ok (exhausted range.sequence calls)) ↔
          range.sequence.length ≤ width.usizeMax)) ∧
      (∀ other : Range, range.pyEq width other = .ok (decide (range.sequence = other.sequence)) ↔
        ¬ Confused width range other) ∧
      ∀ other : Range, range.pyEq width other = .ok true → ∀ (η : Type) (finish : List Int → η),
        ∃ hash, range.pyHash width finish = .ok hash ∧ other.pyHash width finish = .ok hash :=
  ⟨range.lenI128_eq, fun _ => range.contains_eq, fun _ => range.getItem_eq,
    range.run_eq_exhausted_iff width, pyEq_eq_iff width range,
    fun _ heq _ finish => pyHash_congr width heq finish⟩

/-- `range(0, n)` with a step. -/
def upTo (stop step : Int) (hstop : FitsI64 stop) (hstep : FitsI64 step)
    (hne : step ≠ 0) : Range where
  start := 0
  stop := stop
  step := step
  fitsStart := by decide
  fitsStop := hstop
  fitsStep := hstep
  step_ne := hne

/-- `range(0, 10, 3)` and `range(0, 12, 3)` have the same four items. -/
theorem operations_agree_thirds : (upTo 10 3 (by decide) (by decide) (by decide)).contains 6 =
        .ok (decide (6 ∈ (upTo 10 3 (by decide) (by decide) (by decide)).sequence)) ∧
      (upTo 10 3 (by decide) (by decide) (by decide)).getItem (-2) =
        (match pyIndex (upTo 10 3 (by decide) (by decide) (by decide)).sequence (-2) with
          | some item => .ok item
          | none => .error .rangeIndex) ∧
      ∃ hash, (upTo 10 3 (by decide) (by decide) (by decide)).pyHash .bits32 sum = .ok hash ∧
          (upTo 12 3 (by decide) (by decide) (by decide)).pyHash .bits32 sum = .ok hash :=
  have h := operations_agree .bits32 (upTo 10 3 (by decide) (by decide) (by decide))
  ⟨h.2.1 6 (by decide), h.2.2.1 (-2) (by decide),
    h.2.2.2.2.2 (upTo 12 3 (by decide) (by decide) (by decide)) (by decide +kernel) Int sum⟩

/-- On a target of 32 bits `range(0, 2 ** 33)` and `range(0, 2 ** 34)` are equal, and iteration does
not reach the item after the first `2 ** 32 - 1`. -/
theorem long_ranges_equal_wrong :
    let short := upTo (2 ^ 33) 1 (by decide) (by decide) (by decide)
    let long := upTo (2 ^ 34) 1 (by decide) (by decide) (by decide)
    (short.pyEq .bits32 long = .ok true ∧ short.sequence ≠ long.sequence) ∧
      ∃ iter, RangeIterator.allocate .bits32 short = .ok iter ∧
        ¬ ∀ calls, iter.run calls = .ok (exhausted short.sequence calls) := by
  intro short long
  have hshort : (short.sequence.length : Int) = 2 ^ 33 := short.length_sequence.trans
    (by decide +kernel)
  have hlong : (long.sequence.length : Int) = 2 ^ 34 := long.length_sequence.trans
    (by decide +kernel)
  refine ⟨⟨by decide +kernel, fun h => ?_⟩, ?_⟩
  · rw [h] at hshort
    omega
  · obtain ⟨iter, hiter, hiff⟩ := short.run_eq_exhausted_iff .bits32
    have hmax : PointerWidth.bits32.usizeMax = 4294967295 := rfl
    exact ⟨iter, hiter, fun h => by have := hiff.mp h; omega⟩

/-! ## Slicing -/

section

variable (range : Range) (width : PointerWidth) (slice : Slice)

/-- How many items of a range a slice sees. -/
def visible : Nat := min (range.counted width) (2 ^ 63 - 1)

/-- What Python selects if the range has so many items. -/
def selection (length : Nat) (hstep : slice.stride ≠ 0) : List (Option Int) :=
  (slice.selected length hstep).map (itemAt range.sequence)

/-- The item that the slice starts at. -/
def sliceStart : Int := range.start + (slice.reference (range.visible width)).1 * range.step

/-- The step of the slice. -/
def sliceStep : Int := range.step * slice.stride

/-- The number of items of the slice, not positive if there are none. -/
def sliceCount : Int :=
  ceilDiv ((slice.reference (range.visible width)).2 - (slice.reference (range.visible width)).1)
    slice.stride

/-- The end of the slice of a range: a whole number of steps from its start. -/
def sliceStop : Int :=
  range.sliceStart width slice + range.sliceCount width slice * range.sliceStep slice

/-- The three numbers of the new range are `i64`. -/
def SliceFits : Prop :=
  FitsI64 (range.sliceStart width slice) ∧ FitsI64 (range.sliceStop width slice) ∧
    FitsI64 (range.sliceStep slice)

theorem visible_le : range.visible width ≤ range.sequence.length :=
  Nat.le_trans (Nat.min_le_left ..) (Nat.min_le_left ..)

theorem visible_lt : range.visible width < 2 ^ 63 := by
  rw [visible]
  omega

theorem itemAt_sequence {index : Int} (h : 0 ≤ index ∧ index < range.sequence.length) :
    itemAt range.sequence index = some (range.start + index * range.step) := by
  have hin : index.toNat < range.sequence.length := by omega
  rw [itemAt, if_pos h.1, range.getElem?_sequence hin, toNat_of_nonneg h.1]

variable {range width slice}

/-- The range with those three numbers is what Python selects of the items that the slice sees. -/
theorem sequence_slice {result : Range} (hstep : slice.stride ≠ 0)
    (hstart : result.start = range.sliceStart width slice)
    (hstop : result.stop = range.sliceStop width slice)
    (hresult : result.step = range.sliceStep slice) :
    result.sequence.map some = range.selection slice (range.visible width) hstep := by
  have hne : range.sliceStep slice ≠ 0 := hresult ▸ result.step_ne
  refine ext_getElem? fun j => ?_
  rw [selection, getElem?_map, getElem?_map, sequence, getElem?_walk, selected, getElem?_walk]
  simp only [hstart, hstop, hresult, sliceStop, before_add_mul hne, sliceCount, lt_ceilDiv hstep]
  split_ifs with hbefore
  · have hmem := mem_selected hstep ((mem_walk hstep _ _).mpr ⟨j, rfl, hbefore⟩)
    have hitem := range.itemAt_sequence ⟨hmem.1, lt_of_lt_of_le hmem.2 (by
      exact_mod_cast range.visible_le width)⟩
    rw [Option.map_some, Option.map_some, hitem, sliceStart, sliceStep]
    refine congrArg (some ∘ some) ?_
    ring
  · rfl

theorem fits_sliceCount (hstep : slice.stride ≠ 0) :
    FitsI128 ((slice.reference (range.visible width)).2 -
      (slice.reference (range.visible width)).1) ∧ FitsI128 (range.sliceCount width slice) := by
  have hlength := range.visible_lt width
  have hbounds : |(slice.reference (range.visible width)).2 -
      (slice.reference (range.visible width)).1| < 2 ^ 64 := by
    rw [abs_lt]
    rcases lt_or_gt_of_ne hstep with hneg | hpos
    · have := reference_mem_backward (range.visible width) hneg
      omega
    · have := reference_mem_forward (range.visible width) hpos
      omega
  obtain ⟨hlow, hhigh⟩ := abs_le.mp
    (abs_ceilDiv_le hstep ((slice.reference (range.visible width)).2 -
    (slice.reference (range.visible width)).1))
  obtain ⟨hbelow, habove⟩ := abs_lt.mp hbounds
  exact ⟨⟨by linarith, by linarith⟩, ⟨by rw [sliceCount]; linarith, by rw [sliceCount]; linarith⟩⟩

theorem indices_visible (hstep : slice.stride ≠ 0) : slice.indices (range.counted width) =
    .ok ((slice.reference (range.visible width)).1, (slice.reference (range.visible width)).2,
      slice.stride) := by
  rw [← indices_eq hstep (range.visible_lt width), visible, indices_min]

theorem getitemSlice_of_fits (hstep : slice.stride ≠ 0) (h : range.SliceFits width slice) :
    ∃ result : Range, range.getitemSlice width slice = .ok result ∧
      result.sequence.map some = range.selection slice (range.visible width) hstep := by
  obtain ⟨hstart, hstop, hnew⟩ := h
  have hstartRange := range.fitsStart
  have hfits : ∀ {n : Int}, FitsI64 n → FitsI128 n := fun h =>
    ⟨by linarith [h.1], by linarith [h.2]⟩
  -- each intermediate number is one of the three, a difference of two of them, or a bound
  have hoffset : FitsI128 ((slice.reference (range.visible width)).1 * range.step) := by
    rw [sliceStart] at hstart
    exact ⟨by linarith [hstart.1, hstartRange.2], by linarith [hstart.2, hstartRange.1]⟩
  have hextent : FitsI128 (range.sliceCount width slice * range.sliceStep slice) := by
    have hsum := hstop
    rw [sliceStop] at hsum
    exact ⟨by linarith [hstart.2, hsum.1], by linarith [hstart.1, hsum.2]⟩
  obtain ⟨hdistance, hcount⟩ := fits_sliceCount hstep
  have hnewne : range.sliceStep slice ≠ 0 := mul_ne_zero range.step_ne hstep
  refine ⟨⟨_, _, _, hstart, hstop, hnew, hnewne⟩, ?_, sequence_slice hstep rfl rfl rfl⟩
  rw [getitemSlice, range.len_eq, ok_bind, indices_visible hstep, ok_bind]
  simp only
  rw [← sliceStep, i128_of_fits (hfits hnew), ok_bind, i128_of_fits hoffset, ok_bind, ← sliceStart,
    i128_of_fits (hfits hstart), ok_bind, i128_of_fits hdistance, ok_bind, ← sliceCount,
    i128_of_fits hcount, ok_bind, i128_of_fits hextent, ok_bind, ← sliceStop,
    i128_of_fits (hfits hstop), ok_bind, toI64, narrow_of_fits hnew, ok_bind, toI64,
    narrow_of_fits hstart, ok_bind, toI64, narrow_of_fits hstop, ok_bind, new,
    dif_pos ⟨hstart, hstop, hnew, hnewne⟩]

theorem fits_of_getitemSlice (hstep : slice.stride ≠ 0) {result : Range}
    (h : range.getitemSlice width slice = .ok result) : range.SliceFits width slice := by
  rw [getitemSlice, range.len_eq, ok_bind, indices_visible hstep, ok_bind] at h
  simp only [bind_eq_ok, i128, toI64, narrow_eq_ok] at h
  obtain ⟨_, ⟨rfl, -⟩, _, ⟨rfl, -⟩, _, ⟨rfl, -⟩, _, ⟨rfl, -⟩, _, ⟨rfl, -⟩, _, ⟨rfl, -⟩, _, ⟨rfl, -⟩,
    _, ⟨rfl, hnew⟩, _, ⟨rfl, hstart⟩, _, ⟨rfl, hstop⟩, -⟩ := h
  exact ⟨hstart, hstop, hnew⟩

end

/-- All integers that a range can reach. -/
def whole : Range where
  start := -2 ^ 63
  stop := 2 ^ 63 - 1
  step := 1
  fitsStart := by decide
  fitsStop := by decide
  fitsStep := by decide
  step_ne := by decide

end Range

end Monty.Sequence
