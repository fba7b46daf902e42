import Monty.Lib.StableSort
import Monty.Sorting.Order
import Monty.Sorting.Permutation
import Monty.Sorting.Stack

/-!
# Sorting values

`sortValues` is what `list.sort` and `sorted` call. Depending on what is to be sorted it sorts in
place or sorts indices and applies the permutation, by timsort, by the short sort or by the sort of
the standard library; in reverse it reverses before and after. All of that comes to one thing
(`sortValues_eq`): the values are sorted stably by their keys.

A failed sort keeps what it has done so far, so the results are `EStateM` programs again; what would
be a panic is a `Fault` of its own.
-/

namespace Monty.Sorting

open Fallible Rearrange TotalOrder
open List hiding after

variable {VM Err Obj α : Type}

/-! ## The comparison of a sort -/

/-- Why a sort of values fails. -/
inductive Fault (Err : Type)
  | raised (err : Err)
  | panicked
  deriving DecidableEq

/-- The comparison a sort makes, with its time checks; a failed comparison is kept here. -/
structure Comparer (VM Err : Type) where
  vm : VM
  count : Nat
  error : Option Err

def Comparer.new (vm : VM) : Comparer VM Err := ⟨vm, 0, none⟩

/-- Answers by running `lt`, or stops the sort with the error stashed. -/
def Comparer.lt (m : Machine VM Err Obj) (lt : VM → Except Err Bool × VM) (c : Comparer VM Err) :
    Option Bool × Comparer VM Err :=
  let count := c.count + 1
  match m.checkTimeEvery count c.vm with
  | some err => (none, ⟨c.vm, count, some err⟩)
  | none =>
    match lt c.vm with
    | (.ok b, vm) => (some b, ⟨vm, count, c.error⟩)
    | (.error err, vm) => (none, ⟨vm, count, some err⟩)

abbrev SortM (VM Err α : Type) := EStateM (Fault Err) (Slice VM α)

/-- Runs a sort with a comparer, and turns its outcome back into the error that stopped it. -/
def comparing (m : Machine VM Err Obj)
    (sort : Compare (Comparer VM Err) α → SliceM (Comparer VM Err) α Unit)
    (lt : α → α → VM → Except Err Bool × VM) : SortM VM Err α Unit := fun t =>
  match sort (fun a b => Comparer.lt m (lt a b)) ⟨.new t.cmp, t.items⟩ with
  | .ok _ t' => .ok () ⟨t'.cmp.vm, t'.items⟩
  | .error .aborted t' =>
    match t'.cmp.error with
    | some err => .error (.raised err) ⟨t'.cmp.vm, t'.items⟩
    | none => .error .panicked ⟨t'.cmp.vm, t'.items⟩
  | .error _ t' => .error .panicked ⟨t'.cmp.vm, t'.items⟩

def turned (reverse : Bool) (t : Slice VM α) : Slice VM α :=
  { t with items := if reverse then t.items.reverse else t.items }

/-- Runs a sort with the items reversed before and after if `reverse` is set; the second reversal
happens also when the sort fails. -/
def withReversal (reverse : Bool) (sort : SortM VM Err α Unit) : SortM VM Err α Unit := fun t =>
  match sort (turned reverse t) with
  | .ok _ t' => .ok () (turned reverse t')
  | .error err t' => .error err (turned reverse t')

/-- The standard library's stable sort, given a total order. -/
def sortBy (cmp : α → α → Ordering) : SortM VM Err α Unit :=
  modify fun t => { t with items := t.items.mergeSort fun a b => cmp a b != .gt }

/-- Sorts ids stably by `lt` between what they name. -/
def sortIndicesBy (m : Machine VM Err Obj) (reverse : Bool)
    (lt : α → α → VM → Except Err Bool × VM) : SortM VM Err α Unit :=
  withReversal reverse (comparing m timsort lt)

def sortIndices (m : Machine VM Err Obj) (values : List (Value Obj)) (reverse : Bool) :
    SortM VM Err (Fin values.length) Unit :=
  match of values with
  | some order => withReversal reverse (sortBy fun a b => order.cmp (values.get a) (values.get b))
  | none => sortIndicesBy m reverse fun a b => pyLt m (values.get a) (values.get b)

/-- Lists shorter than this are sorted in place. -/
def shortSortLen : Nat := 64

/-- The indices in order. -/
def identityPermutation (len : Nat) : List (Fin len) := finRange len

/-- Rearranges the items by sorting the indices of their keys, one key for each; the permutation is
applied also when the sort failed. -/
def sortByIndices (m : Machine VM Err Obj) (keys : List (Value Obj)) (reverse : Bool) :
    SortM VM Err α Unit := fun t =>
  let sorted := sortIndices m keys reverse ⟨t.cmp, identityPermutation keys.length⟩
  let t' := after (sortIndices m keys reverse) ⟨t.cmp, identityPermutation keys.length⟩
  match applyPermutation ⟨t.items, t'.items.map Fin.val⟩ with
  | .ok _ s =>
    match sorted with
    | .ok _ _ => .ok () ⟨t'.cmp, s.items⟩
    | .error err _ => .error err ⟨t'.cmp, s.items⟩
  | .error _ s => .error .panicked ⟨t'.cmp, s.items⟩

/-- Runs a call that may raise. -/
def calling {β : Type} (x : VM → Except Err β × VM) : EStateM (Fault Err) VM β := fun vm =>
  match x vm with
  | (.ok b, vm) => .ok b vm
  | (.error err, vm) => .error (.raised err) vm

/-- Calls the key function for every value, from the `i`-th on. -/
def keysFrom (m : Machine VM Err Obj) (f : Value Obj) :
    Nat → List (Value Obj) → EStateM (Fault Err) VM (List (Value Obj))
  | _, [] => pure []
  | i, v :: values => do
    let vm ← get
    match m.checkTimeEvery i vm with
    | some err => throw (.raised err)
    | none => do
      let key ← calling (m.evaluateFunction f v)
      let keys ← keysFrom m f (i + 1) values
      pure (key :: keys)

/-- Sorts values in place, by their keys if there is a key function. -/
def sortValues (m : Machine VM Err Obj) (keyFn : Option (Value Obj)) (reverse : Bool) :
    SortM VM Err (Value Obj) Unit := do
  let t ← get
  match keyFn with
  | some f => do
    let keys ← zoom Slice.cmp (fun vm t => { t with cmp := vm }) (keysFrom m f 0 t.items)
    sortByIndices m keys reverse
  | none =>
    match of t.items with
    | some order => withReversal reverse (sortBy order.cmp)
    | none =>
      if t.items.length < shortSortLen then
        withReversal reverse (comparing m sortShort (pyLt m))
      else sortByIndices m t.items reverse

/-! ## Honest comparisons -/

/-- The comparison answers whenever it is asked about elements of the list, and always the same. -/
def Answers {σ : Type} (lt : Compare σ α) (r : α → α → Bool) (l : List α) : Prop :=
  ∀ a ∈ l, ∀ b ∈ l, ∀ s, (lt a b s).1 = some (r a b)

/-- The machine is never out of time. -/
def Machine.InTime (m : Machine VM Err Obj) : Prop := ∀ n vm, m.checkTimeEvery n vm = none

/-- A call answers whenever it is asked about elements of the list, and always the same. -/
def Compares (lt : α → α → VM → Except Err Bool × VM) (r : α → α → Bool) (l : List α) : Prop :=
  ∀ a ∈ l, ∀ b ∈ l, ∀ vm, (lt a b vm).1 = .ok (r a b)

/-- A sort by comparisons: with honest ones it sorts stably. -/
def IsSort {σ : Type} (sort : Compare σ α → SliceM σ α Unit) : Prop :=
  ∀ (lt : Compare σ α) (U : α → Prop) (key : α → Nat) (t : Slice σ α), Follows lt True U key →
    (True → ∀ y ∈ t.items, U y) →
    Ensures (sort lt) t
      (fun _ t' => Rearranged True key t'.items t.items ∧ (True → Ascending key t'.items))
      fun stop t' => Fails True t.items stop t'.items

section

variable {σ : Type} {r : α → α → Bool} {l : List α}

theorem isSort_timsort : IsSort (timsort : Compare σ α → SliceM σ α Unit) :=
  fun _ _ _ _ h hU => ensures_timsort h hU

/-- **A sort by comparisons sorts stably by a strict weak order.** -/
theorem IsSort.stableSort {sort : Compare σ α → SliceM σ α Unit} (hsort : IsSort sort)
    {lt : Compare σ α} {t : Slice σ α} (hlt : Answers lt r t.items) (hr : StrictWeak r t.items) :
    ∃ t', sort lt t = .ok () t' ∧ StableSort r t.items t'.items := by
  obtain ⟨key, hkey⟩ := hr.exists_key
  have hfollows : Follows lt True (· ∈ t.items) key := fun _ x y hx hy s =>
    ⟨r x y, hlt x hx y hy s, hkey x hx y hy⟩
  obtain ⟨_, t', hresult, hre, hasc⟩ | ⟨_, _, _, ⟨-, hfalse⟩, -⟩ :=
    (hsort lt _ key t hfollows fun _ _ hy => hy).cases
  · exact ⟨t', hresult, (stableSort_iff hkey).mpr ⟨hre, hasc trivial⟩⟩
  · exact absurd trivial hfalse

/-- The program sorts the list stably, whatever the state of the machine. -/
def Sorts (sort : SortM VM Err α Unit) (r : α → α → Bool) (l : List α) : Prop :=
  ∀ t, t.items = l → ∃ t', sort t = .ok () t' ∧ StableSort r l t'.items

variable {lt : α → α → VM → Except Err Bool × VM} {m : Machine VM Err Obj}

theorem sorts_comparing (hm : m.InTime)
    {sort : Compare (Comparer VM Err) α → SliceM (Comparer VM Err) α Unit} (hsort : IsSort sort)
    (hlt : Compares lt r l) (hr : StrictWeak r l) :
    Sorts (comparing m sort lt) r l := by
  rintro ⟨vm, items⟩ (rfl : items = l)
  have hanswers : Answers (fun a b => Comparer.lt m (lt a b)) r items := fun a ha b hb c => by
    have hab := hlt a ha b hb c.vm
    simp only [Comparer.lt, hm _ _]
    rcases hcall : lt a b c.vm with ⟨answer, vm'⟩
    rw [hcall] at hab
    obtain rfl : answer = .ok (r a b) := hab
    rfl
  obtain ⟨t', hresult, hsorted⟩ := hsort.stableSort (t := ⟨.new vm, items⟩) hanswers hr
  refine ⟨⟨t'.cmp.vm, t'.items⟩, ?_, hsorted⟩
  rw [comparing]
  simp only [hresult]

theorem sorts_sortBy {cmp : α → α → Ordering} (hr : StrictWeak r l)
    (hcmp : ∀ a ∈ l, ∀ b ∈ l, r b a = (cmp a b == .gt)) :
    Sorts (sortBy cmp : SortM VM Err α Unit) r l := by
  rintro t rfl
  refine ⟨_, modify_apply _, stableSort_mergeSort hr fun a ha b hb => ?_⟩
  rw [hcmp a ha b hb, bne]

/-- **Reversing before and after sorts in the opposite order.** -/
theorem sorts_withReversal {sort : SortM VM Err α Unit} (reverse : Bool)
    (h : ∀ l', l'.Perm l → Sorts sort r l') :
    Sorts (withReversal reverse sort) (directed reverse r) l := by
  rintro t rfl
  cases reverse with
  | false =>
    obtain ⟨t', hresult, hsorted⟩ := h _ (.refl _) (turned false t) rfl
    refine ⟨turned false t', ?_, hsorted⟩
    rw [withReversal, hresult]
  | true =>
    obtain ⟨t', hresult, hsorted⟩ := h _ t.items.reverse_perm (turned true t) rfl
    refine ⟨turned true t', ?_, hsorted.reverse⟩
    rw [withReversal, hresult]

theorem sorts_sortIndicesBy (hm : m.InTime) (reverse : Bool) (hlt : Compares lt r l)
    (hr : StrictWeak r l) : Sorts (sortIndicesBy m reverse lt) (directed reverse r) l :=
  sorts_withReversal reverse fun _ hperm => sorts_comparing hm isSort_timsort
    (fun a ha b hb => hlt a (hperm.mem_iff.mp ha) b (hperm.mem_iff.mp hb)) (hr.of_perm hperm)

end

/-! ## Values -/

section

variable {m : Machine VM Err Obj} {r : Value Obj → Value Obj → Bool} {values : List (Value Obj)}

/-- What an order accepts it compares as Python does. -/
theorem eq_cmp_of_compares {order : TotalOrder} (horder : of values = some order)
    (hlt : Compares (pyLt m) r values) (vm : VM) {a b : Value Obj} (ha : a ∈ values)
    (hb : b ∈ values) : r b a = (order.cmp a b == .gt) := by
  have hpy := pyLt_of_accepts (accepts_of_of horder ha) (accepts_of_of horder hb) m vm
  rw [hlt b hb a ha vm] at hpy
  exact Except.ok.inj hpy

section

variable (hm : m.InTime) (reverse : Bool) (hlt : Compares (pyLt m) r values)
  (hr : StrictWeak r values)

include hm reverse hlt hr

theorem sorts_sortIndices (p : List (Fin values.length)) : Sorts (sortIndices m values reverse)
      (directed reverse fun a b => r (values.get a) (values.get b)) p := by
  have hweak (l : List (Fin values.length)) :
      StrictWeak (fun a b => r (values.get a) (values.get b)) l :=
    hr.comap fun i _ => values.get_mem i
  intro t ht
  rw [sortIndices]
  cases horder : of values with
  | some order =>
    exact sorts_withReversal reverse (fun l _ => sorts_sortBy (hweak l) fun a _ b _ =>
      eq_cmp_of_compares horder hlt t.cmp (values.get_mem a) (values.get_mem b)) t ht
  | none =>
    exact sorts_sortIndicesBy hm reverse (fun a _ b _ =>
      hlt _ (values.get_mem a) _ (values.get_mem b)) (hweak p) t ht

/-- Items are rearranged as their keys are sorted. -/
theorem sortByIndices_eq {t : Slice VM α} (hlen : values.length = t.items.length) :
    ∃ t' p, sortByIndices m values reverse t = .ok () t' ∧
      StableSort (directed reverse fun a b => r (values.get a) (values.get b))
        (finRange values.length) p ∧
      t'.items = p.map fun i => t.items.get (i.cast hlen) := by
  obtain ⟨⟨vm, p⟩, hresult, hsorted⟩ := sorts_sortIndices hm reverse hlt hr
    (identityPermutation values.length) ⟨t.cmp, identityPermutation values.length⟩ rfl
  obtain ⟨s, happlied, hs, -⟩ := applyPermutation_eq hlen hsorted.perm
  refine ⟨⟨vm, s.items⟩, p, ?_, hsorted, hs⟩
  simp only [sortByIndices, after, hresult, happlied]

end

variable {keys : List (Value Obj)} {f : Value Obj}

theorem length_keysFrom {i : Nat} {vm vm' : VM}
    (h : keysFrom m f i values vm = .ok keys vm') : keys.length = values.length := by
  have hlen (vm : VM) : Ensures (keysFrom m f i values) vm
      (fun keys _ => keys.length = values.length) fun _ _ => True := by
    clear h
    induction values generalizing i vm with
    | nil => exact .pure rfl
    | cons v values ih =>
      refine .get_bind ?_
      cases m.checkTimeEvery i vm with
      | some err => exact .throw trivial
      | none =>
        have hcall : Ensures (calling (m.evaluateFunction f v)) vm (fun _ _ => True)
            fun _ _ => True := by
          rw [Ensures]
          split <;> trivial
        refine hcall.bind fun key vm1 _ => (ih vm1).bind fun keys vm2 hkeys => .pure ?_
        rw [length_cons, length_cons, hkeys]
  have hkeys := hlen vm
  rwa [Ensures, h] at hkeys

/-- **Values are sorted in place, stably.** -/
theorem sorts_sortValues (hm : m.InTime) (reverse : Bool) (hlt : Compares (pyLt m) r values)
    (hr : StrictWeak r values) : Sorts (sortValues m none reverse) (directed reverse r) values := by
  rintro t rfl
  rw [sortValues, get_bind_apply]
  cases horder : of t.items with
  | some order =>
    exact sorts_withReversal reverse
      (fun l hperm => sorts_sortBy (hr.of_perm hperm) fun a ha b hb =>
      eq_cmp_of_compares horder hlt t.cmp (hperm.mem_iff.mp ha) (hperm.mem_iff.mp hb)) t rfl
  | none =>
    split_ifs with hshort
    · have hsame : withReversal reverse (comparing m sortShort (pyLt m)) t =
          sortIndicesBy m reverse (pyLt m) t := by
        rw [sortIndicesBy, withReversal, withReversal, comparing, comparing, timsort_eq_sortShort]
        cases reverse <;> simpa [turned, maxMinrun, shortSortLen] using hshort
      obtain ⟨t', hresult, hsorted⟩ := sorts_sortIndicesBy hm reverse hlt hr t rfl
      exact ⟨t', hsame.trans hresult, hsorted⟩
    obtain ⟨t', p, hresult, hsorted, hitems⟩ := sortByIndices_eq hm reverse hlt hr rfl
    refine ⟨t', hresult, ?_⟩
    have hmap : StableSort (directed reverse r)
        ((finRange t.items.length).map t.items.get) (p.map t.items.get) :=
      hsorted.map fun a _ b _ => by cases reverse <;> rfl
    rw [map_get_finRange] at hmap
    rw [hitems]
    exact hmap

/-- **Values are sorted by their keys, stably.** -/
theorem sortValues_keyed (hm : m.InTime) (reverse : Bool) {t : Slice VM (Value Obj)} {vm : VM}
    (hkeys : keysFrom m f 0 t.items t.cmp = .ok keys vm)
    (hlt : Compares (pyLt m) r keys) (hr : StrictWeak r keys) :
    ∃ t' z, sortValues m (some f) reverse t = .ok () t' ∧
      StableSort (directed reverse fun a b => r a.2 b.2) (t.items.zip keys) z ∧
      t'.items = z.map Prod.fst := by
  have hlen : keys.length = t.items.length := length_keysFrom hkeys
  obtain ⟨t', p, hresult, hsorted, hitems⟩ :=
    sortByIndices_eq (t := { t with cmp := vm }) hm reverse hlt hr hlen
  have hmap : StableSort (directed reverse fun a b => r a.2 b.2)
      ((finRange keys.length).map fun i => (t.items.get (i.cast hlen), keys.get i))
      (p.map fun i => (t.items.get (i.cast hlen), keys.get i)) :=
    hsorted.map fun a _ b _ => by cases reverse <;> rfl
  have hzip : ((finRange keys.length).map fun i => (t.items.get (i.cast hlen), keys.get i)) =
      t.items.zip keys := by
    refine ext_getElem (by simp [hlen]) fun i hi hi' => ?_
    simp
  rw [hzip] at hmap
  refine ⟨t', _, ?_, hmap, ?_⟩
  · have hpass : zoom Slice.cmp (fun vm t => { t with cmp := vm }) (keysFrom m f 0 t.items) t =
        .ok keys { t with cmp := vm } := by rw [zoom, hkeys]
    rw [sortValues, get_bind_apply]
    simp only
    rw [bind_of_ok hpass]
    exact hresult
  · rw [hitems, map_map]
    rfl

end

/-- **Sorting is stable and correct.**  With a comparison that answers, by a strict weak order,
`timsort` ends in the only stable ascending rearrangement, in which elements that are alike stay in
order; sorting indices or values, by themselves or by keys, ends in the only stable rearrangement
that ascends, or descends if it is reversed. -/
theorem sorts_stably {σ : Type} :
    (∀ (lt : Compare σ α) (r : α → α → Bool) (t : Slice σ α), Answers lt r t.items →
      StrictWeak r t.items →
      ∃ t', timsort lt t = .ok () t' ∧ (∀ l, StableSort r t.items l ↔ l = t'.items) ∧
        ∀ i j, [i, j].Sublist t.items → alike r i j = true → [i, j].Sublist t'.items) ∧
    (∀ (m : Machine VM Err Obj) (reverse : Bool) (lt : α → α → VM → Except Err Bool × VM)
      (r : α → α → Bool) (t : Slice VM α), m.InTime → Compares lt r t.items →
      StrictWeak r t.items →
      ∃ t', sortIndicesBy m reverse lt t = .ok () t' ∧
        ∀ l, StableSort (directed reverse r) t.items l ↔ l = t'.items) ∧
    (∀ (m : Machine VM Err Obj) (reverse : Bool) (r : Value Obj → Value Obj → Bool)
      (t : Slice VM (Value Obj)), m.InTime → Compares (pyLt m) r t.items → StrictWeak r t.items →
      ∃ t', sortValues m none reverse t = .ok () t' ∧
        ∀ l, StableSort (directed reverse r) t.items l ↔ l = t'.items) ∧
    (∀ (m : Machine VM Err Obj) (reverse : Bool) (r : Value Obj → Value Obj → Bool)
      (t : Slice VM (Value Obj)) (f : Value Obj) (keys : List (Value Obj)) (vm : VM), m.InTime →
      keysFrom m f 0 t.items t.cmp = .ok keys vm → Compares (pyLt m) r keys → StrictWeak r keys →
      ∃ t' z, sortValues m (some f) reverse t = .ok () t' ∧
        (∀ l, StableSort (directed reverse fun a b => r a.2 b.2) (t.items.zip keys) l ↔ l = z) ∧
        t'.items = z.map Prod.fst) := by
  refine ⟨fun lt r t hlt hr => ?_, fun m reverse lt r t hm hlt hr => ?_,
    fun m reverse r t hm hlt hr => ?_, fun m reverse r t f keys vm hm hkeys hlt hr => ?_⟩
  · obtain ⟨t', hresult, hsorted⟩ := isSort_timsort.stableSort hlt hr
    refine ⟨t', hresult, fun l => hsorted.iff_eq hr, fun i j hij halike => ?_⟩
    exact hsorted.pair_sublist hij (hr.irrefl i (hij.subset (by simp))) halike
  · obtain ⟨t', hresult, hsorted⟩ := sorts_sortIndicesBy hm reverse hlt hr t rfl
    exact ⟨t', hresult, fun l => hsorted.iff_eq (hr.directed reverse)⟩
  · obtain ⟨t', hresult, hsorted⟩ := sorts_sortValues hm reverse hlt hr t rfl
    exact ⟨t', hresult, fun l => hsorted.iff_eq (hr.directed reverse)⟩
  · obtain ⟨t', z, hresult, hsorted, hitems⟩ := sortValues_keyed hm reverse hkeys hlt hr
    have hweak : StrictWeak (fun a b : Value Obj × Value Obj => r a.2 b.2) (t.items.zip keys) :=
      hr.comap fun a ha => (of_mem_zip ha).2
    exact ⟨t', z, hresult, fun l => hsorted.iff_eq (hweak.directed reverse), hitems⟩

/-- A machine that is never out of time and whose key functions return their argument. -/
def idleMachine : Machine Unit Unit Unit :=
  ⟨fun _ _ => none, fun _ _ vm => (.ok false, vm), fun _ v vm => (.ok v, vm)⟩

/-- The order of truth values. -/
def boolLt : Value Unit → Value Unit → Bool
  | .bool a, .bool b => !a && b
  | _, _ => false

theorem sorts_stably_samples :
    (∃ t', timsort (fun a b s => (some (decide (a < b)), s)) (⟨(), [3, 1, 2, 1]⟩ : Slice Unit Nat) =
        .ok () t' ∧
      (∀ l, StableSort (fun a b => decide (a < b)) [3, 1, 2, 1] l ↔ l = t'.items) ∧
      ∀ i j, [i, j].Sublist [3, 1, 2, 1] → alike (fun a b => decide (a < b)) i j = true →
        [i, j].Sublist t'.items) ∧
    (∃ t', sortIndicesBy idleMachine true (fun a b vm => (.ok (decide (a < b)), vm))
        ⟨(), [3, 1, 2]⟩ = .ok () t' ∧
      ∀ l, StableSort (directed true fun a b => decide (a < b)) [3, 1, 2] l ↔ l = t'.items) ∧
    (∃ t', sortValues idleMachine none true ⟨(), [.bool false, .bool true]⟩ = .ok () t' ∧
      ∀ l, StableSort (directed true boolLt) [.bool false, .bool true] l ↔ l = t'.items) ∧
    ∃ t' z, sortValues idleMachine (some (.other ())) true ⟨(), [.bool false, .bool true]⟩ =
        .ok () t' ∧
      (∀ l, StableSort (directed true fun a b => boolLt a.2 b.2)
        [(.bool false, .bool false), (.bool true, .bool true)] l ↔ l = z) ∧
      t'.items = z.map Prod.fst := by
  have hbools (P : Value Unit → Prop) (h : ∀ b, P (.bool b)) :
      ∀ a ∈ ([.bool false, .bool true] : List (Value Unit)), P a := by
    simp [h]
  have hcompares : Compares (pyLt idleMachine) boolLt [.bool false, .bool true] :=
    hbools _ fun a => hbools _ fun b vm => by cases a <;> cases b <;> rfl
  have hweak : StrictWeak boolLt [.bool false, .bool true] :=
    ⟨hbools _ (by decide), hbools _ fun a => hbools _ fun b => hbools _ fun c => by
      revert a b c; decide, hbools _ fun a => hbools _ fun b => hbools _ fun c => by
      revert a b c; decide⟩
  obtain ⟨htimsort, hindices, hvalues, hkeyed⟩ := @sorts_stably Unit Unit Unit Nat Unit
  exact ⟨htimsort _ _ _ (fun _ _ _ _ _ => rfl) ⟨by decide, by decide, by decide⟩,
    hindices idleMachine true _ _ _ (fun _ _ => rfl) (fun _ _ _ _ _ => rfl)
      ⟨by decide, by decide, by decide⟩,
    hvalues idleMachine true _ _ (fun _ _ => rfl) hcompares hweak,
    hkeyed idleMachine true _ _ _ _ () (fun _ _ => rfl) rfl hcompares hweak⟩

end Monty.Sorting
