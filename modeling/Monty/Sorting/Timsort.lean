import Monty.Lib.Search

/-!
# Timsort

The sort behind `list.sort`, step for step: natural runs, extended by binary insertion, are merged
in the order that powersort gives, with galloping. The comparison is a callback that may keep a
state of its own, answer whatever it likes and abort the sort.

What would be a panic is an outcome here: an index or a range that is not there (`outOfRange`) and a
subtraction below zero (`underflow`). Loops whose end depends on what they find in the arrays count
down from a bound and stop with `diverged` if it is used up. A sort never ends in one of these.

A merge loop is left by a `return` from its middle, which says how the merge is to be finished;
that is the outcome `returned`, caught by `attempt`.
-/

namespace Monty.Sorting

open Fallible Search

/-- What a merge does once its main loop stops. -/
inductive MergeEnd
  /-- Copy the remaining scratch elements back into place. -/
  | drain
  /-- One element of the scratch run is left. -/
  | copyLast
  deriving DecidableEq, Repr

/-- Why a computation stops. -/
inductive Stop
  | aborted
  | outOfRange
  | underflow
  | diverged
  | returned (how : MergeEnd)
  deriving DecidableEq, Repr

/-- When a merge enters galloping mode it stays there until both runs win fewer than this many times
in a row. -/
def minGallopStart : Nat := 7

/-- Upper bound of the minimum run length. -/
def maxMinrun : Nat := 64

/-- The comparison: is the first less than the second?  No answer aborts the sort. -/
abbrev Compare (σ α : Type) := α → α → σ → Option Bool × σ

variable {σ α β τ κ : Type}

/-! ## Checked access -/

/-- Asks the comparison. -/
def ask (lt : Compare σ α) (x y : α) : EStateM Stop σ Bool := fun s =>
  match lt x y s with
  | (some b, s') => .ok b s'
  | (none, s') => .error .aborted s'

/-- Subtracts, from something that is not smaller. -/
def sub (a b : Nat) : EStateM Stop τ Nat := if b ≤ a then pure (a - b) else throw .underflow

/-- The element at an index. -/
def item (a : List β) (i : Nat) : EStateM Stop τ β :=
  match a[i]? with
  | some x => pure x
  | none => throw .outOfRange

/-- The elements of a range. -/
def slice (a : List β) (i len : Nat) : EStateM Stop τ (List β) :=
  if i + len ≤ a.length then pure ((a.drop i).take len) else throw .outOfRange

def overwritten (a : List β) (i : Nat) (xs : List β) : EStateM Stop τ (List β) :=
  if i + xs.length ≤ a.length then pure (a.take i ++ xs ++ a.drop (i + xs.length))
  else throw .outOfRange

/-! ## Sorting a slice in place -/

/-- A slice that is sorted in place, and the state of the comparison. -/
structure Slice (σ α : Type) where
  cmp : σ
  items : List α

abbrev SliceM (σ α : Type) := EStateM Stop (Slice σ α)

/-- Lets the comparison work. -/
def Slice.asking (x : EStateM Stop σ β) : SliceM σ α β :=
  zoom Slice.cmp (fun cmp t => { t with cmp }) x

/-- Compares the elements at two indices. -/
def ltAt (lt : Compare σ α) (i j : Nat) : SliceM σ α Bool := do
  let t ← get
  let x ← item t.items i
  let y ← item t.items j
  Slice.asking (ask lt x y)

def reverseRange (i j : Nat) : SliceM σ α Unit := do
  let t ← get
  let len ← sub j i
  let xs ← slice t.items i len
  let items ← overwritten t.items i xs.reverse
  modify fun t => { t with items }

/-- Moves the element at `ok` down to `l`. -/
def rotateRight (l ok : Nat) : SliceM σ α Unit := do
  let t ← get
  let len ← sub ok l
  let x ← item t.items ok
  let xs ← slice t.items l len
  let items ← overwritten t.items l (x :: xs)
  modify fun t => { t with items }

/-- Inserts the element at `ok` into the sorted elements before it. -/
def binaryInsert (lt : Compare σ α) (ok : Nat) : SliceM σ α Unit := do
  let t ← get
  let l ← Slice.asking (bisect (fun m => do
    let pivot ← item t.items ok
    let x ← item t.items m
    return !(← ask lt pivot x)) 0 ok)
  rotateRight l ok

/-- Stable binary insertion sort of a slice whose first `ok` elements are already sorted. -/
def binarySort (lt : Compare σ α) (ok : Nat) : SliceM σ α Unit := do
  let t ← get
  (List.range' (max ok 1) (t.items.length - max ok 1)).forM (binaryInsert lt)

/-- How far the slice ascends from `n` on. -/
def climb (lt : Compare σ α) (remaining n : Nat) : SliceM σ α Nat :=
  if n < remaining then do
    let p ← sub n 1
    if ← ltAt lt n p then pure n else climb lt remaining (n + 1)
  else pure n
termination_by remaining - n

/-- Whether the first `n` elements, which do not descend, rise anywhere. -/
def rises (lt : Compare σ α) (n : Nat) : SliceM σ α Bool :=
  if n > 1 then do
    let p ← sub n 1
    ltAt lt 0 p
  else pure false

/-- Reverses the first `n` elements. -/
def reverseFirst (n : Nat) : SliceM σ α Unit :=
  if n > 1 then reverseRange 0 n else pure ()

/-- Reverses the group of `neq + 1` equal elements that ends before `n`, if there is one. -/
def reverseLastEqual (n neq : Nat) : SliceM σ α Unit :=
  if neq > 0 then do
    let start ← sub n (neq + 1)
    reverseRange start n
  else pure ()

/-- How far the slice descends from `n` on. `neq` counts the equal neighbours at the end of what
was seen, and each group of equals is reversed when it is over. -/
def descend (lt : Compare σ α) (remaining n neq : Nat) : SliceM σ α (Nat × Nat) :=
  if n < remaining then do
    let p ← sub n 1
    if ← ltAt lt n p then do
      reverseLastEqual n neq
      descend lt remaining (n + 1) 0
    else if ← ltAt lt p n then pure (n, neq)
    else descend lt remaining (n + 1) (neq + 1)
  else pure (n, neq)
termination_by remaining - n

/-- Finishes a run that descends at `n`, and turns it around. -/
def finishDescending (lt : Compare σ α) (remaining n : Nat) : SliceM σ α Nat := do
  reverseFirst n
  let (n, neq) ← descend lt remaining (n + 1) 0
  reverseLastEqual n neq
  reverseRange 0 n
  climb lt remaining n

/-- The length of the run at the start of the slice, turned around if it descends. -/
def countRun (lt : Compare σ α) : SliceM σ α Nat := do
  let remaining := (← get).items.length
  let n ← climb lt remaining 1
  if n = remaining then pure n
  else if ← rises lt n then pure n
  else finishDescending lt remaining n

/-! ## Galloping -/

/-- Searches outwards from `hint` for the boundary of a question, then between the last two steps.
-/
def gallop (before : Nat → EStateM Stop σ Bool) (n hint : Nat) : EStateM Stop σ Nat := do
  if ← before hint then do
    let maxOfs ← sub n hint
    let (lastOfs, ofs) ← gallopOut (fun ofs => before (hint + ofs)) maxOfs 0 1
    bisect before (hint + lastOfs + 1) (hint + min ofs maxOfs)
  else do
    let maxOfs := hint + 1
    let (lastOfs, ofs) ← gallopOut (fun ofs => do
      let i ← sub hint ofs
      return !(← before i)) maxOfs 0 1
    let lo ← sub (hint + 1) (min ofs maxOfs)
    let hi ← sub hint lastOfs
    bisect before lo hi

/-- Where `key` goes in `a`, left of any equal elements. -/
def gallopLeft (lt : Compare σ α) (key : α) (a : List α) (hint : Nat) : EStateM Stop σ Nat :=
  gallop (fun i => do
    let x ← item a i
    ask lt x key) a.length hint

/-- Where `key` goes in `a`, right of any equal elements. -/
def gallopRight (lt : Compare σ α) (key : α) (a : List α) (hint : Nat) : EStateM Stop σ Nat :=
  gallop (fun i => do
    let x ← item a i
    return !(← ask lt key x)) a.length hint

/-! ## The state of a sort -/

/-- A sorted run awaiting a merge. -/
structure Run where
  base : Nat
  len : Nat
  /-- The powersort level of the boundary to the next run. -/
  power : Nat
  deriving DecidableEq, Repr

/-- What the helpers of one sort share, with the ids that are sorted. -/
structure MergeState (σ α : Type) where
  cmp : σ
  ids : List α
  minGallop : Nat
  tmp : List α
  pending : List Run

abbrev MergeM (σ α : Type) := EStateM Stop (MergeState σ α)

namespace MergeState

/-- Lets the comparison work. -/
def asking (x : EStateM Stop σ β) : MergeM σ α β :=
  zoom MergeState.cmp (fun cmp s => { s with cmp }) x

/-- Lets a slice of the ids be sorted in place. -/
def onSlice (lo len : Nat) (x : SliceM σ α β) : MergeM σ α β := do
  let s ← get
  let items ← slice s.ids lo len
  zoom (fun s => ⟨s.cmp, items⟩) (fun t s =>
      { s with cmp := t.cmp, ids := s.ids.take lo ++ t.items ++ s.ids.drop (lo + len) }) x

/-- Writes into the ids. -/
def write (i : Nat) (xs : List α) : MergeM σ α Unit := do
  let s ← get
  let ids ← overwritten s.ids i xs
  modify fun s => { s with ids }

end MergeState

/-- Runs the loop of a merge on its cursors: how it ended, or that it was aborted, and where the
cursors were then. -/
def attempt (c : κ) (loop : EStateM Stop (MergeState σ α × κ) Unit) :
    MergeM σ α (Option MergeEnd × κ) := fun s =>
  match loop (s, c) with
  | .error (.returned how) (s', c') => .ok (some how, c') s'
  | .error .aborted (s', c') => .ok (none, c') s'
  | .error stop (s', _) => .error stop s'
  | .ok _ (s', _) => .error .diverged s'

/-- Leaves the loop of a merge if its cursors say so. -/
def exitIf (p : κ → Bool) (how : MergeEnd) : EStateM Stop (MergeState σ α × κ) Unit := do
  let s ← get
  if p s.2 then throw (.returned how) else pure ()

/-- Works on what a merge shares with the rest of the sort. -/
def onMerge (x : MergeM σ α β) : EStateM Stop (MergeState σ α × κ) β :=
  zoom Prod.fst (fun s p => (s, p.2)) x

def setMinGallop (minGallop : Nat) : EStateM Stop (MergeState σ α × κ) Unit :=
  modify fun p => ({ p.1 with minGallop }, p.2)

/-- One less, but not below one. -/
def lowered (minGallop : Nat) : Nat := minGallop - if minGallop > 1 then 1 else 0

end Monty.Sorting
