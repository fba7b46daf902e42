import Monty.Sorting.Timsort

/-!
# Merging runs

The two merges of timsort and the stack of runs that decides what is merged when.

`mergeLo` copies the first run to the scratch space and fills from the left; `mergeHi` copies the
second one and fills from the right. Each step of theirs takes some elements off the front, or the
back, of one of the runs (`loTakeA`, `loTakeB`, `hiTakeA`, `hiTakeB`); the source writes the step
for one element as an assignment and that for several as a copy.
-/

namespace Monty.Sorting

open MergeState

variable {σ α : Type}

/-! ## The loops of a merge -/

section Loops

variable {κ : Type}

/-- Merges one element at a time until one run wins `minGallop` times in a row. `step` says whether
the next element of the second run came before that of the first. -/
def straight (step : EStateM Stop (MergeState σ α × κ) Bool) (minGallop : Nat) :
    Nat → Nat → Nat → EStateM Stop (MergeState σ α × κ) Unit
  | 0, _, _ => throw .diverged
  | fuel + 1, before, behind => do
    if ← step then
      if before + 1 ≥ minGallop then pure () else straight step minGallop fuel (before + 1) 0
    else
      if behind + 1 ≥ minGallop then pure () else straight step minGallop fuel 0 (behind + 1)

/-- Gallops until neither run is winning consistently. -/
def galloping (gallopA gallopB : EStateM Stop (MergeState σ α × κ) Nat) :
    Nat → Nat → EStateM Stop (MergeState σ α × κ) Nat
  | 0, _ => throw .diverged
  | fuel + 1, minGallop => do
    let minGallop := lowered minGallop
    setMinGallop minGallop
    let acount ← gallopA
    let bcount ← gallopB
    if acount < minGallopStart ∧ bcount < minGallopStart then pure minGallop
    else galloping gallopA gallopB fuel minGallop

/-- Merges and gallops in turn; leaving galloping mode is penalised. -/
def rounds (step : EStateM Stop (MergeState σ α × κ) Bool)
    (gallopA gallopB : EStateM Stop (MergeState σ α × κ) Nat) :
    Nat → Nat → EStateM Stop (MergeState σ α × κ) Unit
  | 0, _ => throw .diverged
  | fuel + 1, minGallop => do
    straight step minGallop (fuel + 1) 0 0
    let minGallop ← galloping gallopA gallopB (fuel + 1) (minGallop + 1)
    setMinGallop (minGallop + 1)
    rounds step gallopA gallopB fuel (minGallop + 1)

/-- What is done when a loop was left. -/
def finish (copyLast putBack : MergeM σ α Unit) : Option MergeEnd → MergeM σ α Unit
  | some .copyLast => copyLast
  | some .drain => putBack
  | none => do
    putBack
    throw .aborted

end Loops

/-! ## Merging from the left -/

/-- Positions within `mergeLo`: `pa` is in the scratch space, `dest` and `pb` in the ids. -/
structure LoCursor where
  dest : Nat
  pa : Nat
  pb : Nat
  na : Nat
  nb : Nat
  deriving DecidableEq, Repr

abbrev LoM (σ α : Type) := EStateM Stop (MergeState σ α × LoCursor)

/-- Moves the next `k` elements of the first run. -/
def loTakeA (k : Nat) : LoM σ α Unit := do
  let (s, c) ← get
  let xs ← slice s.tmp c.pa k
  onMerge (write c.dest xs)
  let na ← sub c.na k
  modify fun p => (p.1, { c with dest := c.dest + k, pa := c.pa + k, na })

/-- Moves the next `k` elements of the second run. -/
def loTakeB (k : Nat) : LoM σ α Unit := do
  let (s, c) ← get
  let xs ← slice s.ids c.pb k
  onMerge (write c.dest xs)
  let nb ← sub c.nb k
  modify fun p => (p.1, { c with dest := c.dest + k, pb := c.pb + k, nb })

/-- Moves one element of the first run. -/
def loStepA : LoM σ α Unit := do
  loTakeA 1
  exitIf (fun c => c.na == 1) .copyLast

/-- Moves one element of the second run. -/
def loStepB : LoM σ α Unit := do
  loTakeB 1
  exitIf (fun c => c.nb == 0) .drain

/-- Moves the lower one of the next elements. -/
def loStep (lt : Compare σ α) : LoM σ α Bool := do
  let (s, c) ← get
  let b ← item s.ids c.pb
  let a ← item s.tmp c.pa
  if ← onMerge (asking (ask lt b a)) then do
    loStepB
    pure true
  else do
    loStepA
    pure false

/-- Looks for the next element of the second run in the first. -/
def loFindB (lt : Compare σ α) : LoM σ α Nat := do
  let (s, c) ← get
  let b ← item s.ids c.pb
  let xs ← slice s.tmp c.pa c.na
  onMerge (asking (gallopRight lt b xs 0))

/-- Looks for the next element of the first run in the second. -/
def loFindA (lt : Compare σ α) : LoM σ α Nat := do
  let (s, c) ← get
  let a ← item s.tmp c.pa
  let xs ← slice s.ids c.pb c.nb
  onMerge (asking (gallopLeft lt a xs 0))

/-- Moves what a gallop finds of the first run, and the element of the second that comes next. All
of the first run is found with an inconsistent comparison only. -/
def loGallopA (lt : Compare σ α) : LoM σ α Nat := do
  let k ← loFindB lt
  if k > 0 then do
    loTakeA k
    exitIf (fun c => c.na == 1) .copyLast
    exitIf (fun c => c.na == 0) .drain
  loStepB
  pure k

/-- Moves what a gallop finds of the second run, and the element of the first that comes next. -/
def loGallopB (lt : Compare σ α) : LoM σ α Nat := do
  let k ← loFindA lt
  if k > 0 then do
    loTakeB k
    exitIf (fun c => c.nb == 0) .drain
  loStepA
  pure k

/-- The body of `mergeLo`. -/
def mergeLoLoop (lt : Compare σ α) (fuel : Nat) : LoM σ α Unit := do
  loStepB
  exitIf (fun c => c.na == 1) .copyLast
  let p ← get
  rounds (loStep lt) (loGallopA lt) (loGallopB lt) fuel p.1.minGallop

/-- Puts what is left of the first run back. -/
def loPutBack (c : LoCursor) : MergeM σ α Unit := do
  let s ← get
  let xs ← slice s.tmp c.pa c.na
  write c.dest xs

/-- Puts the last element of the first run behind what is left of the second. -/
def loCopyLast (c : LoCursor) : MergeM σ α Unit := do
  let s ← get
  let xs ← slice s.ids c.pb c.nb
  write c.dest xs
  let a ← item s.tmp c.pa
  write (c.dest + c.nb) [a]

/-- Merges the runs at `baseA`, of lengths `na` and `nb`, copying the first to the scratch space. -/
def mergeLo (lt : Compare σ α) (baseA na nb : Nat) : MergeM σ α Unit := do
  let s ← get
  let tmp ← slice s.ids baseA na
  modify fun s => { s with tmp }
  let (result, c) ← attempt ⟨baseA, 0, baseA + na, na, nb⟩ (mergeLoLoop lt (na + nb))
  finish (loCopyLast c) (loPutBack c) result

/-! ## Merging from the right -/

/-- Positions within `mergeHi`, each one past the next element: `pb` is in the scratch space, `dest`
and `pa` in the ids. -/
structure HiCursor where
  dest : Nat
  pa : Nat
  pb : Nat
  na : Nat
  nb : Nat
  deriving DecidableEq, Repr

abbrev HiM (σ α : Type) := EStateM Stop (MergeState σ α × HiCursor)

/-- Moves the last `k` elements of the first run. -/
def hiTakeA (k : Nat) : HiM σ α Unit := do
  let (s, c) ← get
  let dest ← sub c.dest k
  let pa ← sub c.pa k
  let xs ← slice s.ids pa k
  onMerge (write dest xs)
  let na ← sub c.na k
  modify fun p => (p.1, { c with dest, pa, na })

/-- Moves the last `k` elements of the second run. -/
def hiTakeB (k : Nat) : HiM σ α Unit := do
  let (s, c) ← get
  let dest ← sub c.dest k
  let pb ← sub c.pb k
  let xs ← slice s.tmp pb k
  onMerge (write dest xs)
  let nb ← sub c.nb k
  modify fun p => (p.1, { c with dest, pb, nb })

/-- Moves one element of the first run. -/
def hiStepA : HiM σ α Unit := do
  hiTakeA 1
  exitIf (fun c => c.na == 0) .drain

/-- Moves one element of the second run. -/
def hiStepB : HiM σ α Unit := do
  hiTakeB 1
  exitIf (fun c => c.nb == 1) .copyLast

/-- The next element of the second run. -/
def hiNextB : HiM σ α α := do
  let (s, c) ← get
  let i ← sub c.pb 1
  item s.tmp i

/-- The next element of the first run. -/
def hiNextA : HiM σ α α := do
  let (s, c) ← get
  let i ← sub c.pa 1
  item s.ids i

/-- Moves the higher one of the next elements. -/
def hiStep (lt : Compare σ α) : HiM σ α Bool := do
  let b ← hiNextB
  let a ← hiNextA
  if ← onMerge (asking (ask lt b a)) then do
    hiStepA
    pure true
  else do
    hiStepB
    pure false

/-- How many elements at the end of the first run belong behind the last of the second. -/
def hiFindB (lt : Compare σ α) (baseA : Nat) : HiM σ α Nat := do
  let b ← hiNextB
  let (s, c) ← get
  let xs ← slice s.ids baseA c.na
  let hint ← sub c.na 1
  let k ← onMerge (asking (gallopRight lt b xs hint))
  sub c.na k

/-- How many elements at the end of the second run belong behind the last of the first. -/
def hiFindA (lt : Compare σ α) : HiM σ α Nat := do
  let a ← hiNextA
  let (s, c) ← get
  let xs ← slice s.tmp 0 c.nb
  let hint ← sub c.nb 1
  let k ← onMerge (asking (gallopLeft lt a xs hint))
  sub c.nb k

/-- Moves what a gallop finds of the first run, and the element of the second that comes next. -/
def hiGallopA (lt : Compare σ α) (baseA : Nat) : HiM σ α Nat := do
  let k ← hiFindB lt baseA
  if k > 0 then do
    hiTakeA k
    exitIf (fun c => c.na == 0) .drain
  hiStepB
  pure k

/-- Moves what a gallop finds of the second run, and the element of the first that comes next. All
of the second run is found with an inconsistent comparison only. -/
def hiGallopB (lt : Compare σ α) : HiM σ α Nat := do
  let k ← hiFindA lt
  if k > 0 then do
    hiTakeB k
    exitIf (fun c => c.nb == 1) .copyLast
    exitIf (fun c => c.nb == 0) .drain
  hiStepA
  pure k

/-- The body of `mergeHi`. -/
def mergeHiLoop (lt : Compare σ α) (baseA fuel : Nat) : HiM σ α Unit := do
  hiStepA
  exitIf (fun c => c.nb == 1) .copyLast
  let p ← get
  rounds (hiStep lt) (hiGallopA lt baseA) (hiGallopB lt) fuel p.1.minGallop

/-- Puts what is left of the second run back. -/
def hiPutBack (c : HiCursor) : MergeM σ α Unit := do
  let s ← get
  let dest ← sub c.dest c.nb
  let xs ← slice s.tmp 0 c.nb
  write dest xs

/-- Puts the first element of the second run before what is left of the first. -/
def hiCopyLast (c : HiCursor) : MergeM σ α Unit := do
  let s ← get
  let pa ← sub c.pa c.na
  let xs ← slice s.ids pa c.na
  let dest ← sub c.dest c.na
  write dest xs
  let first ← sub dest 1
  let b ← item s.tmp 0
  write first [b]

/-- Merges the runs at `baseA`, of lengths `na` and `nb`, copying the second to the scratch
space. -/
def mergeHi (lt : Compare σ α) (baseA na nb : Nat) : MergeM σ α Unit := do
  let baseB := baseA + na
  let s ← get
  let tmp ← slice s.ids baseB nb
  modify fun s => { s with tmp }
  let (result, c) ← attempt ⟨baseB + nb, baseB, nb, na, nb⟩ (mergeHiLoop lt baseA (na + nb))
  finish (hiCopyLast c) (hiPutBack c) result

/-! ## The stack of runs -/

/-- The stack once the runs at `i` and `i + 1` are one. -/
def mergedPending (pending : List Run) (i : Nat) (a b : Run) : List Run :=
  let joined := pending.set i { a with len := a.len + b.len }
  (match joined[i + 2]? with
    | some r => if i + 3 = joined.length then joined.set (i + 1) r else joined
    | none => joined).dropLast

/-- Merges the ids of two neighbouring runs, leaving out what is in place already. -/
def mergeRuns (lt : Compare σ α) (a b : Run) : MergeM σ α Unit := do
  let s ← get
  let first ← item s.ids b.base
  let as ← slice s.ids a.base a.len
  let k ← asking (gallopRight lt first as 0)
  let baseA := a.base + k
  let na ← sub a.len k
  if na = 0 then pure ()
  else do
    let i ← sub (baseA + na) 1
    let last ← item s.ids i
    let bs ← slice s.ids b.base b.len
    let hint ← sub b.len 1
    let nb ← asking (gallopLeft lt last bs hint)
    if nb = 0 then pure ()
    else if na ≤ nb then mergeLo lt baseA na nb
    else mergeHi lt baseA na nb

/-- Merges the pending runs at `i` and `i + 1`. -/
def mergeAt (lt : Compare σ α) (i : Nat) : MergeM σ α Unit := do
  let s ← get
  let a ← item s.pending i
  let b ← item s.pending (i + 1)
  modify fun s => { s with pending := mergedPending s.pending i a b }
  mergeRuns lt a b

/-- The first bit at which the scaled midpoints of two neighbouring runs differ. -/
def powerloopFrom {τ : Type} (n : Nat) : Nat → Nat → Nat → Nat → EStateM Stop τ Nat
  | 0, _, _, _ => throw .diverged
  | fuel + 1, result, a, b =>
    if a ≥ n then do
      let a ← sub a n
      let b ← sub b n
      powerloopFrom n fuel (result + 1) (2 * a) (2 * b)
    else if b ≥ n then pure (result + 1)
    else powerloopFrom n fuel (result + 1) (2 * a) (2 * b)

/-- The powersort level of the boundary between the runs at `s1`, of lengths `n1` and `n2`, in a
list of length `n`. -/
def powerloop {τ : Type} (s1 n1 n2 n : Nat) : EStateM Stop τ Nat :=
  let a := 2 * s1 + n1
  powerloopFrom n (2 * n) 0 a (a + n1 + n2)

/-- Merges the runs on top of the stack whose level is deeper. -/
def collapseAbove (lt : Compare σ α) (power : Nat) : Nat → MergeM σ α Unit
  | 0 => throw .diverged
  | fuel + 1 => do
    let s ← get
    if s.pending.length > 1 then do
      let i ← sub s.pending.length 2
      let r ← item s.pending i
      if r.power > power then do
        mergeAt lt i
        collapseAbove lt power fuel
      else pure ()
    else pure ()

/-- Sets the level of the run on top of the stack. -/
def setTopPower (power : Nat) : MergeM σ α Unit := do
  let s ← get
  let top ← sub s.pending.length 1
  let r ← item s.pending top
  modify fun s => { s with pending := s.pending.set top { r with power } }

/-- Makes room for a new run of length `n2` behind the stack. -/
def foundNewRun (lt : Compare σ α) (listLen n2 : Nat) : MergeM σ α Unit := do
  let s ← get
  match s.pending.getLast? with
  | none => pure ()
  | some last => do
    let power ← powerloop last.base last.len n2 listLen
    collapseAbove lt power s.pending.length
    setTopPower power

def forceIndex (pending : List Run) : MergeM σ α Nat := do
  let n ← sub pending.length 2
  if n > 0 then do
    let l ← item pending (n - 1)
    let r ← item pending (n + 1)
    if l.len < r.len then sub n 1 else pure n
  else pure n

/-- Merges every pending run, leaving one. -/
def mergeForceCollapse (lt : Compare σ α) : Nat → MergeM σ α Unit
  | 0 => throw .diverged
  | fuel + 1 => do
    let s ← get
    if s.pending.length > 1 then do
      let n ← forceIndex s.pending
      mergeAt lt n
      mergeForceCollapse lt fuel
    else pure ()

/-! ## The sort -/

/-- A minimum run length in `32..=64`, or the length itself when smaller. -/
def mergeComputeMinrun (n r : Nat) : Nat :=
  if maxMinrun ≤ n then mergeComputeMinrun (n / 2) (r ||| (n &&& 1)) else n + r
termination_by n
decreasing_by
  have : 0 < maxMinrun := by decide
  omega

/-- Extends a short natural run by binary insertion. -/
def extendRun (lt : Compare σ α) (minrun lo remaining n : Nat) : MergeM σ α Nat :=
  if n < minrun then do
    let force := min remaining minrun
    onSlice lo force (binarySort lt n)
    pure force
  else pure n

/-- Finds the runs from `lo` on and puts them on the stack. -/
def sortRuns (lt : Compare σ α) (listLen minrun : Nat) : Nat → Nat → MergeM σ α Unit
  | 0, _ => throw .diverged
  | fuel + 1, lo =>
    if lo < listLen then do
      let remaining ← sub listLen lo
      let natural ← onSlice lo remaining (countRun lt)
      let n ← extendRun lt minrun lo remaining natural
      foundNewRun lt listLen n
      modify fun s => { s with pending := s.pending ++ [⟨lo, n, 0⟩] }
      sortRuns lt listLen minrun fuel (lo + n)
    else pure ()

/-- Sorts at least two ids. -/
def sortMany (lt : Compare σ α) (listLen : Nat) : MergeM σ α Unit := do
  sortRuns lt listLen (mergeComputeMinrun listLen 0) (listLen + 1) 0
  let s ← get
  mergeForceCollapse lt (s.pending.length + 1)

/-- Sorts the slice stably. -/
def timsort (lt : Compare σ α) : SliceM σ α Unit := fun t =>
  if t.items.length < 2 then .ok () t
  else
    match sortMany lt t.items.length ⟨t.cmp, t.items, minGallopStart, [], []⟩ with
    | .ok _ s => .ok () ⟨s.cmp, s.ids⟩
    | .error stop s => .error stop ⟨s.cmp, s.ids⟩

/-- Sorts a slice shorter than 64 elements in place: one natural run, extended by insertion. -/
def sortShort (lt : Compare σ α) : SliceM σ α Unit := do
  let t ← get
  if t.items.length < 2 then pure ()
  else do
    let n ← countRun lt
    if n < t.items.length then binarySort lt n else pure ()

end Monty.Sorting
