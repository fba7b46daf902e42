import Monty.Heap.Basic

/-!
# The cycle collector

`Heap.collectCycles` is synchronous trial deletion, each phase driven by an explicit work stack.

1. *Discover roots.*  Every `purple` entry without readers is a root; `markGray` paints what it
   reaches `gray` and takes one from a count for every edge it walks.
2. *Scan.*  A `gray` entry whose count and readers are both zero is painted `white` and its `gray`
   children are scanned; any other `gray` entry is alive, and `markBlack` paints what it reaches
   `black`, giving back the counts.
3. *Collect.*  The `white` entries are freed. Their children's counts are not touched: `markGray`
   has already taken the edges out.

`markGray` and `markBlack` are the same walk with a different colour and the opposite adjustment,
`mark color δ` here. The loops of the source end when their stack is empty; the recursions here also
count down a step bound, chosen from the size of the heap, and end in `Panic.outOfFuel` should it be
reached.
-/

namespace Monty

namespace Heap

variable {D : Type} [HeapItem D]

/-! ## Painting a subgraph -/

/-- Adds `δ` to a reference count. A count below zero is the underflow that the source's debug
assertion catches. -/
def adjust (δ : ℤ) (refcount : Nat) : Except Panic Nat :=
  if 0 ≤ (refcount : ℤ) + δ then .ok ((refcount : ℤ) + δ).toNat else .error .underflow

/-- Walks the edges out of one entry: every child's count is adjusted and the child painted, and
children not yet of that colour are pushed. -/
def markChildren (c : CcColor) (δ : ℤ) :
    List HeapId → Heap D → List HeapId → Except Panic (Heap D × List HeapId)
  | [], h, stack => .ok (h, stack)
  | child :: rest, h, stack => do
    let e ← h.get child
    let refcount ← adjust δ e.refcount
    let h' := h.setEntry child { e with refcount, color := c }
    -- already marked via another edge: not pushed again
    markChildren c δ rest h' (if e.color = c then stack else child :: stack)

/-- The loop of `mark_gray` and `mark_black`. -/
def markLoop (c : CcColor) (δ : ℤ) : Nat → Heap D → HeapId → List HeapId → Except Panic (Heap D)
  | 0, _, _, _ => .error .outOfFuel
  | fuel + 1, h, ptr, stack => do
    let e ← h.get ptr
    let (h', stack') ← markChildren c δ (forEachChildId e.data) h stack
    match stack' with
    | [] => .ok h'
    | next :: stack'' => markLoop c δ fuel h' next stack''

/-- Paints everything reachable from `ptr` and adjusts one count per edge walked. -/
def mark (c : CcColor) (δ : ℤ) (h : Heap D) (ptr : HeapId) : Except Panic (Heap D) := do
  let e ← h.get ptr
  markLoop c δ h.entries.len (h.setEntry ptr { e with color := c }) ptr []

/-- Trial deletion of the subgraph below `ptr`. -/
def markGray (h : Heap D) (ptr : HeapId) : Except Panic (Heap D) := h.mark .gray (-1) ptr

/-- Resurrection of the subgraph below `ptr`. -/
def markBlack (h : Heap D) (ptr : HeapId) : Except Panic (Heap D) := h.mark .black 1 ptr

/-! ## The three phases -/

/-- Phase 1, over the slots in order: `roots` grows by the roots found, the last one first. -/
def discoverRoots : List HeapId → Heap D → List HeapId → Except Panic (Heap D × List HeapId)
  | [], h, roots => .ok (h, roots)
  | id :: ids, h, roots =>
    match h.get? id with
    -- a freed slot
    | none => discoverRoots ids h roots
    | some e =>
      if e.color ≠ .purple then discoverRoots ids h roots
      else if 0 < e.readers then
        -- cannot be garbage; no longer a candidate for the next collection either
        discoverRoots ids (h.setEntry id { e with color := .black }) roots
      else do
        let h' ← h.markGray id
        discoverRoots ids h' (id :: roots)

/-- Pushes the children that are still `gray`. -/
def pushGray (h : Heap D) : List HeapId → List HeapId → Except Panic (List HeapId)
  | [], stack => .ok stack
  | child :: rest, stack => do
    let e ← h.get child
    pushGray h rest (if e.color = .gray then child :: stack else stack)

/-- Phase 2: the loop of `scan`. -/
def scan : Nat → Heap D → List HeapId → Except Panic (Heap D)
  | _, h, [] => .ok h
  | 0, _, _ :: _ => .error .outOfFuel
  | fuel + 1, h, ptr :: stack => do
    let e ← h.get ptr
    if e.color ≠ .gray then
      scan fuel h stack
    else if e.refcount = 0 ∧ e.readers = 0 then do
      let h' := h.setEntry ptr { e with color := .white }
      let stack' ← h'.pushGray (forEachChildId e.data) stack
      scan fuel h' stack'
    else do
      let h' ← h.markBlack ptr
      scan fuel h' stack

/-- Phase 3: the loop of `collect_white`, with the number of entries freed so far. -/
def collectWhite : Nat → Heap D → List HeapId → Nat → Except Panic (Heap D × Nat)
  | _, h, [], freed => .ok (h, freed)
  | 0, _, _ :: _, _ => .error .outOfFuel
  | fuel + 1, h, id :: stack, freed => do
    match ← h.entries.entry id with
    -- already freed via another seed's traversal
    | none => collectWhite fuel h stack freed
    | some e =>
      if e.color ≠ .white then
        collectWhite fuel h stack freed
      else if e.readers ≠ 0 then
        .error .activeReaders
      else
        collectWhite fuel (h.freeEntry id e) ((pyDecRefIds e.data).reverse ++ stack) (freed + 1)

/-- The number of references owned by live entries. -/
def edgeCount (h : Heap D) : Nat := ∑ id ∈ h.live, (h.children id).length

/-- The collection proper, once there is at least one candidate. -/
def collectCyclesInner (h : Heap D) : Except Panic (Heap D × Nat) := do
  let (h1, roots) ← discoverRoots (List.range h.entries.len) h []
  let h2 ← scan (roots.length + h.edgeCount) h1 roots
  let (h3, freed) ← collectWhite (roots.length + h.edgeCount) h2 roots 0
  return ({ h3 with purpleCount := 0, allocationsSinceGc := 0 }, freed)

/-- Frees the garbage hanging off the `purple` entries and returns how many entries that was. -/
def collectCycles (h : Heap D) : Except Panic (Heap D × Nat) :=
  if h.purpleCount = 0 then .ok (h, 0) else h.collectCyclesInner

end Heap

end Monty
