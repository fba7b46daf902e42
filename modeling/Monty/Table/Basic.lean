import Monty.Lib.BucketTable

/-!
# The insertion-ordered hash table

`PyHashTable` is the table behind `dict` and `set`: the entries in insertion order, and a
`BucketTable` of indices into them. Removing an entry leaves a *tombstone* in its slot, so that the
other entries keep their indices. `push` compacts the slots once half of them are tombstones, which
renumbers every entry and rebuilds the buckets; how many entries are live is never stored, it is the
number of buckets.

Lookups go through `probe`, which hands the entries visited by the bucket table to a function that
may carry state along, and stops at the first one accepted. Reading a slot past the end is a panic
of the source, and `TablePanic.outOfRange` here.
-/

namespace Monty

open BucketTable

/-- How reading a table can panic. -/
inductive TablePanic
  /-- A slot past the last one. -/
  | outOfRange
  /-- A slot that a probe returned, used after its entry was removed. -/
  | probeSlotDead
  deriving DecidableEq, Repr

/-- An exception raised in guest code: its type and its message. -/
structure RunError where
  excType : String
  message : String
  deriving DecidableEq, Repr

/-- What a table asks of its entries. -/
class TableEntry (E : Type) (K : outParam Type) where
  probeKey : E → K
  /-- The hash cached in the entry. -/
  hash : E → UInt64
  tombstone : E
  isLive : E → Bool
  /-- Raised when the container changed size during iteration. -/
  changedSizeError : RunError
  /-- Raised when its entries were renumbered during iteration, by containers that look for that. -/
  changedKeysError : Option RunError
  isLive_tombstone : isLive tombstone = false
  /-- The two errors can be told apart. -/
  changedKeysError_ne : changedKeysError ≠ some changedSizeError

/-! ## The kinds of entry -/

/-- The exception raised when a container was changed while it was iterated over. -/
def runtimeError (message : String) : RunError := ⟨"RuntimeError", message⟩

/-- An entry of a `dict`. `none` is `Value::Undefined`, which no guest code gets hold of. -/
structure DictEntry (V : Type) where
  key : Option V
  value : Option V
  hash : UInt64

instance (V : Type) : TableEntry (DictEntry V) (Option V) where
  probeKey := DictEntry.key
  hash := DictEntry.hash
  tombstone := ⟨none, none, 0⟩
  isLive e := e.key.isSome
  changedSizeError := runtimeError "dictionary changed size during iteration"
  changedKeysError := some (runtimeError "dictionary keys changed during iteration")
  isLive_tombstone := rfl
  changedKeysError_ne := by decide

/-- An entry of a `set` or a `frozenset`. -/
structure SetEntry (V : Type) where
  value : Option V
  hash : UInt64

instance (V : Type) : TableEntry (SetEntry V) (Option V) where
  probeKey := SetEntry.value
  hash := SetEntry.hash
  tombstone := ⟨none, 0⟩
  isLive e := e.value.isSome
  changedSizeError := runtimeError "Set changed size during iteration"
  changedKeysError := none
  isLive_tombstone := rfl
  changedKeysError_ne := by decide

/-- A result of an `lru_cache`, and when it was last asked for. -/
structure CacheEntry (V : Type) where
  key : Option V
  value : Option V
  hash : UInt64
  stamp : UInt64

instance (V : Type) : TableEntry (CacheEntry V) (Option V) where
  probeKey := CacheEntry.key
  hash := CacheEntry.hash
  tombstone := ⟨none, none, 0, 0⟩
  isLive e := e.key.isSome
  changedSizeError := runtimeError "dictionary changed size during iteration"
  changedKeysError := none
  isLive_tombstone := rfl
  changedKeysError_ne := by decide

/-! ## The table -/

/-- The entries in insertion order, tombstones included, and the buckets that index them. -/
structure PyHashTable (T E : Type) where
  indices : T
  entries : List E

namespace PyHashTable

variable {T E K : Type} [BucketTable T] [TableEntry E K]

/-- Tables with fewer slots than this are not compacted. -/
def compactMinSlots : Nat := 8

/-- The table without entries. -/
def default : PyHashTable T E := ⟨empty, []⟩

/-- The hash cached in a slot, as the bucket table asks for it when it grows. Only stored indices
are asked for, and those are in range. -/
def hashAt (entries : List E) (i : Nat) : UInt64 := (entries[i]?).elim 0 (TableEntry.hash (K := K))

/-- Inserts a bucket for every live slot from `index` on. -/
def reindexFrom (entries : List E) : List E → Nat → T → T
  | [], _, indices => indices
  | e :: rest, index, indices =>
    reindexFrom entries rest (index + 1) <|
      if TableEntry.isLive e then
        insertUnique indices (TableEntry.hash e) index (hashAt entries)
      else indices

variable (t : PyHashTable T E)

/-- Rebuilds the buckets from the entries. -/
def reindex : PyHashTable T E :=
  { t with indices := reindexFrom t.entries t.entries 0 (clear t.indices) }

/-- A table of the given live entries. -/
def fromEntries (entries : List E) : PyHashTable T E := reindex ⟨empty, entries⟩

/-- What `serialize` writes: all slots, tombstones included. -/
def serialize : List E := t.entries

/-- What `deserialize` makes of it. -/
def deserialize (entries : List E) : PyHashTable T E := reindex ⟨empty, entries⟩

/-- The live entries, in insertion order. -/
def live : List E := t.entries.filter TableEntry.isLive

/-- The number of live entries. -/
def len (t : PyHashTable T E) : Nat := BucketTable.len t.indices

variable (slot : Nat)

def getLive : Option E := (t.entries[slot]?).filter TableEntry.isLive

/-- The slot of the first live entry of a list whose slots are numbered from `i`. -/
def nextLiveSlotIn : List E → Nat → Option Nat
  | [], _ => none
  | e :: rest, i => if TableEntry.isLive e then some i else nextLiveSlotIn rest (i + 1)

/-- The first live slot at or after `i`. -/
def nextLiveSlot (i : Nat) : Option Nat := nextLiveSlotIn (t.entries.drop i) i

/-- Drops the tombstones, which renumbers the entries. -/
def compact : PyHashTable T E := reindex { t with entries := t.entries.filter TableEntry.isLive }

/-- Whether `push` compacts first. -/
def wantsCompact : Prop :=
  compactMinSlots ≤ t.entries.length ∧ t.entries.length / 2 ≤ t.entries.length - t.len

instance (t : PyHashTable T E) : Decidable t.wantsCompact := by
  unfold wantsCompact
  infer_instance

/-- Appends a live entry and its bucket. -/
def pushEntry (e : E) : PyHashTable T E :=
  { indices := insertUnique t.indices (TableEntry.hash e) t.entries.length
      (hashAt (t.entries ++ [e]))
    entries := t.entries ++ [e] }

/-- Appends a live entry, after dropping the tombstones if there are many. -/
def push (e : E) : PyHashTable T E :=
  if t.wantsCompact then t.compact.pushEntry e else t.pushEntry e

/-- Replaces a live entry by a tombstone, removes its bucket and returns it. -/
def tombstoneAt : Except TablePanic (E × PyHashTable T E) :=
  match t.entries[slot]? with
  | none => .error .outOfRange
  | some e => .ok (e,
      { indices := removeFirst t.indices (TableEntry.hash e) (· == slot)
        entries := t.entries.set slot TableEntry.tombstone })

/-- The live entry of a slot that a probe returned. -/
def entry : Except TablePanic E :=
  match t.getLive slot with
  | some e => .ok e
  | none => .error .probeSlotDead

/-- Overwrites the entry of a slot that a probe returned with one of the same hash. -/
def replace (e : E) : Except TablePanic (E × PyHashTable T E) :=
  match t.getLive slot with
  | some old => .ok (old, { t with entries := t.entries.set slot e })
  | none => .error .probeSlotDead

/-- Mutates the entry of a slot that a probe returned in place. -/
def entryMut (f : E → E) : Except TablePanic (PyHashTable T E) :=
  match t.getLive slot with
  | some e => .ok { t with entries := t.entries.set slot (f e) }
  | none => .error .probeSlotDead

/-- Removes the entry of a slot that a probe returned. -/
def remove : Except TablePanic (E × PyHashTable T E) := t.tombstoneAt slot

/-- The last live slot below `n`. -/
def lastLiveSlotBelow (t : PyHashTable T E) : Nat → Option Nat
  | 0 => none
  | n + 1 => if (t.getLive n).isSome then some n else t.lastLiveSlotBelow n

def lastLiveSlot : Option Nat := t.lastLiveSlotBelow t.entries.length

/-- Removes the last live entry. -/
def popLast : Except TablePanic (Option E × PyHashTable T E) :=
  match t.lastLiveSlot with
  | none => .ok (none, t)
  | some slot => do
    let (e, t') ← t.tombstoneAt slot
    return (some e, t')

/-- Empties the table and returns its live entries. -/
def takeEntries : List E × PyHashTable T E :=
  (t.entries.filter TableEntry.isLive, ⟨clear t.indices, []⟩)

/-! ## Probing -/

/-- Hands the entries of the given slots to `f` until it accepts one. `f` carries state along. -/
def probeFrom {σ : Type} (t : PyHashTable T E) (f : σ → Nat → E → σ × Bool) :
    List Nat → σ → Except TablePanic (σ × Option Nat)
  | [], s => .ok (s, none)
  | i :: rest, s =>
    match t.entries[i]? with
    | none => .error .outOfRange
    | some e =>
      match f s i e with
      | (s', true) => .ok (s', some i)
      | (s', false) => probeFrom t f rest s'

/-- A lookup under a hash. -/
def probe {σ : Type} (t : PyHashTable T E) (hash : UInt64) (f : σ → Nat → E → σ × Bool) (s : σ) :
    Except TablePanic (σ × Option Nat) :=
  t.probeFrom f (probeSeq t.indices hash) s

/-- The slot of an entry with the given cached hash that satisfies `p`. -/
def position (hash : UInt64) (p : E → Bool) : Except TablePanic (Option Nat) := do
  let (_, found) ← t.probe hash (fun (s : Unit) _ e => (s, TableEntry.hash e == hash && p e)) ()
  return found

/-- The slot of an entry with the given cached hash that satisfies `p`. -/
def find (hash : UInt64) (p : E → Bool) : Except TablePanic (Option Nat) := t.position hash p

end PyHashTable

end Monty
