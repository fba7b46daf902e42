import Monty.Lib.Fallible
import Monty.Lib.WeighedMap
import Monty.Fs.Host

/-!
# The storage of an overlay mount

A finite map from mount-relative paths to entries, and beside it the memory that the entries are
estimated to take. An entry is a file held in memory, a reference to a real file that was moved, a
directory, or a tombstone that hides what the host has at the path.

Every change keeps the running total (`memoryUsage`) by the difference it makes. The checks
(`checkFileReplacement`, `checkReplacements`) foretell the total before anything is changed.

Sizes are natural numbers: the saturation at the end of the 64-bit range is not modelled, and no
limit at all stands for the largest one. Modification times are left out.
-/

namespace Monty.Fs

open WeighedMap

/-- An entry stored in an overlay mount. -/
inductive OverlayEntry
  /-- A file written by sandbox code. -/
  | file (content : Bytes)
  /-- A real file that was renamed, read only when it is asked for. -/
  | realFileRef (relative : Key)
  | directory
  /-- A tombstone hiding a real or previously overlaid entry. -/
  | deleted
  deriving DecidableEq, Repr

/-- Builds a reference only when the path is a real file. -/
def OverlayEntry.fromRelative (dir : HostDir) (relative : Key) : Option OverlayEntry :=
  match dir.symlinkMetadata relative with
  | .ok .file => some (.realFileRef relative)
  | _ => none

def entryCharge : Nat := 256

section

-- the size of an entry's record, whatever it holds
variable (recordSize : Nat)

/-- The charge for an entry that does not depend on what it holds. -/
def baseEntryMemoryUsage (k : Key) : Nat := entryCharge + k.len + recordSize

/-- What an entry holds beyond its record. -/
def OverlayEntry.variableSize : OverlayEntry → Nat
  | .file content => content.length
  | .realFileRef relative => relative.len
  | .directory | .deleted => 0

def entryMemoryUsage (k : Key) (entry : OverlayEntry) : Nat :=
  baseEntryMemoryUsage recordSize k + entry.variableSize

end

/-- A limit on memory; `none` is no limit. -/
abbrev Limit := Option Nat

def Limit.exceededBy (limit : Limit) (usage : Nat) : Bool :=
  match limit with
  | some l => usage > l
  | none => false

/-- Refuses a usage above the limit. -/
def Limit.check (limit : Limit) (usage : Nat) : Except MountError Unit :=
  if limit.exceededBy usage then .error (.memoryUsageLimitExceeded limit) else .ok ()

/-- In-memory overlay state. -/
structure OverlayState where
  entries : Map Key OverlayEntry
  /-- The estimated memory retained by `entries`. -/
  memoryUsage : Nat

namespace OverlayState

def new : OverlayState := ⟨∅, 0⟩

/-- The entry for a path. -/
protected def get (s : OverlayState) (k : Key) : Option OverlayEntry := s.entries.lookup k

/-- The entries below a path. The root's own key, which has no entry, is passed over here rather
than by the callers. -/
def prefixIter (s : OverlayState) (k : Key) : List (Key × OverlayEntry) :=
  (s.entries.entries.filter fun p => k <+: p.1 ∧ p.1 ≠ k).map fun p => (p.1, p.2)

variable (recordSize : Nat)

/-- What the entry at a path takes. -/
def usageAt (s : OverlayState) (k : Key) : Nat := weightAt (entryMemoryUsage recordSize) s.entries k

/-- Removes and returns the entry for a path. -/
def remove (k : Key) : EStateM MountError OverlayState (Option OverlayEntry) := do
  let s ← get
  match s.get k with
  | none => pure none
  | some entry =>
    set { entries := s.entries.erase k
          memoryUsage := s.memoryUsage - entryMemoryUsage recordSize k entry : OverlayState }
    pure (some entry)

/-- The total as if `entry` replaced the one at the path. -/
def projectedUsage (s : OverlayState) (k : Key) (entry : OverlayEntry) : Nat :=
  s.memoryUsage - s.usageAt recordSize k + entryMemoryUsage recordSize k entry

/-- Inserts an entry if the result stays within the limit. -/
protected def insert (k : Key) (entry : OverlayEntry) (limit : Limit) :
    EStateM MountError OverlayState Unit := do
  let s ← get
  let projected := s.projectedUsage recordSize k entry
  if limit.exceededBy projected then
    throw (.memoryUsageLimitExceeded limit)
  else
    set { entries := s.entries.insert k entry, memoryUsage := projected : OverlayState }

/-- Inserts an entry after the caller has checked the whole update. -/
def insertUnchecked (k : Key) (entry : OverlayEntry) : EStateM MountError OverlayState Unit :=
  modify fun s =>
    { entries := s.entries.insert k entry, memoryUsage := s.projectedUsage recordSize k entry }

/-- Appends to a file of the overlay; answers whether there was one. -/
def appendFile (k : Key) (data : Bytes) (limit : Limit) : EStateM MountError OverlayState Bool := do
  let s ← get
  match s.get k with
  | some (.file content) =>
    let projected := s.memoryUsage + data.length
    if limit.exceededBy projected then
      throw (.memoryUsageLimitExceeded limit)
    else
      set { entries := s.entries.insert k (.file (content ++ data))
            memoryUsage := projected : OverlayState }
      pure true
  | _ => pure false

/-- The total as if a file of the given length replaced the entry at the path. -/
def projectedFileUsage (s : OverlayState) (k : Key) (contentLen : Nat) : Nat :=
  s.memoryUsage - s.usageAt recordSize k + (baseEntryMemoryUsage recordSize k + contentLen)

/-- Checks replacing a path with a file of `contentLen` bytes. -/
def checkFileReplacement (s : OverlayState) (k : Key) (contentLen : Nat) (limit : Limit) :
    Except MountError Unit :=
  limit.check (s.projectedFileUsage recordSize k contentLen)

/-- The total as if the replacements were made one after the other. -/
def projectedReplacements (s : OverlayState) (replacements : List (Key × OverlayEntry)) : Nat :=
  project (entryMemoryUsage recordSize) s.entries replacements s.memoryUsage ∅

/-- Checks a sequence of replacements as one update. -/
def checkReplacements (s : OverlayState) (replacements : List (Key × OverlayEntry))
    (limit : Limit) : Except MountError Unit :=
  limit.check (s.projectedReplacements recordSize replacements)

end OverlayState

/-! ## Budgets -/

/-- What is left for a result that is not retained. -/
structure MemoryBudget where
  available : Limit
  limit : Limit

namespace MemoryBudget

variable (budget : MemoryBudget)

/-- Refuses a result that is larger than what is left. -/
def check (bytes : Nat) : Except MountError Unit :=
  if budget.available.exceededBy bytes then .error (.memoryUsageLimitExceeded budget.limit)
  else .ok ()

/-- The budget without so many bytes. -/
def shrink (bytes : Nat) : Except MountError MemoryBudget :=
  if budget.available.exceededBy bytes then .error (.memoryUsageLimitExceeded budget.limit)
  else .ok { budget with available := budget.available.map (· - bytes) }

/-- Half of the budget. -/
def halved : MemoryBudget := { budget with available := budget.available.map (· / 2) }

/-- No limit. -/
def unlimited : MemoryBudget := ⟨none, none⟩

@[simp] theorem check_unlimited (n : Nat) : unlimited.check n = .ok () := rfl

@[simp] theorem shrink_unlimited (n : Nat) : unlimited.shrink n = .ok unlimited := rfl

end MemoryBudget

/-- What does not change while a mount is used. -/
structure Context where
  dir : HostDir
  recordSize : Nat
  writeBytesLimit : Option Nat
  memoryUsageLimit : Limit

/-- What a mount keeps from one request to the next. -/
structure Mount where
  state : OverlayState
  writeBytesUsed : Nat

/-- A mount nobody has used yet. -/
def Mount.new : Mount := ⟨.new, 0⟩

/-- Programs that change a mount. An error keeps the changes made before it. -/
abbrev OverlayM := EStateM MountError Mount

/-- A change of the overlay state alone. -/
def onState {α : Type} (x : EStateM MountError OverlayState α) : OverlayM α :=
  Fallible.zoom Mount.state (fun s m => { m with state := s }) x

/-- Refuses a write that would exceed the quota. -/
def checkWriteLimit (ctx : Context) (m : Mount) (bytes : Nat) : Except MountError Unit :=
  match ctx.writeBytesLimit with
  | some limit =>
    if m.writeBytesUsed + bytes > limit then .error (.writeLimitExceeded limit) else .ok ()
  | none => .ok ()

/-- Records a successful write against the quota. -/
def commitWriteBytes (ctx : Context) (bytes : Nat) : OverlayM Unit :=
  if ctx.writeBytesLimit.isSome then
    modify fun m => { m with writeBytesUsed := m.writeBytesUsed + bytes }
  else pure ()

/-- The budget for a transient result beside the retained state. -/
def availableMemory (ctx : Context) (s : OverlayState) : Except MountError MemoryBudget :=
  if ctx.memoryUsageLimit.exceededBy s.memoryUsage then
    .error (.memoryUsageLimitExceeded ctx.memoryUsageLimit)
  else .ok ⟨ctx.memoryUsageLimit.map (· - s.memoryUsage), ctx.memoryUsageLimit⟩

end Monty.Fs
