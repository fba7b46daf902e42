import Monty.Fs.Overlay

/-!
# Renaming, and the requests as a whole

`rename` first makes a plan, reading the overlay and the host: what to put at the destination, which
of the overlay's entries below the source move along, and which real files and directories below it
have to be captured. The plan is checked as one list of replacements and then committed.

`execute` serves any request.
-/

namespace Monty.Fs

open Fallible OverlayState

/-! ## Capturing real descendants -/

/-- The charge for each real entry that is captured. -/
def realDescendantMemoryUsage : Nat := 512

/-- Where `collectRealDescendants` stands. -/
structure Collected where
  result : List (Key × OverlayEntry)
  /-- Directories yet to be listed, the next one first. -/
  dirs : List Key
  usage : Nat

section

variable (s : OverlayState) (dir : HostDir) (handled : List Key) (path : Key)
  (budget : MemoryBudget)

/-- The loop over one directory. The host path of an entry is also its key. -/
def collectEntries (k : Key) : List (String × FileType) → Collected → Except MountError Collected
  | [], acc => .ok acc
  | (name, fileType) :: rest, acc =>
    let child := k ++ [name]
    if (s.get child).isSome || child ∈ handled then collectEntries k rest acc
    else
      match fileType with
      | .symlink => .error (.pathEscape path)
      | .file =>
        match OverlayEntry.fromRelative dir child with
        | some entry => do
          let usage := acc.usage + child.len + child.len + realDescendantMemoryUsage
          budget.check usage
          collectEntries k rest { acc with result := acc.result ++ [(child, entry)], usage }
        -- no longer a plain file
        | none => collectEntries k rest acc
      | .dir => do
        let usage := acc.usage + child.len * 2 + child.len + realDescendantMemoryUsage
        budget.check usage
        collectEntries k rest
          { result := acc.result ++ [(child, .directory)], dirs := child :: acc.dirs, usage }
      | .special => collectEntries k rest acc

/-- The loop over the directories. -/
def collectDirs : Nat → Collected → Except MountError (List (Key × OverlayEntry))
  | 0, _ => .error (.io ⟨.other, "", false⟩ path)
  | fuel + 1, acc =>
    match acc.dirs with
    | [] => .ok acc.result
    | k :: dirs =>
      match dir.readDir k with
      | .error err => .error (mapIo err path)
      | .ok listing => do
        let acc ← collectEntries s dir handled path budget k listing { acc with dirs }
        collectDirs fuel acc

/-- Collects the real descendants that follow a renamed directory. -/
def collectRealDescendants : Except MountError (List (Key × OverlayEntry)) :=
  collectDirs s dir handled path budget (dir.size + 1) ⟨[], [path], path.len + (path.len + 1)⟩

end

/-! ## The plan -/

section

variable (ctx : Context) (s : OverlayState)

/-- Whether the destination is a directory; `none` if there is nothing. -/
def destinationIsDir (dst : Key) : Option Bool :=
  match s.get dst with
  | some .directory => some true
  | some (.file _) => some false
  | some (.realFileRef _) => some false
  | some .deleted => none
  | none =>
    if ctx.dir.isDir dst then some true
    else if ctx.dir.pathExists dst then some false
    else none

/-- Refuses a file onto a directory and a directory onto a file. -/
def rejectRenameTypeMismatch (dst : Key) (srcIsDir : Bool) : Except MountError Unit :=
  match destinationIsDir ctx s dst, srcIsDir with
  | some true, false => .error (.isADirectory dst)
  | some false, true => .error (.notADirectory dst)
  | _, _ => .ok ()

/-- Whether the destination is a directory, which then has to be empty. -/
def dstIsDir (dst : Key) : Bool :=
  match s.get dst with
  | some .directory => true
  | some _ => false
  | none => ctx.dir.isDir dst

/-- Refuses a directory onto one that is not empty. -/
def rejectRenameOntoNonemptyDir (dst : Key) : Except MountError Unit :=
  if dstIsDir ctx s dst then
    if overlayDirectoryHasChildren s dst then .error (.directoryNotEmpty dst)
    else if ctx.dir.isDir dst then do
      if ← realDirectoryHasVisibleChildren s ctx.dir dst then .error (.directoryNotEmpty dst)
      else .ok ()
    else .ok ()
  else .ok ()

/-- Whether the source is a directory. -/
def sourceIsDir (src : Key) : Except MountError Bool :=
  match s.get src with
  | some .directory => .ok true
  | some (.file _) => .ok false
  | some (.realFileRef _) => .ok false
  | some .deleted => .error (.notFound src)
  | none => do
    resolveReal ctx.dir src
    return ctx.dir.isDir src

/-- The entry to put at the destination. -/
def sourceEntry (src : Key) : Except MountError OverlayEntry :=
  match s.get src with
  | some entry => .ok entry
  | none => do
    resolveReal ctx.dir src
    match ← classifyTarget ctx.dir src src with
    | .file =>
      match OverlayEntry.fromRelative ctx.dir src with
      | some entry => .ok entry
      | none => .error (.notFound src)
    | .dir => .ok .directory
    | .symlink => .error (.pathEscape src)
    | .absent => .error (.notFound src)

/-- Where a path below `src` goes. -/
def movedTo (src dst k : Key) : Key := dst ++ k.drop src.length

/-- The memory for planning to move the overlay's entries: each old key twice, and the new one. -/
def planUsage (src dst : Key) : Nat := (s.prefixIter src).foldl
    (fun usage p => usage + p.1.len * 2 + (dst.len + 1 + (p.1.len - (src.len + 1))) + entryCharge) 0

/-- The real entries that move. A lookup that fails counts as no entries, but a refusal and a
lack of memory are errors of the rename. -/
def realDescendants (src : Key) (handled : List Key) (budget : MemoryBudget) :
    Except MountError (List (Key × OverlayEntry)) :=
  match resolveReal ctx.dir src with
  | .error _ => .ok []
  | .ok () =>
    if ctx.dir.isDir src then
      match collectRealDescendants s ctx.dir handled src budget with
      | .ok children => .ok children
      | .error (.memoryUsageLimitExceeded limit) => .error (.memoryUsageLimitExceeded limit)
      | .error (.pathEscape path) => .error (.pathEscape path)
      | .error (.io err path) => if err.kind = .invalidData then .error (.io err path) else .ok []
      | .error (.writeLimitExceeded _) => .ok []
    else .ok []

/-- What moves below a directory: the overlay's entries and the captured ones. -/
def descendantMoves (src dst : Key) (srcIsDir : Bool) :
    Except MountError (List (Key × Key × OverlayEntry) × List (Key × Key × OverlayEntry)) :=
  if srcIsDir then do
    let budget ← availableMemory ctx s
    let remaining ← budget.shrink (planUsage s src dst)
    let children := s.prefixIter src
    let real ← realDescendants ctx s src (children.map Prod.fst) remaining
    return (children.map fun p => (p.1, movedTo src dst p.1, p.2),
      real.map fun p => (p.1, movedTo src dst p.1, p.2))
  else .ok ([], [])

/-- Refuses a destination whose own name is a symbolic link. -/
def resolveDestination (dst : Key) : Except MountError Unit :=
  if (s.get dst).isNone then resolveReal ctx.dir dst else .ok ()

/-- What is refused for directories only: a destination that is not empty, or inside the source. -/
def rejectDirectoryRename (src dst : Key) (srcIsDir : Bool) : Except MountError Unit :=
  if srcIsDir then do
    rejectRenameOntoNonemptyDir ctx s dst
    if src <+: dst ∧ dst ≠ src then .error (.invalidArgument src) else .ok ()
  else .ok ()

/-- What a rename is going to do. A move is the old path, the new one and the entry. -/
structure RenamePlan where
  src : Key
  dst : Key
  entry : OverlayEntry
  overlayMoves : List (Key × Key × OverlayEntry)
  realMoves : List (Key × Key × OverlayEntry)

/-- Makes the plan, or refuses the rename. -/
def planRename (src dst : Key) : Except MountError RenamePlan := do
  rejectMountRoot src
  rejectMountRoot dst
  ensureParentExists s ctx.dir dst
  resolveDestination ctx s dst
  ensureParentExists s ctx.dir src
  let srcIsDir ← sourceIsDir ctx s src
  rejectRenameTypeMismatch ctx s dst srcIsDir
  rejectDirectoryRename ctx s src dst srcIsDir
  let entry ← sourceEntry ctx s src
  let moves ← descendantMoves ctx s src dst srcIsDir
  return { src, dst, entry, overlayMoves := moves.1, realMoves := moves.2 }

end

namespace RenamePlan

variable (plan : RenamePlan)

/-- A tombstone at each old path and the entry at the new one. -/
def replace (moves : List (Key × Key × OverlayEntry)) : List (Key × OverlayEntry) :=
  moves.flatMap fun p => [(p.1, .deleted), (p.2.1, p.2.2)]

/-- Everything the plan changes, in order. -/
def replacements : List (Key × OverlayEntry) :=
  replace ((plan.src, plan.dst, plan.entry) :: (plan.overlayMoves ++ plan.realMoves))

variable (recordSize : Nat)

/-- Takes the entries that move out of the overlay. -/
def takeOut : List (Key × Key × OverlayEntry) →
    EStateM MountError OverlayState (List (Key × Key × OverlayEntry))
  | [] => pure []
  | (old, new, entry) :: rest => do
    let removed ← OverlayState.remove recordSize old
    let rest ← takeOut rest
    -- the entry was read from the overlay when the plan was made, so it is there
    return (old, new, removed.getD entry) :: rest

/-- Leaves a tombstone at each old path and puts the entry at the new one. -/
def putBack (moves : List (Key × Key × OverlayEntry)) : EStateM MountError OverlayState Unit :=
  moves.forM fun p => do
    OverlayState.insertUnchecked recordSize p.1 .deleted
    OverlayState.insertUnchecked recordSize p.2.1 p.2.2

/-- Carries the plan out. -/
def commit : EStateM MountError OverlayState Unit := do
  let removed ← OverlayState.remove recordSize plan.src
  let overlayMoves ← takeOut recordSize plan.overlayMoves
  putBack recordSize
    ((plan.src, plan.dst, removed.getD plan.entry) :: (overlayMoves ++ plan.realMoves))

end RenamePlan

/-- Renames a path within the overlay. -/
def rename (ctx : Context) (src dst : Key) : OverlayM Value := do
  let m ← get
  let plan ← lift (planRename ctx m.state src dst)
  lift (m.state.checkReplacements ctx.recordSize plan.replacements ctx.memoryUsageLimit)
  onState (plan.commit ctx.recordSize)
  return .none

/-! ## Requests -/

/-- A filesystem request. -/
inductive Request
  | pathExists (path : Key)
  | isFile (path : Key)
  | isDir (path : Key)
  | readBytes (path : Key)
  | writeText (path : Key) (data : String)
  | writeBytes (path : Key) (data : Bytes)
  | appendText (path : Key) (data : String)
  | appendBytes (path : Key) (data : Bytes)
  | mkdir (path : Key) (parents existOk : Bool)
  | unlink (path : Key)
  | rmdir (path : Key)
  | iterdir (path : Key) (vpath : String)
  | rename (src dst : Key)
  | createExclusive (path : Key) (mode : FileMode)
  | openFile (path : Key) (mode : FileMode)
  deriving DecidableEq, Repr

/-- A request that only reads. -/
def reading (f : OverlayState → Except MountError Value) : OverlayM Value := do
  let m ← get
  lift (f m.state)

/-- Serves a request. -/
def execute (ctx : Context) : Request → OverlayM Value
  | .pathExists k => reading fun s => pathExists ctx s k
  | .isFile k => reading fun s => isFile ctx s k
  | .isDir k => reading fun s => isDir ctx s k
  | .readBytes k => reading fun s => readBytes ctx s k
  | .writeText k data => writeText ctx k data
  | .writeBytes k data => writeBytes ctx k data
  | .appendText k data => do
    let _ ← appendBytes ctx k data.toUTF8.data.toList
    return .int data.length
  | .appendBytes k data => appendBytes ctx k data
  | .mkdir k parents existOk => mkdir ctx k parents existOk
  | .unlink k => unlink ctx k
  | .rmdir k => rmdir ctx k
  | .iterdir k vpath => reading fun s => iterdir ctx s k vpath
  | .rename src dst => rename ctx src dst
  | .createExclusive k mode => createExclusive ctx k mode
  | .openFile k mode => openFile ctx k mode

end Monty.Fs
