import Monty.Fs.Lookup

/-!
# The requests of an overlay mount

Reads consult the overlay first and fall through to the host where it has no entry. Writes and
deletions stay in memory.

* A request is a program that changes the mount and may fail (`OverlayM`); a failure keeps what the
  program had changed before it.
* `mkdir` and `rename` change several entries: both check the whole update first
  (`checkReplacements`) and commit it with insertions that are not checked again.
* `rename` of a directory moves the overlay's entries below it and captures what the host has there
  and the overlay has not (`collectRealDescendants`), leaving tombstones behind.
-/

namespace Monty.Fs

open Fallible

/-- How a file is opened; the flag says whether it holds bytes or text. -/
inductive FileMode
  | read (binary : Bool)
  | readUpdate (binary : Bool)
  | write (binary : Bool)
  | writeUpdate (binary : Bool)
  | append (binary : Bool)
  | appendUpdate (binary : Bool)
  deriving DecidableEq, Repr

/-- What a request answers. -/
inductive Value
  | none
  | bool (b : Bool)
  | bytes (content : Bytes)
  | int (n : Nat)
  | list (paths : List Key)
  | handle (path : Key) (mode : FileMode)
  deriving DecidableEq, Repr

section

variable (ctx : Context) (s : OverlayState)

/-! ## Reading -/

/-- Whether there is anything at a path. -/
def pathExists (k : Key) : Except MountError Value :=
  match s.get k with
  | some .deleted => .ok (.bool false)
  | some _ => .ok (.bool true)
  | none => do
    match ← resolveRealPathState ctx.dir k .missing with
    | .present => return .bool true
    | .missing => return .bool false

/-- Whether there is a file at a path. -/
def isFile (k : Key) : Except MountError Value :=
  match s.get k with
  | some (.file _) => .ok (.bool true)
  | some (.realFileRef _) => .ok (.bool true)
  | some .directory => .ok (.bool false)
  | some .deleted => .ok (.bool false)
  | none => do
    match ← resolveRealPathState ctx.dir k .missing with
    | .present => return .bool (ctx.dir.isFile k)
    | .missing => return .bool false

/-- Whether there is a directory at a path. -/
def isDir (k : Key) : Except MountError Value :=
  match s.get k with
  | some .directory => .ok (.bool true)
  | some _ => .ok (.bool false)
  | none => do
    match ← resolveRealPathState ctx.dir k .missing with
    | .present => return .bool (ctx.dir.isDir k)
    | .missing => return .bool false

/-- Reads a file. -/
def readBytes (k : Key) : Except MountError Value :=
  match s.get k with
  | some (.file content) => do
    let budget ← availableMemory ctx s
    budget.check content.length
    return .bytes content
  | some (.realFileRef relative) => do
    rejectSymlinkChain ctx.dir relative k
    let budget ← availableMemory ctx s
    return .bytes (← readFileLimited ctx.dir relative k budget)
  | some .directory => .error (.isADirectory k)
  | some .deleted => .error (.notFound k)
  | none => do
    resolveReal ctx.dir k
    let budget ← availableMemory ctx s
    return .bytes (← readFileLimited ctx.dir k k budget)

/-- The path of a name below a path, as it is spelled. -/
def formatChildPath (parent child : String) : String :=
  if parent.toList.getLast? = some '/' then parent ++ child else parent ++ "/" ++ child

/-- The overlay's part of a listing, with what it takes. -/
def listOverlay (k : Key) (vpath : String) (budget : MemoryBudget) :
    List (String × OverlayEntry) → Nat → Except MountError (List Key × Nat)
  | [], usage => .ok ([], usage)
  | (name, entry) :: rest, usage => do
    -- names are charged twice: for the set of names seen and for the copy
    let usage := usage + name.utf8ByteSize * 2 + listingEntryMemoryUsage
    budget.check usage
    if entry = .deleted then listOverlay k vpath budget rest usage
    else do
      let usage := usage + (formatChildPath vpath name).utf8ByteSize + listingEntryMemoryUsage
      budget.check usage
      let (paths, usage) ← listOverlay k vpath budget rest usage
      return ((k ++ [name]) :: paths, usage)

/-- The host's part of a listing, without the names the overlay has. -/
def listHost (k : Key) (vpath : String) (budget : MemoryBudget) (seen : List String) :
    List (String × EntryInfo) → Nat → Except MountError (List Key)
  | [], _ => .ok []
  | (name, _) :: rest, usage =>
    if name ∈ seen then listHost k vpath budget seen rest usage
    else do
      let usage := usage + (formatChildPath vpath name).utf8ByteSize + listingEntryMemoryUsage
      budget.check usage
      return (k ++ [name]) :: (← listHost k vpath budget seen rest usage)

/-- Lists a directory, merging the overlay's entries and the host's. The budget is charged for the
paths of the listing, which continue `vpath`, the directory's path as the request spells it. -/
def iterdir (k : Key) (vpath : String) : Except MountError Value := do
  let merge ← realDirToMerge s ctx.dir k
  let budget ← availableMemory ctx s
  let children := overlayChildren s k
  let (paths, usage) ← listOverlay k vpath budget children 0
  if merge then do
    let remaining ← budget.shrink usage
    let names ← hostListVisibleDirEntries ctx.dir k k remaining.halved
    let usage := names.foldl
      (fun usage p => usage + p.1.utf8ByteSize + listingEntryMemoryUsage) usage
    return .list (paths ++ (← listHost k vpath budget (children.map Prod.fst) names usage))
  else return .list paths

/-- What `open` for reading asks for. -/
def openRead (k : Key) : Except MountError Unit :=
  match s.get k with
  | some (.file _) => .ok ()
  | some (.realFileRef _) => .ok ()
  | some .directory => .error (.isADirectory k)
  | some .deleted => .error (.notFound k)
  | none => do
    match ← resolveRealPathState ctx.dir k .propagate with
    | .present => if ctx.dir.isDir k then .error (.isADirectory k) else .ok ()
    | .missing => .error (.notFound k)

end

variable (ctx : Context)

/-! ## Writing -/

variable (k : Key)

/-- Inserts an entry under the mount's limit. -/
def insertEntry (entry : OverlayEntry) : OverlayM Unit :=
  onState (OverlayState.insert ctx.recordSize k entry ctx.memoryUsageLimit)

variable (data : Bytes)

/-- Writes a file; text is written as its bytes and answered by its number of characters. -/
def writeFile (count : Nat) : OverlayM Value := do
  let m ← get
  lift (checkWriteLimit ctx m data.length)
  lift (ensureParentExists m.state ctx.dir k)
  lift (rejectDirectoryTarget m.state ctx.dir k)
  lift (m.state.checkFileReplacement ctx.recordSize k data.length ctx.memoryUsageLimit)
  insertEntry ctx k (.file data)
  commitWriteBytes ctx data.length
  return .int count

def writeText (data : String) : OverlayM Value :=
  writeFile ctx k data.toUTF8.data.toList data.length

def writeBytes : OverlayM Value := writeFile ctx k data data.length

/-- Makes a file of the overlay out of what is at a path, with data appended. -/
def materialize (existingLen : Nat) : OverlayM Unit := do
  let m ← get
  let finalLen := existingLen + data.length
  lift (m.state.checkFileReplacement ctx.recordSize k finalLen ctx.memoryUsageLimit)
  let budget ← lift (availableMemory ctx m.state)
  lift (budget.check finalLen)
  let rest ← lift (budget.shrink data.length)
  let content ← lift (existingFileBytes m.state ctx.dir k rest)
  insertEntry ctx k (.file (content ++ data))

/-- Whether the overlay holds a file at a path. -/
def OverlayState.holdsFile (s : OverlayState) (k : Key) : Bool :=
  match s.get k with
  | some (.file _) => true
  | _ => false

/-- Extends a file of the overlay in place; anything else becomes one first. -/
def extendFile (existingLen : Nat) : OverlayM Unit := do
  let appended ← onState (OverlayState.appendFile k data ctx.memoryUsageLimit)
  if appended then pure () else materialize ctx k data existingLen

/-- Appends bytes. A real file is read only after its final size is known to fit. -/
def appendBytes : OverlayM Value := do
  let m ← get
  lift (ensureParentExists m.state ctx.dir k)
  lift (rejectDirectoryTarget m.state ctx.dir k)
  let existingLen ← lift (existingFileLen m.state ctx.dir k)
  let charged := if ctx.writeBytesLimit.isSome && !m.state.holdsFile k
    then existingLen + data.length else data.length
  lift (checkWriteLimit ctx m charged)
  extendFile ctx k data existingLen
  commitWriteBytes ctx charged
  return .int data.length

/-- Whether a name is taken. -/
def occupied (s : OverlayState) (k : Key) : Except MountError Bool :=
  match s.get k with
  | some .deleted => .ok false
  | some _ => .ok true
  | none => do return (← classifyTarget ctx.dir k k) ≠ .absent

/-- Refuses a name that is taken. -/
def rejectOccupied (s : OverlayState) (k : Key) : Except MountError Unit := do
  if ← occupied ctx s k then .error (.fileExists k) else .ok ()

/-- Reserves a name that is not taken. -/
def createExclusive (mode : FileMode) : OverlayM Value := do
  let m ← get
  lift (ensureParentExists m.state ctx.dir k)
  lift (rejectOccupied ctx m.state k)
  lift (checkWriteLimit ctx m 0)
  insertEntry ctx k (.file [])
  return .handle k mode

/-- Makes sure that there is a file to append to, without reading it. -/
def ensureAppendTargetExists : OverlayM Unit := do
  let m ← get
  match m.state.get k with
  | some (.file _) => pure ()
  | some (.realFileRef _) => pure ()
  | some .directory => throw (.isADirectory k)
  | some .deleted =>
    lift (ensureParentExists m.state ctx.dir k)
    insertEntry ctx k (.file [])
  | none =>
    lift (resolveReal ctx.dir k)
    let target ← lift (classifyTarget ctx.dir k k)
    match target with
    | .dir => throw (.isADirectory k)
    | .symlink => throw (.pathEscape k)
    | .file => lift (ensureParentExists m.state ctx.dir k)
    | .absent =>
      lift (ensureParentExists m.state ctx.dir k)
      insertEntry ctx k (.file [])

/-- What opening a file does: reading needs it to be there, writing empties it, appending makes
it. -/
def openEffect : FileMode → OverlayM Unit
  | .read _ | .readUpdate _ => do
    let m ← get
    lift (openRead ctx m.state k)
  | .write _ | .writeUpdate _ => do
    let _ ← writeText ctx k ""
  | .append _ | .appendUpdate _ => ensureAppendTargetExists ctx k

def openFile (mode : FileMode) : OverlayM Value := do
  openEffect ctx k mode
  return .handle k mode

/-! ## Directories and deletion -/

/-- The charge for each directory that is made. -/
def directoryWriteBytes : Nat := 4096

/-- Makes directories and records them. -/
def createDirectories (dirs : List Key) : OverlayM Value := do
  let m ← get
  let charge := dirs.length * directoryWriteBytes
  lift (checkWriteLimit ctx m charge)
  lift (m.state.checkReplacements ctx.recordSize (dirs.map fun k => (k, .directory))
    ctx.memoryUsageLimit)
  dirs.forM fun k => onState (OverlayState.insertUnchecked ctx.recordSize k .directory)
  commitWriteBytes ctx charge
  return .none

/-- What is in the way of a new directory: `some false` is a file, `some true` a directory. -/
def mkdirTarget (s : OverlayState) (k : Key) : Except MountError (Option Bool) :=
  match s.get k with
  | some .directory => .ok (some true)
  | some (.file _) => .ok (some false)
  | some (.realFileRef _) => .ok (some false)
  | some .deleted => .ok none
  | none => do
    resolveReal ctx.dir k
    match ← classifyTarget ctx.dir k k with
    | .dir => return some true
    | .file => return some false
    | .symlink => .error (.pathEscape k)
    | .absent => return none

/-- Makes a directory. -/
def mkdir (parents existOk : Bool) : OverlayM Value := do
  let m ← get
  let target ← lift (mkdirTarget ctx m.state k)
  match target with
  | some true => if existOk then pure .none else throw (.fileExists k)
  | some false => throw (.fileExists k)
  | none =>
    if parents then
      let dirs ← lift (overlayDirsToCreate m.state ctx.dir k)
      createDirectories ctx dirs
    else
      lift (ensureParentExists m.state ctx.dir k)
      createDirectories ctx [k]

/-- Whether a path is a file that can be removed. -/
def unlinkTarget (s : OverlayState) (k : Key) : Except MountError Unit :=
  match s.get k with
  | some (.file _) => .ok ()
  | some (.realFileRef _) => .ok ()
  | some .directory => .error (.isADirectory k)
  | some .deleted => .error (.notFound k)
  | none => do
    ensureParentExists s ctx.dir k
    resolveReal ctx.dir k
    match ← classifyTarget ctx.dir k k with
    | .file => .ok ()
    | .dir => .error (.isADirectory k)
    | .symlink => .error (.pathEscape k)
    | .absent => .error (.notFound k)

/-- Removes a file by adding a tombstone. -/
def unlink : OverlayM Value := do
  let m ← get
  lift (unlinkTarget ctx m.state k)
  insertEntry ctx k .deleted
  return .none

/-- Refuses to move or remove the mount root, which has no name inside the mount. -/
def rejectMountRoot : Except MountError Unit :=
  if k = [] then .error (.pathEscape k) else .ok ()

/-- Whether a path is a directory that can be removed. -/
def rmdirTarget (s : OverlayState) (k : Key) : Except MountError Unit :=
  match s.get k with
  | some .directory =>
    if overlayDirectoryHasChildren s k then .error (.directoryNotEmpty k) else .ok ()
  | some (.file _) => .error (.notADirectory k)
  | some (.realFileRef _) => .error (.notADirectory k)
  | some .deleted => .error (.notFound k)
  | none => do
    ensureParentExists s ctx.dir k
    resolveReal ctx.dir k
    if ctx.dir.isDir k = false then
      .error (if ctx.dir.pathExists k then .notADirectory k else .notFound k)
    else if ← realDirectoryHasVisibleChildren s ctx.dir k then .error (.directoryNotEmpty k)
    else if overlayDirectoryHasChildren s k then .error (.directoryNotEmpty k)
    else .ok ()

/-- Removes an empty directory by adding a tombstone. -/
def rmdir : OverlayM Value := do
  let m ← get
  lift (rejectMountRoot k)
  lift (rmdirTarget ctx m.state k)
  insertEntry ctx k .deleted
  return .none

end Monty.Fs
