import Monty.Fs.OverlayState

/-!
# Looking paths up through the overlay

What the requests ask of a path before they change anything: what the overlay has at it and, where
the overlay has nothing, what the host has. Nothing here follows a symbolic link.

A lookup takes the path that was asked for; errors name it.
-/

namespace Monty.Fs

/-! ## The host's side -/

/-- What a lookup found on the host. -/
inductive RealTarget
  | dir
  /-- Neither a directory nor a symbolic link. -/
  | file
  | symlink
  | absent
  deriving DecidableEq, Repr

variable (dir : HostDir) (k path : Key)

/-- Classifies what the host has at a path, never resolving a symbolic link. -/
def classifyTarget : Except MountError RealTarget :=
  match dir.symlinkMetadata k with
  | .ok .symlink => .ok .symlink
  | .ok .dir => .ok .dir
  | .ok _ => .ok .file
  | .error err => if err.kind = .notFound then .ok .absent else .error (mapIo err path)

/-- Classifies a path one component at a time, descending as it goes. -/
structure ComponentWalk where
  /-- The deepest directory opened so far. -/
  current : Key
  /-- Nothing below the last component can exist. -/
  exhausted : Bool

namespace ComponentWalk

def new : ComponentWalk := ⟨[], false⟩

/-- Classifies a component where the walk stands, and descends into a directory. -/
def step (walk : ComponentWalk) (dir : HostDir) (component : String) (path : Key) :
    Except MountError (RealTarget × ComponentWalk) :=
  if walk.exhausted then .ok (.absent, walk)
  else
    let here := walk.current ++ [component]
    match classifyTarget dir here path with
    | .error err => .error err
    | .ok .dir =>
      match dir.openDir here with
      | .ok () => .ok (.dir, { walk with current := here })
      | .error err =>
        -- the directory went away between the two lookups
        if err.kind = .notFound then .ok (.absent, { walk with exhausted := true })
        else .error (mapIo err path)
    | .ok target => .ok (target, { walk with exhausted := true })

end ComponentWalk

/-- The loop of `rejectSymlinkChain`. -/
def rejectSymlinks (dir : HostDir) (path : Key) :
    ComponentWalk → List String → Except MountError Unit
  | _, [] => .ok ()
  | walk, component :: rest =>
    match walk.step dir component path with
    | .error err => .error err
    | .ok (.symlink, _) => .error (.pathEscape path)
    | .ok (.absent, _) => .ok ()
    | .ok (.file, _) => .ok ()
    | .ok (.dir, walk) => rejectSymlinks dir path walk rest

/-- Refuses a host path if any component of it is a symbolic link. -/
def rejectSymlinkChain : Except MountError Unit := rejectSymlinks dir path .new k

/-- Resolves a path for a lookup on the host. -/
def resolveReal (k : Key) : Except MountError Unit := rejectSymlinkChain dir k k

/-- What to make of a host lookup that failed for another reason than absence. -/
inductive OnLookupFailure
  | missing
  | propagate
  deriving DecidableEq

/-- Whether the host has something at a path. -/
inductive RealPathState
  | present
  | missing
  deriving DecidableEq

/-- Resolves a host path where the overlay has nothing. -/
def resolveRealPathState (k : Key) (onFailure : OnLookupFailure) :
    Except MountError RealPathState :=
  match resolveReal dir k with
  | .error err => if onFailure = .missing then .ok .missing else .error err
  | .ok () =>
    match dir.metadata k with
    | .ok _ => .ok .present
    | .error err =>
      if err.kind = .notFound then .ok .missing
      else if onFailure = .missing then .ok .missing
      else .error (mapIo err k)

/-- Refuses what exists and is not a regular file. -/
def rejectNonRegular : Except MountError Unit :=
  match dir.metadata k with
  | .ok (.dir, _) => .error (.isADirectory path)
  | .ok (.file, _) => .ok ()
  | .ok _ => .error (.permissionDenied path)
  | .error _ => .ok ()

def openRegular : Except MountError OpenFile :=
  match dir.openFile k with
  | .error err => .error (mapIo err path)
  | .ok file =>
    match file.fileType with
    | .file => .ok file
    | .dir => .error (.isADirectory path)
    | _ => .error (.permissionDenied path)

def readFileLimited (budget : MemoryBudget) : Except MountError Bytes := do
  rejectNonRegular dir k path
  let file ← openRegular dir k path
  budget.check file.len
  let content :=
    match budget.available with
    | some available => file.content.take (available + 1)
    | none => file.content
  budget.check content.length
  return content

def fileLen : Except MountError Nat :=
  match dir.metadata k with
  | .ok (_, len) => .ok len
  | .error err => .error (mapIo err path)

/-- The charge for each name of a listing. -/
def listingEntryMemoryUsage : Nat := 128

/-- What a listing tells about a name. -/
structure EntryInfo where
  isDir : Bool
  isFile : Bool
  isSymlink : Bool
  deriving DecidableEq

/-- How the host describes a name of a listing: a symbolic link by what it leads to, and not at all
if that is nothing inside the mount. -/
def hostEntryInfo (dir : HostDir) (k : Key) (name : String) (fileType : FileType) :
    Option EntryInfo :=
  if fileType = .symlink then
    match dir.metadata (k ++ [name]) with
    | .ok (target, _) => some ⟨target = .dir, target = .file, true⟩
    | .error _ => none
  else some ⟨fileType = .dir, fileType = .file, false⟩

/-- The entries of a host listing that the sandbox may see. -/
def visibleEntries (dir : HostDir) (k : Key) (budget : MemoryBudget) :
    List (String × FileType) → Nat → Except MountError (List (String × EntryInfo))
  | [], _ => .ok []
  | (name, fileType) :: rest, usage =>
    match hostEntryInfo dir k name fileType with
    | none => visibleEntries dir k budget rest usage
    | some info => do
      let usage := usage + name.utf8ByteSize + listingEntryMemoryUsage
      budget.check usage
      return (name, info) :: (← visibleEntries dir k budget rest usage)

/-- The entries of a host directory. If the directory cannot be listed, the error of looking it up
comes first. -/
def hostListVisibleDirEntries (budget : MemoryBudget) :
    Except MountError (List (String × EntryInfo)) :=
  match dir.readDir k with
  | .error err =>
    match dir.metadata k with
    | .ok _ => .error (mapIo err path)
    | .error err => .error (mapIo err path)
  | .ok listing => visibleEntries dir k budget listing 0

/-! ## Both sides -/

variable (s : OverlayState) (dir : HostDir)

/-- The loop of `ensureParentExists`: the walk is stepped even where the overlay answers, so that it
keeps pace with the key. -/
def ensureDirectories (path : Key) : ComponentWalk → Key → List String → Except MountError Unit
  | _, _, [] => .ok ()
  | walk, current, component :: rest => do
    let current := current ++ [component]
    let (real, walk) ← walk.step dir component path
    match s.get current, real with
    | some .directory, _ => ensureDirectories path walk current rest
    | some _, _ => .error (.notFound path)
    | none, .dir => ensureDirectories path walk current rest
    | none, .symlink => .error (.pathEscape path)
    | none, .file => .error (.notFound path)
    | none, .absent => .error (.notFound path)

/-- Ensures that every component above a path is a directory. -/
def ensureParentExists (k : Key) : Except MountError Unit :=
  ensureDirectories s dir k .new [] k.dropLast

/-- The loop of `overlayDirsToCreate`. -/
def dirsToCreate : ComponentWalk → Key → List String → Except MountError (List Key)
  | _, _, [] => .ok []
  | walk, current, component :: rest => do
    let current := current ++ [component]
    let (real, walk) ← walk.step dir component current
    match s.get current, real with
    | some .directory, _ => dirsToCreate walk current rest
    | some (.file _), _ => .error (.notADirectory current)
    | some (.realFileRef _), _ => .error (.notADirectory current)
    | some .deleted, _ => return current :: (← dirsToCreate walk current rest)
    | none, .dir => dirsToCreate walk current rest
    | none, .symlink => .error (.pathEscape current)
    | none, .file => .error (.notADirectory current)
    | none, .absent => return current :: (← dirsToCreate walk current rest)

/-- The directories that have to be recorded for a path to be one, the path itself last. -/
def overlayDirsToCreate (k : Key) : Except MountError (List Key) := dirsToCreate s dir .new [] k

/-- Refuses to write over a directory or a symbolic link. -/
def rejectDirectoryTarget (k : Key) : Except MountError Unit :=
  match s.get k with
  | some .directory => .error (.isADirectory k)
  | some _ => .ok ()
  | none => do
    resolveReal dir k
    match ← classifyTarget dir k k with
    | .dir => .error (.isADirectory k)
    | .symlink => .error (.pathEscape k)
    | .file => .ok ()
    | .absent => .ok ()

/-- The length of the file at a path, nothing if there is none. -/
def existingFileLen (k : Key) : Except MountError Nat :=
  match s.get k with
  | some (.file content) => .ok content.length
  | some .deleted => .ok 0
  | some (.realFileRef relative) => do
    rejectSymlinkChain dir relative k
    fileLen dir relative k
  | some .directory => .error (.isADirectory k)
  | none => do
    match ← resolveRealPathState dir k .propagate with
    | .present => fileLen dir k k
    | .missing => .ok 0

/-- The content of the file at a path, nothing if there is none. -/
def existingFileBytes (k : Key) (budget : MemoryBudget) : Except MountError Bytes :=
  match s.get k with
  | some (.file content) => do
    budget.check content.length
    return content
  | some .deleted => .ok []
  | some (.realFileRef relative) => do
    rejectSymlinkChain dir relative k
    readFileLimited dir relative k budget
  | some .directory => .error (.isADirectory k)
  | none => do
    match ← resolveRealPathState dir k .propagate with
    | .present => readFileLimited dir k k budget
    | .missing => .ok []

/-- Whether the overlay has anything but tombstones below a path. -/
def overlayDirectoryHasChildren (k : Key) : Bool := (s.prefixIter k).any fun p => p.2 ≠ .deleted

/-- Whether a real directory has children that are not deleted. -/
def realDirectoryHasVisibleChildren (k : Key) : Except MountError Bool :=
  match dir.readDir k with
  | .error err => .error (mapIo err k)
  | .ok listing => .ok (listing.any fun p => s.get (k ++ [p.1]) ≠ some .deleted)

/-- Whether a listing of the path takes in what the host has there; the overlay's own directories
are complete. -/
def realDirToMerge (k : Key) : Except MountError Bool :=
  match s.get k with
  | some .directory => .ok false
  | some (.file _) => .error (.notADirectory k)
  | some (.realFileRef _) => .error (.notADirectory k)
  | some .deleted => .error (.notFound k)
  | none => do
    resolveReal dir k
    if dir.isDir k then .ok true
    else if dir.pathExists k = false then .error (.notFound k)
    else .error (.notADirectory k)

/-- The entries directly inside a directory, by name; tombstones included, since they hide what the
host has. -/
def overlayChildren (k : Key) : List (String × OverlayEntry) := (s.prefixIter k).filterMap fun p =>
    match p.1.drop k.length with
    | [name] => some (name, p.2)
    | _ => none

end Monty.Fs
