import Mathlib.Algebra.GroupWithZero.Nat
import Mathlib.Data.Finmap
import Monty.Lib.FileTree

/-!
# The mounted directory

What an overlay mount sees of the host: a directory descriptor through which paths relative to the
mount root are looked up, listed and read. Nothing is ever written through it. A path is the list of
its components. Lookups that do not follow a symbolic link (`symlinkMetadata`) report it as one.

`HostTree` is a host of regular files and directories and `HostTree.dir` its descriptor, with the
errors of POSIX path resolution: a name that is missing from a directory is `notFound`, and a path
that goes on below a regular file is `notADirectory`.
-/

namespace Monty.Fs

open FileTree

/-- A mount-relative path. -/
abbrev Key := List String

/-- The contents of a file. -/
abbrev Bytes := List UInt8

/-- The length of a path as it is spelled, with a slash between components. -/
def Key.len (k : Key) : Nat := (k.map String.utf8ByteSize).sum + (k.length - 1)

/-- The kinds of I/O error that matter here. -/
inductive ErrorKind
  | notFound
  | alreadyExists
  | isADirectory
  | notADirectory
  | directoryNotEmpty
  | invalidInput
  | permissionDenied
  | invalidData
  | other
  deriving DecidableEq, Repr

/-- An I/O error. One of the host that the operating system did not raise was made up by the
descriptor, to refuse a path that leaves the mount. -/
structure IoError where
  kind : ErrorKind
  message : String
  raisedByOs : Bool
  deriving DecidableEq, Repr

/-- Errors of filesystem operations. Paths are those the sandbox asked for. -/
inductive MountError
  | pathEscape (path : Key)
  | io (err : IoError) (path : Key)
  | writeLimitExceeded (limit : Nat)
  | memoryUsageLimitExceeded (limit : Option Nat)
  deriving DecidableEq, Repr

namespace MountError

/-- An error raised by the mount itself. -/
def ioErr (kind : ErrorKind) (message : String) (path : Key) : MountError :=
  .io ⟨kind, message, false⟩ path

def notFound (path : Key) : MountError := ioErr .notFound "No such file or directory" path

def isADirectory (path : Key) : MountError := ioErr .isADirectory "Is a directory" path

def notADirectory (path : Key) : MountError := ioErr .notADirectory "Not a directory" path

def fileExists (path : Key) : MountError := ioErr .alreadyExists "File exists" path

def directoryNotEmpty (path : Key) : MountError :=
  ioErr .directoryNotEmpty "Directory not empty" path

def permissionDenied (path : Key) : MountError := ioErr .permissionDenied "Permission denied" path

def invalidArgument (path : Key) : MountError := ioErr .invalidInput "Invalid argument" path

end MountError

/-- An error of the host as the sandbox gets to see it. -/
def mapIo (err : IoError) (path : Key) : MountError :=
  if err.kind = .permissionDenied ∧ err.raisedByOs = false then .pathEscape path else .io err path

/-- What a name of the host stands for. -/
inductive FileType
  | file
  | dir
  | symlink
  /-- A device, a pipe or a socket. -/
  | special
  deriving DecidableEq, Repr

/-- A file that was opened for reading. -/
structure OpenFile where
  fileType : FileType
  /-- Its length when it was opened. -/
  len : Nat
  /-- What reading it to the end gives. -/
  content : Bytes

/-- The descriptor of the mounted directory. -/
structure HostDir where
  /-- What a path names, following a symbolic link, and how long it is. -/
  metadata : Key → Except IoError (FileType × Nat)
  /-- What a path names, without following a symbolic link at its end. -/
  symlinkMetadata : Key → Except IoError FileType
  /-- Opens a directory. -/
  openDir : Key → Except IoError Unit
  /-- The names in a directory, with their types, in some order. -/
  readDir : Key → Except IoError (List (String × FileType))
  /-- Opens a file for reading. -/
  openFile : Key → Except IoError OpenFile
  /-- A bound on the number of directories, since a host has finitely many. -/
  size : Nat

namespace HostDir

variable (dir : HostDir)

/-- Whether a path is there. -/
def pathExists (k : Key) : Bool := (dir.metadata k).toBool

/-- Whether a path resolves to a directory inside the mount. -/
def isDir (k : Key) : Bool :=
  match dir.metadata k with
  | .ok (.dir, _) => true
  | _ => false

/-- Whether a path resolves to a regular file inside the mount. -/
def isFile (k : Key) : Bool :=
  match dir.metadata k with
  | .ok (.file, _) => true
  | _ => false

end HostDir

/-! ## A host of files and directories -/

/-- A finite tree of regular files and directories, listed in the order the host lists them. -/
structure HostTree where
  nodes : AList fun _ : Key => Node Bytes
  root : nodes.lookup [] = some .dir
  parent : ∀ k n, nodes.lookup (k ++ [n]) ≠ none → nodes.lookup k = some .dir

namespace HostTree

variable (t : HostTree)

/-- What is at a path. -/
def node (k : Key) : Option (Node Bytes) := t.nodes.lookup k

/-- The tree as its paths see it. -/
def toTree : Tree String Bytes := ⟨t.node, t.root, t.parent⟩

/-- Whether the path goes on below a regular file. -/
def belowFile (k : Key) : Bool := (List.range k.length).any fun i =>
    match t.node (k.take i) with
    | some (.file _) => true
    | _ => false

/-- The errors of POSIX path resolution. -/
def osError (kind : ErrorKind) : IoError :=
  match kind with
  | .notADirectory => ⟨kind, "Not a directory", true⟩
  | .isADirectory => ⟨kind, "Is a directory", true⟩
  | _ => ⟨kind, "No such file or directory", true⟩

/-- Looks a path up as POSIX does. -/
def find (k : Key) : Except IoError (Node Bytes) :=
  match t.node k with
  | some v => .ok v
  | none => .error (osError (if t.belowFile k then .notADirectory else .notFound))

def fileType : Node Bytes → FileType
  | .file _ => .file
  | .dir => .dir

def len : Node Bytes → Nat
  | .file content => content.length
  | .dir => 0

/-- The names in a directory. -/
def children (k : Key) : List (String × FileType) := t.nodes.entries.filterMap fun p =>
    match p.1.getLast? with
    | some name => if p.1.dropLast = k then some (name, fileType p.2) else none
    | none => none

/-- What only a directory can answer. -/
def ifDir {α : Type} (k : Key) (a : α) : Except IoError α :=
  match t.find k with
  | .ok .dir => .ok a
  | .ok (.file _) => .error (osError .notADirectory)
  | .error err => .error err

/-- The descriptor of the tree's root. -/
def dir : HostDir where
  metadata k := (t.find k).map fun v => (fileType v, len v)
  symlinkMetadata k := (t.find k).map fileType
  openDir k := t.ifDir k ()
  readDir k := t.ifDir k (t.children k)
  openFile k :=
    match t.find k with
    | .ok (.file content) => .ok ⟨.file, content.length, content⟩
    | .ok .dir => .error (osError .isADirectory)
    | .error err => .error err
  size := t.nodes.entries.length

end HostTree

end Monty.Fs
