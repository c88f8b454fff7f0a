/-
# `Strata.Host.Basic` — filesystems over a directory of the disk

A host filesystem serves the directory tree below its root and nothing else.  A
path is checked before the disk sees it: no component may be a dot or two dots,
and where the path leads somewhere, links followed, that place must be the root
or lie below it.

A call on an entry is an action on the disk.  What it may do is checked against
the allowed operations before anything else.
-/
import Strata.Disk.OpenFile
import Strata.Lookup
import Strata.Provider

namespace Strata

/-- A filesystem over a directory of the disk. -/
structure Host where
  root : String
  operations : Operations := .all
  deriving DecidableEq, Repr

namespace Host

/-- The filesystem of a directory, with its canonical path where it has one. -/
def ofRoot (d : Disk) (root : String) : Host :=
  match d.canonical root with
  | .ok canonical => { root := canonical }
  | .error _ => { root }

/-- What the filesystem is called. -/
def name (h : Host) : String := "local:" ++ h.root

/-! ## Paths on the disk -/

/-- The names along a path text. -/
def namesAlong (text : String) : List String := (Path.components text).filter (· != ".")

/-- Whether a path text is the root or lies below it. -/
def isUnder (text root : String) : Bool := (namesAlong root).isPrefixOf (namesAlong text)

/-- Refuses a path with a component that is not a name. -/
def checkComponents (path : String) : List String → Except Failure Unit
  | [] => .ok ()
  | c :: cs =>
    if c = ".." then .error (.escapesRoot path)
    else if c = "." then .error (.invalidPath path)
    else checkComponents path cs

/-- The path text on the disk for a path of the filesystem. -/
def resolve (h : Host) (d : Disk) (path : String) : Except Failure String :=
  if path.isEmpty then .ok h.root
  else do
    checkComponents path (Path.components path)
    let full := Disk.below h.root path
    match d.canonical full with
    | .error _ => return full
    | .ok canonical =>
      if isUnder canonical h.root then return full
      else throw (.escapesRoot s!"{canonical} is not under {h.root}")

/-- What is at a path, or why it cannot be looked at. -/
def kindOf (h : Host) (d : Disk) (path : String) : Except Failure Kind := do
  return d.kindAt (← h.resolve d path)

/-- What is at a path. -/
def kind (h : Host) (d : Disk) (path : String) : Kind :=
  match h.kindOf d path with
  | .ok k => k
  | .error _ => .unknown

/-- The modification time of what is at a path. -/
def modified (h : Host) (d : Disk) (path : String) : Timestamp :=
  match h.resolve d path with
  | .error _ => .epoch
  | .ok full =>
    match d.stat full with
    | .ok _ => d.clock
    | .error _ => .epoch

/-! ## Entries -/

/-- Refuses a call that needs operations the filesystem does not allow. -/
def require (h : Host) (ops : Operations) (what path : String) : Except Failure Unit :=
  if h.operations.covers ops then .ok ()
  else
    .error (.unsupported
      s!"{what} needs {ops.short} but {h.root} allows {h.operations.short}: {path}")

/-- The path text of a directory. -/
def directory (h : Host) (d : Disk) (path : String) : Except Failure String := do
  let full ← h.resolve d path
  if (d.kindAt full).isDirectory then return full else throw (.notADirectory path)

/-- The path that a name leads to. -/
def child (h : Host) (d : Disk) (path name : String) : Except Failure (Option String) :=
  Lookup.child (h.kindOf d) path name

/-- A result of the disk as a result of the call. -/
def ofDisk {α : Type} : Except IoError α → Except Failure α
  | .ok a => .ok a
  | .error e => .error (.io e)

/-- The paths directly below a directory, in the order of the names. -/
def children (h : Host) (d : Disk) (path : String) : Except Failure (List String) := do
  h.require (.only .read) "listing" path
  let full ← h.directory d path
  let names ← ofDisk (d.names full)
  return (names.mergeSort fun a b => a ≤ b).map (Path.join path)

/-- Opens the file at a path. -/
def openFile (h : Host) (path : String) (mode : OpenMode) : Action Disk Disk.OpenFile := do
  let _ ← Action.ofExcept (mode.checkAgainst h.operations path)
  let d ← get
  let full ← Action.ofExcept (h.resolve d path)
  unless (d.kindAt full).isFile do throw (.notAFile path)
  let (number, d) ← Action.ofIo (d.openFile full mode.truncates)
  set d
  return { number, readable := mode.read, writable := mode.write }

/-- Removes what a name leads to and all below it. -/
def delete (h : Host) (path name : String) : Action Disk Bool := do
  let d ← get
  Action.ofExcept (h.require (.only .delete) "deleting" path)
  let _ ← Action.ofExcept (h.directory d path)
  let relative := Path.normalize name false
  if relative.isEmpty then return false
  let target ← Action.ofExcept (h.resolve d (Path.join path relative))
  match d.linkStat target with
  | .error (.system .noEntry) => return false
  | .error e => throw (.io e)
  | .ok .directory => set (← Action.ofIo (d.removeTree target))
  | .ok _ => set (← Action.ofIo (d.removeFile target))
  return true

/-- Goes along the components from `here` and makes what is missing: `kind` at the target, which
is told by its length, and directories on the way. -/
def createFrom (h : Host) (target : String) (kind : Kind) :
    String → List String → Action Disk Unit
  | _, [] => pure ()
  | here, c :: cs => do
    let here := Path.join here c
    let wanted := if here.utf8ByteSize = target.utf8ByteSize then kind else .directory
    let d ← get
    let full ← Action.ofExcept (h.resolve d here)
    match d.kindAt full with
    | .unknown =>
      if wanted.isDirectory then set (← Action.ofIo (d.makeDirectory full))
      else set (← Action.ofIo (d.makeFile full))
    | found => unless found == wanted do throw (.conflict here)
    createFrom h target kind here cs

/-- Makes an entry, or finds one of the same kind in its place. -/
def create (h : Host) (path : String) (kind : Kind) (name : String) : Action Disk String := do
  Action.ofExcept (h.require (.only .create) "creating" path)
  unless kind.isCreatable do throw (.unusableKind kind.name)
  let _ ← Action.ofExcept (h.directory (← get) path)
  let relative := Path.normalize name false
  if relative.isEmpty then throw (.invalidPath "empty entry name")
  let target := Path.join path relative
  h.createFrom target kind path (Path.components relative)
  return target

/-- Moves an entry and all below it to a path where nothing is. -/
def rename (h : Host) (path target : String) : Action Disk Unit := do
  Action.ofExcept (h.require (.only .delete ∪ .only .create) "renaming" path)
  if path.isEmpty then throw (.invalidPath "cannot rename the root")
  let dest := Path.normalize target false
  if dest.isEmpty || Path.liesWithin dest path then
    throw (.invalidPath s!"cannot move {path} to {Text.quoted dest}")
  let d ← get
  let source ← Action.ofExcept (h.resolve d path)
  unless (d.kindAt source).exists? do throw (.backend s!"no such entry: {path}")
  let goal ← Action.ofExcept (h.resolve d dest)
  if (d.kindAt goal).exists? then throw (.conflict dest)
  let (made, d) := d.makeDirectories (Path.parentOrRoot goal)
  set d
  Action.ofIo made
  set (← Action.ofIo (d.rename source goal))

end Host

end Strata
