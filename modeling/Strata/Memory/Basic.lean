/-
# `Strata.Memory.Basic` — filesystems kept in memory

A memory filesystem has a name, the operations that it allows, and a tree.  Its
entries are paths, and a call on an entry is an action on the filesystem: what a
call may do is checked against the allowed operations before anything else.
`addDirectory` and `addFile` fill a filesystem without that check.

Listings are in the order of the paths.  A stream that writes commits to the
file at its path, if there still is one: a deleted file does not come back.
-/
import Strata.Lookup
import Strata.Memory.Tree
import Strata.Provider

namespace Strata

/-- A filesystem kept in memory. -/
structure Memory where
  name : String := "memory"
  operations : Operations := .all
  tree : Memory.Tree := .root
  deriving DecidableEq, Repr

namespace Memory

/-! ## Filling -/

/-- Runs an action on the tree. -/
def onTree {α : Type} (x : Action Tree α) : Action Memory α :=
  x.zoom (·.tree) fun t m => { m with tree := t }

/-- Makes a directory and the directories on the way to it. -/
def addDirectory (now : Timestamp) (path : String) : Action Memory Unit :=
  onTree (Tree.ensure now (Path.normalize path false) .directory)

/-- Puts a file in its place, whatever it held before, and makes the directories on the way. -/
def addFile (now : Timestamp) (path : String) (data : Bytes) (modified : Timestamp) :
    Action Memory Unit := do
  let target := Path.normalize path false
  if target.isEmpty then throw (.invalidPath "cannot replace the root with a file")
  onTree do
    Tree.ensure now target .file
    modify (·.put target (.file data modified))

/-- The number of nodes, the root not counted. -/
def size (m : Memory) : Nat := m.tree.nodes.size - 1

/-! ## Entries -/

/-- What is at a path. -/
def kind (m : Memory) (path : String) : Kind := m.tree.kind path

/-- When the node at a path was last changed. -/
def modified (m : Memory) (path : String) : Timestamp :=
  match m.tree.find? path with
  | some node => node.modified
  | none => .epoch

/-- Refuses a call that needs operations the filesystem does not allow. -/
def require (m : Memory) (ops : Operations) (what path : String) : Except Failure Unit :=
  if m.operations.covers ops then .ok ()
  else .error (.unsupported s!"{m.name} does not support {what}: {path}")

/-- Refuses a path that is not a directory. -/
def requireDirectory (m : Memory) (path : String) : Except Failure Unit :=
  if (m.kind path).isDirectory then .ok () else .error (.notADirectory path)

/-- The path that a name leads to. -/
def child (m : Memory) (path name : String) : Except Failure (Option String) :=
  Lookup.child (fun p => .ok (m.kind p)) path name

/-- The paths directly below a directory. -/
def children (m : Memory) (path : String) : Except Failure (List String) := do
  m.require (.only .read) "listing" path
  m.requireDirectory path
  return m.tree.childPaths path

/-- Opens the file at a path.  A mode that writes without reading empties the file at once. -/
def openBuffer (now : Timestamp) (path : String) (mode : OpenMode) : Action Memory Buffer := do
  let m ← get
  let _ ← Action.ofExcept (mode.checkAgainst m.operations path)
  if mode.mapped then
    throw (.unsupported s!"memory-mapped access is not available: {path}")
  match m.tree.find? path with
  | some (.file data _) =>
    if mode.truncates then
      set { m with tree := m.tree.put path (.file [] now) }
      return .writer []
    else if mode.write then return .writer data
    else return .reader data
  | _ => throw (.notAFile path)

/-- Takes the contents of a stream over into the file at its path, if there is one. -/
def commit (now : Timestamp) (path : String) (data : Bytes) :
    StateM Memory (Except IoError Unit) := fun m =>
  match m.tree.find? path with
  | some (.file _ _) => (.ok (), { m with tree := m.tree.put path (.file data now) })
  | _ => (.error (.stated .notFound s!"file vanished before commit: {path}"), m)

/-- Removes what a name leads to and all below it. -/
def delete (path name : String) : Action Memory Bool := do
  let m ← get
  Action.ofExcept (m.require (.only .delete) "deleting" path)
  Action.ofExcept (m.requireDirectory path)
  let relative := Path.normalize name false
  if relative.isEmpty then return false
  let target := Path.join path relative
  if (m.tree.find? target).isNone then return false
  set { m with tree := m.tree.removeWithin target }
  return true

/-- Makes an entry, or finds one of the same kind in its place. -/
def create (now : Timestamp) (path : String) (kind : Kind) (name : String) :
    Action Memory String := do
  let m ← get
  Action.ofExcept (m.require (.only .create) "creating" path)
  unless kind.isCreatable do throw (.unusableKind kind.name)
  Action.ofExcept (m.requireDirectory path)
  let relative := Path.normalize name false
  if relative.isEmpty then throw (.invalidPath "empty entry name")
  let target := Path.join path relative
  onTree (Tree.ensure now target kind)
  return target

/-- Moves a node and all below it to a path where nothing is. -/
def rename (now : Timestamp) (path target : String) : Action Memory Unit := do
  let m ← get
  Action.ofExcept (m.require (.only .delete ∪ .only .create) "renaming" path)
  if path.isEmpty then throw (.invalidPath "cannot rename the root")
  let dest := Path.normalize target false
  if dest.isEmpty || Path.liesWithin dest path then
    throw (.invalidPath s!"cannot move {path} to {Text.quoted dest}")
  unless (m.kind path).exists? do throw (.backend s!"no such entry: {path}")
  if (m.kind dest).exists? then throw (.conflict dest)
  match Path.parent? dest with
  | some parent => onTree (Tree.ensure now parent .directory)
  | none => pure ()
  modify fun m => { m with tree := m.tree.moveWithin path dest }

end Memory

end Strata
