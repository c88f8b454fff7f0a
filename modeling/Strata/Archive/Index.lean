/-
# `Strata.Archive.Index` — from a flat list of records to a tree

An archive is a flat list of records.  The index gives each record its place in
a tree, adds the directories that are only implied by the paths, and keeps the
order in which paths first occurred.  A record whose path is the root, or whose
kind cannot exist, is skipped.  An explicit directory record may take the place
of a directory that is already there; any other second use of a path makes the
archive corrupt, as does a file that is also the directory of another record.
-/
import Strata.Failure
import Strata.Kind
import Strata.Path
import Strata.Timestamp

namespace Strata.Archive

/-- One entry of the container, as its reader lists it. -/
structure Record where
  path : String
  kind : Kind
  size : Nat
  crc : Option UInt32
  modified : Option Timestamp
  deriving DecidableEq, Repr

/-- One place of the tree.  A directory that is only implied has no record. -/
structure Node where
  kind : Kind
  record : Option Nat
  crc : Option UInt32
  modified : Timestamp
  deriving DecidableEq, Repr

namespace Node

/-- A directory that a path implies. -/
def implied : Node := ⟨.directory, none, none, .epoch⟩

/-- The node of the record at a position.  A record of no bytes has nothing to verify. -/
def ofRecord (position : Nat) (r : Record) : Node :=
  ⟨r.kind, some position, if r.size = 0 then none else r.crc, r.modified.getD .epoch⟩

end Node

/-- The nodes by path, in the order in which the paths first occurred. -/
structure Index where
  nodes : List (String × Node)
  deriving DecidableEq, Repr

namespace Index

/-- The index of no records. -/
def empty : Index := ⟨[]⟩

/-- The node at a path. -/
def find? (ix : Index) (path : String) : Option Node := ix.nodes.lookup path

/-- The index with one more path at its end. -/
def push (ix : Index) (path : String) (node : Node) : Index := ⟨ix.nodes ++ [(path, node)]⟩

/-- The index with another node at a path that it holds. -/
def replace (ix : Index) (path : String) (node : Node) : Index :=
  ⟨ix.nodes.map fun n => if n.1 = path then (path, node) else n⟩

/-- The paths, in order. -/
def paths (ix : Index) : List String := ix.nodes.map (·.1)

/-- What makes an archive of this name unusable. -/
def corrupt (name what : String) : Failure := .backend s!"corrupt archive {name}: {what}"

/-- Adds the directories from `here` along the components that are not there yet. -/
def implyFrom (name : String) : String → List String → Index → Except Failure Index
  | _, [], ix => .ok ix
  | here, c :: cs, ix =>
    let here := Path.join here c
    match ix.find? here with
    | none => implyFrom name here cs (ix.push here .implied)
    | some node =>
      if node.kind.isDirectory then implyFrom name here cs ix
      else .error (corrupt name s!"{here} is both a file and a directory")

/-- Adds the directories on the way to a path. -/
def implyParents (name path : String) (ix : Index) : Except Failure Index :=
  match Path.parent? path with
  | some parent => implyFrom name "" (Path.components parent) ix
  | none => .ok ix

/-- Puts a record's node at its path. -/
def place (name path : String) (node : Node) (ix : Index) : Except Failure Index :=
  match ix.find? path with
  | none => .ok (ix.push path node)
  | some there =>
    if there.kind.isDirectory && node.kind.isDirectory then .ok (ix.replace path node)
    else .error (corrupt name s!"duplicate entry {path}")

/-- Whether the record has a place in the tree. -/
def isUsable (r : Record) : Bool :=
  !(Path.normalize r.path false).isEmpty && r.kind.isCreatable

/-- Adds the record at a position. -/
def add (name : String) (ix : Index) (position : Nat) (r : Record) : Except Failure Index := do
  if isUsable r then
    let path := Path.normalize r.path false
    place name path (.ofRecord position r) (← implyParents name path ix)
  else return ix

/-- Adds the records from a position on. -/
def addFrom (name : String) : Nat → List Record → Index → Except Failure Index
  | _, [], ix => .ok ix
  | position, r :: rs, ix => do addFrom name (position + 1) rs (← add name ix position r)

/-- The index of the records of an archive. -/
def ofRecords (name : String) (records : List Record) : Except Failure Index :=
  addFrom name 0 records empty

/-- What is at a path; the root is always there. -/
def kind (ix : Index) (path : String) : Kind :=
  if path.isEmpty then .directory
  else
    match ix.find? path with
    | some node => node.kind
    | none => .unknown

/-- The paths directly below a directory, in order. -/
def childPaths (ix : Index) (path : String) : List String :=
  ix.paths.filter fun p => Path.parentOrRoot p == path

end Index

end Strata.Archive
