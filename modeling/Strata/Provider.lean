/-
# `Strata.Provider` — what every filesystem answers

A `Provider` is the interface between filesystems and those who use them: the
union that stacks them, the contract checks, the command line.  `F` names a
filesystem, `E` is a handle on one of its entries, `S` is an open byte stream,
and the calls run in a world `σ`.

A name handed to an entry is a path relative to that entry.  The path that an
entry reports is relative to the root of the filesystem that owns it.
-/
import Strata.Access
import Strata.Action
import Strata.Buffer
import Strata.Kind
import Strata.Timestamp

namespace Strata

/-- What can be done with an open byte stream. -/
structure StreamCalls (σ S : Type) where
  read : S → Nat → StateM σ (Except IoError Bytes × S)
  readAll : S → StateM σ (Except IoError Bytes × S)
  write : S → Bytes → StateM σ (Except IoError Nat × S)
  writeAll : S → Bytes → StateM σ (Except IoError Unit × S)
  seek : S → SeekTarget → StateM σ (Except IoError Nat × S)
  flush : S → StateM σ (Except IoError Unit × S)
  close : S → StateM σ Unit

/-- What can be asked of filesystems and of their entries. -/
structure Provider (σ F E S : Type) where
  /-- The root directory of a filesystem. -/
  root : F → E
  /-- What the filesystem may be asked to do. -/
  operations : F → σ → Operations
  /-- What the filesystem is called. -/
  name : F → σ → String
  /-- Where the entry is. -/
  path : E → String
  /-- What is there now. -/
  kind : E → σ → Kind
  /-- When it was last written. -/
  modified : E → σ → Timestamp
  /-- The entry at a path below the entry, if there is one. -/
  child : E → String → Action σ (Option E)
  /-- The entries directly below the entry. -/
  children : E → Action σ (List E)
  /-- How many entries there are directly below the entry. -/
  count : E → Action σ Nat
  /-- A byte stream on the entry. -/
  openStream : E → OpenMode → Action σ S
  /-- Removes what is at a path below the entry; answers whether something was there. -/
  delete : E → String → Action σ Bool
  /-- Makes an entry of a kind at a path below the entry, or finds it there. -/
  create : E → Kind → String → Action σ E
  /-- Moves the entry to a path of its filesystem. -/
  rename : E → String → Action σ Unit
  /-- The calls on its streams. -/
  streams : StreamCalls σ S

/-- The operations that a stream of this mode needs, if a filesystem of these operations has
them. -/
def OpenMode.checkAgainst (mode : OpenMode) (supported : Operations) (path : String) :
    Except Failure Operations :=
  let required := mode.required
  if required.isNone then
    .error (.unsupported s!"open mode {mode.describe} requests neither read nor write: {path}")
  else if supported.covers required then .ok required
  else
    .error (.unsupported
      s!"{path} needs {required.short} but filesystem supports {supported.short}")

namespace Provider

variable {σ F E S : Type} (P : Provider σ F E S)

/-- Whether the entry is the root of its filesystem. -/
def isRoot (e : E) : Bool := (P.path e).isEmpty

/-- The entry at a path from a filesystem's root.  A path that runs through a file, and an
entry of unknown kind, count as absent. -/
def resolve (f : F) (path : String) : Action σ (Option E) := do
  if path.isEmpty then return some (P.root f)
  match ← Action.attempt (P.child (P.root f) path) with
  | .ok (some e) => return if (P.kind e (← get)).exists? then some e else none
  | .ok none => return none
  | .error (.notADirectory _) => return none
  | .error failure => throw failure

/-- The directory at a path from a filesystem's root, if there is a directory. -/
def resolveDirectory (f : F) (path : String) : Action σ (Option E) := do
  match ← P.resolve f path with
  | some e => return if (P.kind e (← get)).isDirectory then some e else none
  | none => return none

/-- The contents of a file. -/
def readContents (e : E) : Action σ Bytes := do
  let s ← P.openStream e .reading
  let (result, s) ← P.streams.readAll s
  P.streams.close s
  Action.ofIo result

/-- Replaces the contents of a file. -/
def writeContents (e : E) (data : Bytes) : Action σ Unit := do
  let s ← P.openStream e .writing
  let (written, s) ← P.streams.writeAll s data
  let (result, s) ← match written with
    | .ok () => P.streams.flush s
    | .error error => pure (.error error, s)
  P.streams.close s
  Action.ofIo result

/-- An entry with its parts named. -/
def inspect (e : E) (s : σ) : String :=
  "Entry \x7b path: " ++ Text.quoted (P.path e) ++ ", type: " ++ (P.kind e s).label ++ " \x7d"

end Provider

end Strata
