/-
# `Strata.Disk.Basic` — a disk with directories, files and symbolic links

A disk is a table from locations to items.  A location is the list of names that
leads from the top of the disk to the item; the top is always a directory.  A
file is a number into the table of contents, so that a stream stays on its file
when the file is renamed or removed.

`locate` follows a path text as Linux does: links on the way are followed by
every call, a link at the end by some; at most 40 of them.  It answers where the
path leads, whether or not something is there.
-/
import Strata.Bytes
import Strata.Failure
import Strata.Kind
import Strata.Path
import Strata.Timestamp

namespace Strata

/-- The names from the top of the disk to an item. -/
abbrev Location := List String

/-- What is at a location. -/
inductive Item where
  | directory
  | file (number : Nat)
  | link (target : String)
  deriving DecidableEq, Repr

/-- One thing that was done to a disk. -/
inductive Change where
  | made (loc : Location) (item : Item)
  | filled (loc : Location) (data : Bytes)
  | removed (loc : Location)
  | moved (source target : Location)
  deriving DecidableEq, Repr

/-- A disk, where relative paths start on it, and what was done to it, the latest first. -/
structure Disk where
  items : List (Location × Item) := []
  contents : List Bytes := []
  working : Location := []
  clock : Timestamp := .epoch
  changes : List Change := []
  deriving DecidableEq, Repr

namespace Disk

/-! ## Items -/

/-- The item at a location. -/
def item? (d : Disk) (loc : Location) : Option Item :=
  if loc.isEmpty then some .directory else d.items.lookup loc

/-- The disk with an item at a location where nothing was. -/
def add (d : Disk) (loc : Location) (item : Item) : Disk :=
  { d with items := d.items ++ [(loc, item)], changes := .made loc item :: d.changes }

/-- The disk without the location and all below it. -/
def removeBelow (d : Disk) (loc : Location) : Disk :=
  { d with
    items := d.items.filter fun i => !loc.isPrefixOf i.1
    changes := .removed loc :: d.changes }

/-- The disk with the location, and all below it, at another one. -/
def moveBelow (d : Disk) (source target : Location) : Disk :=
  { d with
    items := d.items.map fun i =>
      if source.isPrefixOf i.1 then (target ++ i.1.drop source.length, i.2) else i
    changes := .moved source target :: d.changes }

/-- The names in the directory at a location, in no order that means anything. -/
def namesIn (d : Disk) (loc : Location) : List String :=
  d.items.filterMap fun i =>
    match i.1.drop loc.length with
    | [name] => if loc.isPrefixOf i.1 then some name else none
    | _ => none

/-- The contents of a file by its number. -/
def contentsOf (d : Disk) (number : Nat) : Bytes := d.contents[number]?.getD []

/-- Where a file is by its number, if it was not removed. -/
def place? (d : Disk) (number : Nat) : Option Location :=
  (d.items.find? fun i => i.2 == .file number).map (·.1)

/-- The disk with other contents of a file. -/
def setContents (d : Disk) (number : Nat) (data : Bytes) : Disk :=
  { d with
    contents := d.contents.set number data
    changes :=
      match d.place? number with
      | some loc => .filled loc data :: d.changes
      | none => d.changes }

/-- The disk with a new file at a location where nothing was. -/
def addFile (d : Disk) (loc : Location) (data : Bytes) : Disk :=
  { d with contents := d.contents ++ [[]] }.add loc (.file d.contents.length)
    |>.setContents d.contents.length data

/-! ## Following a path -/

/-- The text of a location. -/
def textOf (loc : Location) : String := "/" ++ "/".intercalate loc

/-- The pieces of a path text between its slashes, empty ones included. -/
def piecesOf (text : String) : List String := (Path.pieces text.toList).map String.ofList

/-- Whether a path text starts at the top of the disk. -/
def isAbsolute (text : String) : Bool := text.toList.head? == some '/'

/-- A path text below another one. -/
def below (base text : String) : String :=
  if isAbsolute text || base.isEmpty then text
  else if base.toList.getLast? == some '/' then base ++ text
  else base ++ "/" ++ text

/-- The number of bytes in the longest name. -/
def nameLimit : Nat := 255

/-- One more than the number of bytes in the longest path text. -/
def pathLimit : Nat := 4096

/-- The most links that one path may lead through. -/
def linkLimit : Nat := 40

/-- How far a path is followed before a link turns it. -/
inductive Reach where
  | at (loc : Location)
  | turn (directory : Location) (target : String) (rest : List String)

/-- Follows names from a directory up to the end or to the next link.  The last name need not be
there. -/
def advance (d : Disk) (followLast : Bool) : Location → List String → Except SystemError Reach
  | here, [] => .ok (.at here)
  | here, name :: rest =>
    if name = "" ∨ name = "." then advance d followLast here rest
    else if name = ".." then advance d followLast here.dropLast rest
    else if nameLimit < name.utf8ByteSize then .error .nameTooLong
    else
      let next := here ++ [name]
      match d.item? next with
      | none => if rest.isEmpty then .ok (.at next) else .error .noEntry
      | some .directory => advance d followLast next rest
      | some (.file _) => if rest.isEmpty then .ok (.at next) else .error .notADirectory
      | some (.link target) =>
        if rest.isEmpty && !followLast then .ok (.at next) else .ok (.turn here target rest)

/-- Follows names from a directory through at most so many links, less one. -/
def locateFrom (d : Disk) (followLast : Bool) :
    Nat → Location → List String → Except SystemError Location
  | 0, _, _ => .error .tooManyLinks
  | links + 1, here, names => do
    match ← d.advance followLast here names with
    | .at loc => return loc
    | .turn directory target rest =>
      if target.isEmpty then throw .noEntry
      locateFrom d followLast links (if isAbsolute target then [] else directory)
        (piecesOf target ++ rest)

/-- Where a path text leads. -/
def locate (d : Disk) (followLast : Bool) (text : String) : Except IoError Location :=
  if text.toList.contains '\x00' then
    .error (.stated .invalidInput "file name contained an unexpected NUL byte")
  else if text.isEmpty then .error (.system .noEntry)
  else if pathLimit ≤ text.utf8ByteSize then .error (.system .nameTooLong)
  else
    match d.locateFrom followLast (linkLimit + 1) (if isAbsolute text then [] else d.working)
        (piecesOf text) with
    | .ok loc => .ok loc
    | .error e => .error (.system e)

/-! ## First facts -/

theorem item?_nil (d : Disk) : d.item? [] = some .directory := rfl

theorem item?_add {d : Disk} {loc q : Location} {item : Item} (h : d.items.lookup loc = none)
    (hl : loc ≠ []) : (d.add loc item).item? q = if q = loc then some item else d.item? q := by
  by_cases hq : q = []
  · subst hq
    simp [item?, Ne.symm hl]
  · have he : q.isEmpty = false := by simpa using hq
    simp only [item?, he, add, List.lookup_append]
    by_cases hqloc : q = loc
    · subst hqloc
      simp [h]
    · have : (q == loc) = false := by simpa using hqloc
      simp [List.lookup_cons, this, hqloc]

end Disk

end Strata
