/-
# `Strata.Disk.Calls` — the calls on a disk

Looking at an item, listing, making, opening, removing and renaming, each with
the errors that Linux gives.  Calls that make or remove a name do not follow a
link in the last place: a link there is what they find.
-/
import Strata.Disk.Basic

namespace Strata.Disk

variable (d : Disk)

/-! ## Looking -/

/-- The item at the end of a path, links followed. -/
def stat (text : String) : Except IoError Item := do
  match d.item? (← d.locate true text) with
  | some item => return item
  | none => throw (.system .noEntry)

/-- The item at the end of a path; a link there is not followed. -/
def linkStat (text : String) : Except IoError Item := do
  match d.item? (← d.locate false text) with
  | some item => return item
  | none => throw (.system .noEntry)

/-- What a path leads to. -/
def kindAt (text : String) : Kind :=
  match d.stat text with
  | .ok .directory => .directory
  | .ok (.file _) => .file
  | _ => .unknown

/-- The path text, without links and dots, of what a path leads to. -/
def canonical (text : String) : Except IoError String := do
  let loc ← d.locate true text
  match d.item? loc with
  | some _ => return textOf loc
  | none => throw (.system .noEntry)

/-- The names in a directory. -/
def names (text : String) : Except IoError (List String) := do
  let loc ← d.locate true text
  match d.item? loc with
  | some .directory => return d.namesIn loc
  | some _ => throw (.system .notADirectory)
  | none => throw (.system .noEntry)

/-- The contents of a file. -/
def readFile (text : String) : Except IoError Bytes := do
  match ← d.stat text with
  | .file number => return d.contentsOf number
  | _ => throw (.system .isADirectory)

/-! ## Making -/

/-- Makes a directory. -/
def makeDirectory (text : String) : Except IoError Disk := do
  let loc ← d.locate false text
  match d.item? loc with
  | some _ => throw (.system .alreadyThere)
  | none => return d.add loc .directory

/-- Makes an empty file where nothing is. -/
def makeFile (text : String) : Except IoError Disk := do
  let loc ← d.locate false text
  match d.item? loc with
  | some _ => throw (.system .alreadyThere)
  | none => return d.addFile loc []

/-- Makes a link. -/
def makeLink (target text : String) : Except IoError Disk := do
  let loc ← d.locate false text
  match d.item? loc with
  | some _ => throw (.system .alreadyThere)
  | none => return d.add loc (.link target)

/-- Writes a file, new or not. -/
def writeFile (text : String) (data : Bytes) : Except IoError Disk := do
  let loc ← d.locate true text
  match d.item? loc with
  | some (.file number) => return d.setContents number data
  | some _ => throw (.system .isADirectory)
  | none => return d.addFile loc data

/-- Makes a directory, if there is none at the path. -/
def makeDirectoryIfNone (text : String) (d : Disk) : Except IoError Unit × Disk :=
  match d.makeDirectory text with
  | .ok d => (.ok (), d)
  | .error e => if (d.kindAt text).isDirectory then (.ok (), d) else (.error e, d)

/-- Makes the directory if it is not there, after its parents, up to so many of them.  The empty
text stands for a directory that is always there. -/
def makeDirectoriesUp : Nat → String → Disk → Except IoError Unit × Disk
  | 0, _, d => (.ok (), d)
  | parents + 1, text, d =>
    if text.isEmpty then (.ok (), d)
    else
      match d.makeDirectory text with
      | .ok d => (.ok (), d)
      | .error (.system .noEntry) =>
        match makeDirectoriesUp parents (Path.parentOrRoot text) d with
        | (.error e, d) => (.error e, d)
        | (.ok (), d) => makeDirectoryIfNone text d
      | .error e => if (d.kindAt text).isDirectory then (.ok (), d) else (.error e, d)

/-- Makes a directory and its parents, those that are not there. -/
def makeDirectories (text : String) : Except IoError Unit × Disk :=
  makeDirectoriesUp (piecesOf text).length text d

/-! ## Opening -/

/-- The number of the file at a path, which loses its contents if `truncate` is set. -/
def openFile (text : String) (truncate : Bool) : Except IoError (Nat × Disk) := do
  match ← d.stat text with
  | .file number => return (number, if truncate then d.setContents number [] else d)
  | _ => throw (.system .isADirectory)

/-! ## Removing and renaming -/

/-- Removes a file or a link. -/
def removeFile (text : String) : Except IoError Disk := do
  let loc ← d.locate false text
  match d.item? loc with
  | some .directory => throw (.system .isADirectory)
  | some _ => return d.removeBelow loc
  | none => throw (.system .noEntry)

/-- Removes a directory and all below it. -/
def removeTree (text : String) : Except IoError Disk := do
  let loc ← d.locate false text
  match d.item? loc with
  | some .directory => return d.removeBelow loc
  | some _ => throw (.system .notADirectory)
  | none => throw (.system .noEntry)

/-- Whether something of this kind may be renamed onto what is at a location. -/
def mayReplace (source : Item) (target : Location) : Except SystemError Unit :=
  match source, d.item? target with
  | _, none => .ok ()
  | .directory, some .directory =>
    if (d.namesIn target).isEmpty then .ok () else .error .notEmpty
  | .directory, some _ => .error .notADirectory
  | _, some .directory => .error .isADirectory
  | _, some _ => .ok ()

/-- Renames an item, which takes the place of what is at the other path. -/
def rename (source target : String) : Except IoError Disk := do
  let origin ← d.locate false source
  let goal ← d.locate false target
  match d.item? origin with
  | none => throw (.system .noEntry)
  | some item =>
    if origin == goal then return d
    if origin.isPrefixOf goal then throw (.system .invalid)
    if goal.isPrefixOf origin then throw (.system .notEmpty)
    match d.mayReplace item goal with
    | .error e => throw (.system e)
    | .ok () =>
      let d := if (d.item? goal).isSome then d.removeBelow goal else d
      return d.moveBelow origin goal

end Strata.Disk
