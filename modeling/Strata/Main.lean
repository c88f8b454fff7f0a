/-
# `Strata.Main` — the program on the disk of the machine

The directories that a command line names are read into a `Disk`, the command
runs on it, and what it did there is done to the machine's disk after that, in
the same order.  A link is known by the place that it leads to, with no link on the way;
a link that leads nowhere, and an item that is neither directory nor
file, have no such place.
-/
import Strata.Shell.Program

namespace Strata.Machine

/-- The disk with an item that was there from the start. -/
def note (d : Disk) (loc : Location) (item : Item) : Disk :=
  if (d.item? loc).isSome then d else { d with items := d.items ++ [(loc, item)] }

/-- The disk with a file that was there from the start. -/
def noteFile (d : Disk) (loc : Location) (data : Bytes) : Disk :=
  note { d with contents := d.contents ++ [data] } loc (.file d.contents.length)

/-- The disk with the directories from `here` along the names. -/
def noteWay (d : Disk) (here : Location) : List String → Disk
  | [] => d
  | name :: rest => noteWay (note d (here ++ [name]) .directory) (here ++ [name]) rest

/-- Reads the item at a location; its directory has no link on the way.  Only the files whose names
pass `wanted` are read with their contents. -/
def readItem (wanted : String → Bool) (d : Disk) (loc : Location) : IO Disk := do
  let some name := loc.getLast? | return d
  if (d.item? loc).isSome then return d
  try
    let path := (← IO.FS.realPath (Disk.textOf loc.dropLast)) / name
    match (← path.symlinkMetadata).type with
    | .dir => return note d loc .directory
    | .file =>
      let data ← if wanted name then IO.FS.readBinFile path else pure .empty
      return noteFile d loc data.toList
    | .symlink =>
      let target ← try pure (← IO.FS.realPath path).toString catch _ => pure ""
      return note d loc (.link target)
    | .other => return note d loc (.link "")
  catch _ => return d

/-- Reads what is below a directory. -/
partial def readBelow (wanted : String → Bool) (d : Disk) (loc : Location) : IO Disk := do
  let names ← try
      pure ((← (← IO.FS.realPath (Disk.textOf loc)).readDir).map (·.fileName))
    catch _ => pure #[]
  let mut d := d
  for name in names do
    let there := loc ++ [name]
    d ← readItem wanted d there
    if d.item? there == some .directory then d ← readBelow wanted d there
  return d

/-- Reads the items along the names of a path, links followed; answers where it leads. -/
def follow (wanted : String → Bool) : Disk → Location → List String → IO (Disk × Location)
  | d, here, [] => return (d, here)
  | d, here, name :: rest => do
    if name.isEmpty || name == "." then follow wanted d here rest
    else if name == ".." then follow wanted d here.dropLast rest
    else
      let there := here ++ [name]
      let d ← readItem wanted d there
      match d.item? there with
      | some (.link target) =>
        let loc := Path.components target
        let d ← readItem wanted (noteWay d [] loc.dropLast) loc
        follow wanted d loc rest
      | _ => follow wanted d there rest

/-- Reads the items on the way to the end of a path text. -/
def readWay (wanted : String → Bool) (d : Disk) (text : String) : IO (Disk × Location) :=
  follow wanted d (if Disk.isAbsolute text then [] else d.working) (Disk.piecesOf text)

/-- Reads the places that links lead to. -/
def readTargets (d : Disk) : IO Disk :=
  d.items.foldlM (fun d (_, item) => do
    match item with
    | .link target => if target.isEmpty then return d else return (← readWay (fun _ => false) d target).1
    | _ => return d) d

/-- The files whose contents a command may read. -/
def readsFile (command : Shell.Command) (name : String) : Bool :=
  match command with
  | .cat path => Path.normalize (Path.lastName (Path.normalize path true)) true ==
      Path.normalize name true
  | _ => false

/-- Reads what an invocation may look at. -/
def readFor (i : Shell.Invocation) (d : Disk) : IO Disk := do
  let d ← match i.manifest with
    | some file => pure (← readWay (fun _ => true) d file).1
    | none => pure d
  match Shell.manifestOf d i with
  | .error _ => return d
  | .ok (m, base) =>
    let d ← (Manifest.rootsInLayers (m.settings.baseIn base) m.layers).foldlM (fun d root => do
      let (d, loc) ← readWay (fun _ => false) d root
      readBelow (readsFile i.command) d loc) d
    readTargets d

/-- Removes what is at a path and all below it, links not followed. -/
partial def removeAll (loc : Location) : IO Unit := do
  let some name := loc.getLast? | return
  let path := (← IO.FS.realPath (Disk.textOf loc.dropLast)) / name
  match (← path.symlinkMetadata).type with
  | .dir =>
    for entry in ← path.readDir do
      removeAll (loc ++ [entry.fileName])
    IO.FS.removeDir path
  | _ => IO.FS.removeFile path

/-- Does to the machine's disk what was done to a `Disk`. -/
def carryOut : Change → IO Unit
  | .made loc .directory => IO.FS.createDir (Disk.textOf loc)
  | .made loc (.file _) => IO.FS.writeBinFile (Disk.textOf loc) .empty
  | .made _ (.link _) => return ()
  | .filled loc data => IO.FS.writeBinFile (Disk.textOf loc) ⟨data.toArray⟩
  | .removed loc => removeAll loc
  | .moved source target => IO.FS.rename (Disk.textOf source) (Disk.textOf target)

/-- Runs the program and answers its exit code. -/
def run (args : List String) : IO UInt32 := do
  let working := Path.components (← IO.FS.realPath (← IO.currentDir)).toString
  let start := noteWay { working } [] working
  let (d, input) ← match Shell.readCommandLine args with
    | .ok i =>
      let input ← match i.command with
        | .write _ => (← IO.getStdin).readBinToEnd
        | _ => pure .empty
      pure (← readFor i start, input)
    | .error _ => pure (start, .empty)
  let (outcome, d) := Shell.run args input.toList d
  let output ← IO.getStdout
  output.write ⟨outcome.output.toArray⟩
  output.putStr outcome.help
  output.flush
  d.changes.reverse.forM carryOut
  (← IO.getStderr).putStr outcome.errors
  return UInt32.ofNat outcome.code

end Strata.Machine

/-- The program. -/
def main (args : List String) : IO UInt32 := Strata.Machine.run args
