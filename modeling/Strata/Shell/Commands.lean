/-
# `Strata.Shell.Commands` — what the commands do to a union

A command runs in the world of a union and its layers, and prints bytes as it
goes.  What was printed before a failure stays printed.
-/
import Strata.Overlay.Filesystem
import Strata.Shell.Arguments

namespace Strata.Shell

variable {σ F E S α : Type} (P : Provider σ F E S)

/-- A command at work: it fails with a text and the texts of what caused it, and it prints. -/
abbrev Run (σ F E : Type) := ExceptT (List String) (StateM ((σ × Overlay F E) × Bytes))

/-- A call on the union. -/
def call (x : Overlay.Call σ F E α) : Run σ F E α := ExceptT.mk fun (w, out) =>
  match x.run.run w with
  | (.ok a, w) => (.ok a, (w, out))
  | (.error f, w) => (.error f.causes, (w, out))

/-- A step on a stream of a layer. -/
def stream (x : StateM σ α) : Run σ F E α := ExceptT.mk fun ((s, o), out) =>
  let (a, s) := x.run s
  (.ok a, ((s, o), out))

/-- Prints bytes. -/
def print (data : Bytes) : Run σ F E Unit := modify fun (w, out) => (w, out ++ data)

/-- Prints a line. -/
def printLine (line : String) : Run σ F E Unit := print (Bytes.ofText (line ++ "\n"))

/-- What is at an entry now. -/
def kindOf (node : Overlay.Node E) : Run σ F E Kind :=
  return Overlay.kind P node (← get).1.1

/-- The union as a filesystem. -/
abbrev union : Provider (σ × Overlay F E) Unit (Overlay.Node E) S := Overlay.provider P

/-- The entry at a path, which must be there. -/
def entryAt (path : String) : Run σ F E (Overlay.Node E) := do
  match ← call (Overlay.entry P path) with
  | some node => return node
  | none => throw [s!"{path}: no such file or directory"]

/-- The sign of a kind in a long listing. -/
def marker : Kind → String
  | .directory => "d"
  | .file => "-"
  | .unknown => "?"

/-- The text with blanks after it, up to a width in characters. -/
def padded (width : Nat) (text : String) : String :=
  text ++ String.ofList (List.replicate (width - text.length) ' ')

/-- The names of the layers. -/
def layerNames : Run σ F E (List String) := do
  let ((s, o), _) ← get
  return o.layers.map fun f => P.name f s

/-- Prints one entry of a directory; a long line shows what it is and which layer it is from. -/
def listEntry (names : List String) (long : Bool) (node : Overlay.Node E) :
    Run σ F E Unit := do
  let name := Path.lastName node.path
  if long then
    let found ← call (Overlay.entry P node.path)
    let layer := ((found.bind (·.layer?)).bind fun i => names[i]?).getD ""
    printLine s!"{marker (← kindOf P node)} {padded 32 name} {layer}"
  else printLine name

/-- Prints the entries of a directory, or the path of a file. -/
def list (path : String) (long : Bool) : Run σ F E Unit := do
  let node ← entryAt P path
  if (← kindOf P node).isFile then printLine node.path
  else
    let names ← layerNames P
    (← call (Overlay.children P node)).forM (listEntry P names long)

/-- Prints what is below a directory, at most so many levels down, behind an indentation. -/
def treeBelow : Nat → String → Overlay.Node E → Run σ F E Unit
  | 0, _, _ => return ()
  | depth + 1, indent, node => do
    if (← kindOf P node).isDirectory then
      let nodes ← call (Overlay.children P node)
      nodes.zipIdx.forM fun (c, i) => do
        let isLast := i + 1 == nodes.length
        let branch := if isLast then "└── " else "├── "
        let suffix := if (← kindOf P c).isDirectory then "/" else ""
        printLine (indent ++ branch ++ Path.lastName c.path ++ suffix)
        treeBelow depth (indent ++ (if isLast then "    " else "│   ")) c

/-- Replaces the contents of a file, which is made if it is not there. -/
def write (path : String) (data : Bytes) : Run σ F E Unit := do
  let node ← match ← call (Overlay.entry P path) with
    | some node => pure node
    | none => call (Overlay.create P .root .file path)
  let s ← call (Overlay.openStream P node .writing)
  let (written, s) ← stream (P.streams.writeAll s data)
  let (result, s) ← match written with
    | .ok () => stream (P.streams.flush s)
    | .error e => pure (.error e, s)
  stream (P.streams.close s)
  match result with
  | .ok () => return ()
  | .error e => throw [e.message]

/-- Carries out a command; `input` is what it may read. -/
def execute (input : Bytes) : Command → Run σ F E Unit
  | .ls path long => list P path long
  | .tree path depth => do
    let node ← entryAt P path
    printLine (if node.path.isEmpty then "/" else node.path)
    treeBelow P depth "" node
  | .cat path => do
    let node ← entryAt P path
    print (← call ((union P).readContents node))
  | .write path => write P path input
  | .mkdir path => do
    let _ ← call (Overlay.create P .root .directory path)
  | .touch path => do
    let _ ← call (Overlay.create P .root .file path)
  | .rm path => do
    unless ← call (Overlay.delete P .root path) do
      throw [s!"{path}: nothing was removed"]
  | .mv source target => do
    call (Overlay.rename P (← entryAt P source) target)
  | .caps => do
    let ((s, o), _) ← get
    printLine s!"union: {(Overlay.operations P o s).short}"
    (← layerNames P).zipIdx.forM fun (name, i) => printLine s!"{i}: {name}"

end Strata.Shell
