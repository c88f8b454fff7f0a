/-
# `Strata.Manifest.Build` — from a manifest to a union in a store

Layers are made first to last, and the first problem ends the building.  A
relative root counts from the base directory of the innermost union that has one;
for a manifest that was loaded this is the directory of its file.  What a manifest
says about the operations of a layer that is a union is checked and then not used:
such a layer allows what its own layers allow.
-/
import Strata.Manifest.Operations
import Strata.Manifest.Reader
import Strata.Store.Filesystems

namespace Strata.Manifest

/-- A step of setting up filesystems in a store. -/
abbrev Setup := ExceptT Problem (StateM Store)

/-- A filesystem call as a step of setting up. -/
def calling {α : Type} (x : Action Store α) : Setup α := ExceptT.mk do
  match ← x.run with
  | .ok a => return .ok a
  | .error f => return .error (.failure f)

/-- Adds a filesystem to the store. -/
def adding (add : Store → Filesystem × Store) : Setup Filesystem := do
  let (f, s) := add (← get)
  set s
  return f

/-- The operations that the names stand for, if there are names. -/
def operationsOf (names : Option (List String)) : Except Problem (Option Operations) :=
  match names with
  | none => .ok none
  | some tokens => return some (← operationsOfTokens tokens)

/-- The root of a directory layer, from the base directory on if there is one. -/
def rootFrom (base : Option String) (root : String) : String :=
  match base with
  | some base => Disk.below base root
  | none => root

/-- The directory of the disk as a filesystem. -/
def buildDirectory (base : Option String) (root : String) (operations : Option Operations) :
    Setup Filesystem := do
  let s ← get
  let root := rootFrom base root
  unless (s.disk.kindAt root).isDirectory do throw (.missingRoot root)
  let h := Host.ofRoot s.disk root
  adding (Store.addHost { h with operations := operations.getD h.operations })

/-- The files as a filesystem in memory. -/
def buildFiles (files : Table String) (operations : Option Operations) : Setup Filesystem := do
  let clock := (← get).clock
  let fill : Action Memory Unit := files.entries.forM fun (path, text) =>
    Memory.addFile clock path (Bytes.ofText text) clock
  match fill.run.run { operations := operations.getD .all } with
  | (.ok (), m) => adding (Store.addMemory m)
  | (.error f, _) => throw (.failure f)

/-- A union over layers that are already made. -/
def buildUnion (settings : Settings) (layers : List Filesystem) : Setup Filesystem := do
  let id := (← get).overlays.size
  let f ← adding (Store.addOverlay { layers, fold := settings.fold, policy := settings.policy })
  match settings.populateDepth with
  | some depth =>
    let P := (← get).layerCalls
    calling (Store.inOverlay id (Overlay.populate P depth .root))
  | none => pure ()
  return f

mutual

/-- The filesystem of a layer. -/
def buildLayer (base : Option String) : Layer → Setup Filesystem
  | .directory root operations => do
    buildDirectory base root (← operationsOf operations)
  | .files files operations => do
    buildFiles files (← operationsOf operations)
  | .union settings layers operations => do
    let _ ← operationsOf operations
    if layers.isEmpty then throw .noLayers
    buildUnion settings (← buildLayers (settings.baseIn base) layers)

/-- The filesystems of layers, first to last. -/
def buildLayers (base : Option String) : List Layer → Setup (List Filesystem)
  | [] => return []
  | l :: ls => do return (← buildLayer base l) :: (← buildLayers base ls)

end

/-- The union that a manifest describes. -/
def build (m : Manifest) (base : Option String) : Setup Filesystem := do
  if m.layers.isEmpty then throw .noLayers
  buildUnion m.settings (← buildLayers (m.settings.baseIn base) m.layers)

mutual

/-- The roots of the directories in a layer. -/
def rootsInLayer (base : Option String) : Layer → List String
  | .directory root _ => [rootFrom base root]
  | .files _ _ => []
  | .union settings layers _ => rootsInLayers (settings.baseIn base) layers

/-- The roots of the directories in layers. -/
def rootsInLayers (base : Option String) : List Layer → List String
  | [] => []
  | l :: ls => rootsInLayer base l ++ rootsInLayers base ls

end

/-- Whether a piece of a path text leads nowhere. -/
def isIdle (piece : String) : Bool := piece.isEmpty || piece == "."

/-- The directory that a path text is in: the text without its last name, and without what leads
nowhere before it.  A dot at the very start stays. -/
def directoryOf (text : String) : String :=
  let before := ((Disk.piecesOf text).reverse.dropWhile isIdle).tail
  match before.dropWhile isIdle with
  | [] => if Disk.isAbsolute text then "/" else if before.contains "." then "." else ""
  | front => "/".intercalate front.reverse

/-- The manifest in a file of the disk. -/
def load (d : Disk) (path : String) : Except Problem Manifest :=
  match d.readFile path with
  | .error e => .error (.io e)
  | .ok bytes =>
    match Bytes.toText? bytes with
    | none => .error (.io (.stated .invalidData "stream did not contain valid UTF-8"))
    | some text =>
      match ofText? text with
      | some m => .ok m
      | none => .error .malformed

end Strata.Manifest
