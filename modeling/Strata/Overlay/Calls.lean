/-
# `Strata.Overlay.Calls` — the calls on a union

A call runs in the world of the layers together with the union.  Who answers:

| call                       | layers                                    |
| :------------------------- | :---------------------------------------- |
| listing, looking up        | the first that offers the name            |
| opening                    | the entry's own, then any other that can  |
| deleting                   | each that can and has the directory       |
| creating                   | the first that can and accepts it         |
| renaming, times            | the entry's own                           |

A layer that fails by its own fault is passed over where others can answer; a
failure that is the caller's fault ends the call.
-/
import Strata.Overlay.Merge

namespace Strata.Overlay

variable {σ F E S α : Type} (P : Provider σ F E S)

/-- A call in the world of the layers and the union over them. -/
abbrev Call (σ F E : Type) := Action (σ × Overlay F E)

/-- A call in the world of the layers alone. -/
def below (x : Action σ α) : Call σ F E α := x.zoom (·.1) fun s w => (s, w.2)

/-- The union as it is now. -/
def current : Call σ F E (Overlay F E) := Action.look (·.2)

/-- Changes the union. -/
def update (f : Overlay F E → Overlay F E) : Call σ F E Unit :=
  modify fun w => (w.1, f w.2)

/-! ## Checks -/

/-- Refuses an entry whose union is gone. -/
def requireLive (node : Node E) : Call σ F E Unit := do
  if (← current).released then
    throw (.backend
      s!"union filesystem was dropped while {Text.quoted node.path} was in use")

/-- What is at the entry now. -/
def kind (node : Node E) (s : σ) : Kind :=
  match node.source? with
  | some e => P.kind e s
  | none => .directory

/-- The modification time of the entry. -/
def modified (node : Node E) (s : σ) : Timestamp :=
  match node.source? with
  | some e => P.modified e s
  | none => .epoch

/-- Refuses an entry that is not a directory. -/
def requireDirectory (node : Node E) : Call σ F E Unit := do
  unless (kind P node (← get).1).isDirectory do throw (.notADirectory node.path)

/-- What some layer may be asked to do. -/
def operations (o : Overlay F E) (s : σ) : Operations :=
  o.layers.foldl (fun acc f => acc ∪ P.operations f s) .none

/-- Refuses a call that no layer allows. -/
def require (ops : Operations) (what : String) (node : Node E) : Call σ F E Unit := do
  let (s, o) ← get
  unless (operations P o s).covers ops do
    throw (.unsupported s!"no filesystem in the union supports {what}: {node.path}")

/-! ## Listings -/

/-- Computes the listing of an entry anew.  If a layer fails, the old listing stays. -/
def scan (node : Node E) : Call σ F E Unit := do
  let o ← current
  let table ← below (merge P o.fold o.layers node.path)
  update (·.install node.slot table)

/-- The children of an entry, from its listing if that is clean. -/
def listed (node : Node E) : Call σ F E (List (String × Child E)) := do
  if ((← current).listing node.slot).dirty then scan P node
  return ((← current).listing node.slot).children

/-- The child of a name. -/
def listedChild (node : Node E) (name : String) : Call σ F E (Option (Node E)) := do
  return ((← listed P node).lookup name).map .entry

/-- Goes from an entry along the components, each of them a directory but the last. -/
def descend : Node E → List String → Call σ F E (Option (Node E))
  | node, [] => return some node
  | node, c :: cs => do
    requireDirectory P node
    match ← listedChild P node c with
    | some next => descend next cs
    | none => return none

/-- The entry at a path that is already in normal form. -/
def lookup (node : Node E) (path : String) : Call σ F E (Option (Node E)) := do
  requireLive node
  requireDirectory P node
  match Path.components path with
  | [] => return none
  | c :: cs => descend P node (c :: cs)

/-- The entry at a path from the root. -/
def entry (path : String) : Call σ F E (Option (Node E)) := do
  let relative := Path.normalize path (← current).fold
  if relative.isEmpty then return some .root
  lookup P .root relative

/-- Computes the listing of an entry, of the directories in it, and so on down to a depth. -/
def populate : Nat → Node E → Call σ F E Unit
  | 0, _ => return ()
  | depth + 1, node => do
    requireLive node
    scan P node
    ((← current).listing node.slot).children.forM fun (_, c) => do
      if (P.kind c.offer.source (← get).1).isDirectory then populate depth (.entry c)

/-- Computes the listing of an entry, clean or not. -/
def refresh (node : Node E) : Call σ F E Unit := do
  requireLive node
  scan P node

/-- Marks the listing of an entry as dirty. -/
def invalidateNode (node : Node E) : Call σ F E Unit := update (·.invalidate node.slot)

/-- Marks the listing of a directory as dirty after a change in it, if that is the policy. -/
def noteChange (node : Node E) : Call σ F E Unit := do
  if (← current).policy = .eager then invalidateNode node

/-! ## Looking up and listing -/

/-- The entry that a name leads to. -/
def child (node : Node E) (name : String) : Call σ F E (Option (Node E)) := do
  requireLive node
  requireDirectory P node
  let relative := Path.normalize name (← current).fold
  if relative.isEmpty then return none
  lookup P node relative

/-- The entries of a directory. -/
def children (node : Node E) : Call σ F E (List (Node E)) := do
  requireLive node
  require P (.only .read) "listing" node
  requireDirectory P node
  return (← listed P node).map fun c => .entry c.2

/-- The number of entries of a directory. -/
def count (node : Node E) : Call σ F E Nat := do
  return (← children P node).length

/-! ## Opening -/

/-- Opens the file at a path of a layer; whatever goes wrong, there is no stream. -/
def openInLayer (mode : OpenMode) (path : String) (f : F) : Action σ (Option S) := do
  match ← Action.attempt (P.resolve f path) with
  | .ok (some e) =>
    if (P.kind e (← get)).isFile then
      return (← Action.attempt (P.openStream e mode)).toOption
    else return none
  | _ => return none

/-- Opens the file at a path in the first layer that can, from a position on, one layer left
out. -/
def openFrom (mode : OpenMode) (required : Operations) (path : String) (skip : Option Nat) :
    Nat → List F → Action σ (Option S)
  | _, [] => return none
  | layer, f :: fs => do
    let stream ←
      if some layer != skip && (P.operations f (← get)).covers required then
        openInLayer P mode path f
      else pure none
    match stream with
    | some s => return some s
    | none => openFrom mode required path skip (layer + 1) fs

/-- A byte stream on an entry. -/
def openStream (node : Node E) (mode : OpenMode) : Call σ F E S := do
  requireLive node
  let (s, o) ← get
  let required ← Action.ofExcept (mode.checkAgainst (operations P o s) node.path)
  unless (kind P node s).isFile do throw (.notAFile node.path)
  let own ←
    match node.source? with
    | some e => Action.attempt (below (P.openStream e mode))
    | none => pure (.error (.notAFile node.path))
  match own with
  | .ok stream => return stream
  | .error _ =>
    match ← below (openFrom P mode required node.path node.layer? 0 o.layers) with
    | some stream => return stream
    | none => throw (.backend s!"no filesystem could open {node.path}")

/-! ## Changing -/

/-- The answer of a layer, or nothing if the layer failed by its own fault. -/
def consult (x : Action σ α) : Action σ (Option α) := do
  match ← Action.attempt x with
  | .ok a => return some a
  | .error e => if e.isMisuse then throw e else return none

/-- Deletes a name from the directory at a path of a layer. -/
def deleteInLayer (path name : String) (f : F) : Action σ Bool := do
  match ← P.resolveDirectory f path with
  | some directory => P.delete directory name
  | none => return false

/-- Deletes a name from the directory at a path in each layer that can. -/
def deleteInLayers (path name : String) : List F → Bool → Action σ Bool
  | [], deleted => return deleted
  | f :: fs, deleted => do
    if (P.operations f (← get)).covers (.only .delete) then
      let removed ← consult (deleteInLayer P path name f)
      deleteInLayers path name fs (deleted || removed.getD false)
    else deleteInLayers path name fs deleted

/-- How the layers spell a name: as the listing has it if the union folds case. -/
def spelling (node : Node E) (name : String) : Call σ F E String := do
  if (← current).fold then
    match ← listedChild P node name with
    | some c => return Path.lastName c.path
    | none => return name
  else return name

/-- Deletes what a name of at most so many components leads to. -/
def deleteWithin : Nat → Node E → String → Call σ F E Bool
  | 0, _, _ => return false
  | depth + 1, node, name => do
    requireLive node
    require P (.only .delete) "deleting" node
    requireDirectory P node
    let relative := Path.normalize name (← current).fold
    if relative.isEmpty then return false
    match Path.splitHead relative with
    | (first, some rest) =>
      match ← listedChild P node first with
      | some c => deleteWithin depth c rest
      | none => return false
    | (first, none) =>
      let name ← spelling P node first
      let deleted ← below (deleteInLayers P node.path name (← current).layers false)
      if deleted then noteChange node
      return deleted

/-- Deletes what a name leads to, from the directory that holds it. -/
def delete (node : Node E) (name : String) : Call σ F E Bool :=
  deleteWithin P (Path.pieces name.toList).length node name

/-- Makes an entry in the directory at a path of a layer, if the layer has that directory. -/
def createInLayer (path : String) (kind : Kind) (name : String) (f : F) :
    Action σ (Option E) := do
  match ← P.resolveDirectory f path with
  | some directory => return some (← P.create directory kind name)
  | none => return none

/-- Makes an entry in the directory at a path in the first layer that can, from a position on. -/
def createFrom (path : String) (kind : Kind) (name : String) :
    Nat → List F → Action σ (Option (Offer E))
  | _, [] => return none
  | layer, f :: fs => do
    let made ←
      if (P.operations f (← get)).covers (.only .create) then
        consult (createInLayer P path kind name f)
      else pure none
    match made with
    | some (some e) => return some ⟨Path.normalize (P.path e) false, e, layer⟩
    | _ => createFrom path kind name (layer + 1) fs

/-- Makes an entry, or finds one of the same kind in its place. -/
def create (node : Node E) (kind : Kind) (name : String) : Call σ F E (Node E) := do
  requireLive node
  require P (.only .create) "creating" node
  unless kind.isCreatable do throw (.unusableKind kind.name)
  requireDirectory P node
  let relative := Path.normalize name false
  if relative.isEmpty then throw (.invalidPath "empty entry name")
  match ← below (createFrom P node.path kind relative 0 (← current).layers) with
  | some offer =>
    noteChange node
    let (s, o) ← get
    let (made, o) := o.addNode offer
    set (s, o)
    return made
  | none =>
    let place := Path.join node.path relative
    throw (.backend s!"no filesystem could create {place}")

/-- Moves an entry in its own layer.  The listing of the directory it was in becomes dirty; where
that directory is not found any more, the root's does. -/
def rename (node : Node E) (target : String) : Call σ F E Unit := do
  match node.source? with
  | none => throw (.backend "cannot rename the root")
  | some e =>
    requireLive node
    below (P.rename e target)
    match Path.parent? node.path with
    | none => invalidateNode .root
    | some parent =>
      match ← Action.attempt (lookup P .root (Path.normalize parent (← current).fold)) with
      | .ok (some directory) => invalidateNode directory
      | _ => invalidateNode .root

end Strata.Overlay
