/-
# `Strata.Store.Entries` — the calls on entries of the store

Each call goes to the filesystem that the entry belongs to.  A wrapper does its
part and hands the call on to the entry inside it.  A union hands its calls on
to the provider `P` of its layers, which knows one level of nesting less.
-/
import Strata.Store.Streams

namespace Strata

/-- Fails if a failure is set. -/
def Faults.raise {σ : Type} (fault : Option Failure) : Action σ Unit :=
  match fault with
  | some f => throw f
  | none => pure ()

namespace Entry

/-- Where the entry is in its filesystem. -/
def path : Entry → String
  | .memory _ path => path
  | .archive _ path => path
  | .host _ path => path
  | .overlayRoot _ => ""
  | .overlayEntry _ _ path _ _ => path
  | .probed _ inner => inner.path
  | .faulty _ inner => inner.path

/-- What is there now. -/
def kind (s : Store) : Entry → Kind
  | .memory id path => (s.memory id).kind path
  | .archive id path => (s.archive id).kind path
  | .host id path => (s.host id).kind s.disk path
  | .overlayRoot _ => .directory
  | .overlayEntry _ _ _ source _ => source.kind s
  | .probed _ inner => inner.kind s
  | .faulty _ inner => inner.kind s

/-- When it was last written. -/
def modified (s : Store) : Entry → Timestamp
  | .memory id path => (s.memory id).modified path
  | .archive id path => (s.archive id).modified path
  | .host id path => (s.host id).modified s.disk path
  | .overlayRoot _ => .epoch
  | .overlayEntry _ _ _ source _ => source.modified s
  | .probed _ inner => inner.modified s
  | .faulty _ inner => inner.modified s

/-- The entries with these paths, if the paths can be had. -/
def ofPaths (make : String → Entry) (r : Except Failure (List String)) : Action Store (List Entry) :=
  return (← Action.ofExcept r).map make

variable (P : Provider Store Filesystem Entry Stream)

/-- The entry that a name leads to. -/
def child : Entry → String → Action Store (Option Entry)
  | .memory id path, name => do
    return (← Action.ofExcept (((← get).memory id).child path name)).map (.memory id)
  | .archive id path, name => do
    return (← Action.ofExcept (((← get).archive id).child path name)).map (.archive id)
  | .host id path, name => do
    let s ← get
    return (← Action.ofExcept ((s.host id).child s.disk path name)).map (.host id)
  | .overlayRoot id, name =>
    return (← Store.inOverlay id (Overlay.child P .root name)).map (ofNode id)
  | .overlayEntry id slot path source layer, name => do
    let node := .entry ⟨slot, path, source, layer⟩
    return (← Store.inOverlay id (Overlay.child P node name)).map (ofNode id)
  | .probed probe inner, name => return (← child inner name).map (.probed probe)
  | .faulty faults inner, name => do
    Faults.raise faults.child
    return (← child inner name).map (.faulty faults)

/-- The entries directly below. -/
def children : Entry → Action Store (List Entry)
  | .memory id path => do ofPaths (.memory id) (((← get).memory id).children path)
  | .archive id path => do ofPaths (.archive id) (((← get).archive id).children path)
  | .host id path => do
    let s ← get
    ofPaths (.host id) ((s.host id).children s.disk path)
  | .overlayRoot id =>
    return (← Store.inOverlay id (Overlay.children P .root)).map (ofNode id)
  | .overlayEntry id slot path source layer => do
    let node := .entry ⟨slot, path, source, layer⟩
    return (← Store.inOverlay id (Overlay.children P node)).map (ofNode id)
  | .probed probe inner => do
    Store.changeProbe probe Probe.countList
    return (← children inner).map (.probed probe)
  | .faulty faults inner => do
    Faults.raise faults.list
    return (← children inner).map (.faulty faults)

/-- How many entries there are directly below. -/
def count : Entry → Action Store Nat
  | .overlayRoot id => Store.inOverlay id (Overlay.count P .root)
  | .overlayEntry id slot path source layer =>
    Store.inOverlay id (Overlay.count P (.entry ⟨slot, path, source, layer⟩))
  | .probed probe inner => do
    Store.changeProbe probe Probe.countList
    count inner
  | .faulty faults inner => return (← children P (.faulty faults inner)).length
  | .memory id path => return (← children P (.memory id path)).length
  | .archive id path => return (← children P (.archive id path)).length
  | .host id path => return (← children P (.host id path)).length

/-- A byte stream on the entry. -/
def openStream : Entry → OpenMode → Action Store Stream
  | .memory id path, mode => do
    let b ← Store.inMemory id (Memory.openBuffer (← get).clock path mode)
    return .buffer b (if mode.write then some (id, path) else none)
  | .archive id path, mode => do
    return .buffer (← Action.ofExcept (((← get).archive id).openBuffer path mode)) none
  | .host id path, mode => do
    return .file (← Store.onDisk (((← get).host id).openFile path mode))
  | .overlayRoot id, mode => Store.inOverlay id (Overlay.openStream P .root mode)
  | .overlayEntry id slot path source layer, mode =>
    Store.inOverlay id (Overlay.openStream P (.entry ⟨slot, path, source, layer⟩) mode)
  | .probed probe inner, mode => do
    Store.changeProbe probe Probe.countOpen
    let path := inner.path
    if ((← get).probe probe).failing.contains path then
      throw (.backend s!"injected open failure: {path}")
    openStream inner mode
  | .faulty faults inner, mode => do
    Faults.raise faults.openStream
    openStream inner mode

/-- Removes what a name leads to. -/
def delete : Entry → String → Action Store Bool
  | .memory id path, name => Store.inMemory id (Memory.delete path name)
  | .archive id path, _ => do throw (((← get).archive id).readOnly path)
  | .host id path, name => do Store.onDisk (((← get).host id).delete path name)
  | .overlayRoot id, name => Store.inOverlay id (Overlay.delete P .root name)
  | .overlayEntry id slot path source layer, name =>
    Store.inOverlay id (Overlay.delete P (.entry ⟨slot, path, source, layer⟩) name)
  | .probed _ inner, name => delete inner name
  | .faulty faults inner, name => do
    Faults.raise faults.delete
    delete inner name

/-- Makes an entry below, or finds it there. -/
def create : Entry → Kind → String → Action Store Entry
  | .memory id path, kind, name => do
    return .memory id (← Store.inMemory id (Memory.create (← get).clock path kind name))
  | .archive id path, _, _ => do throw (((← get).archive id).readOnly path)
  | .host id path, kind, name => do
    return .host id (← Store.onDisk (((← get).host id).create path kind name))
  | .overlayRoot id, kind, name =>
    return ofNode id (← Store.inOverlay id (Overlay.create P .root kind name))
  | .overlayEntry id slot path source layer, kind, name => do
    let node := .entry ⟨slot, path, source, layer⟩
    return ofNode id (← Store.inOverlay id (Overlay.create P node kind name))
  | .probed probe inner, kind, name => return .probed probe (← create inner kind name)
  | .faulty faults inner, kind, name => do
    Faults.raise faults.create
    return .faulty faults (← create inner kind name)

/-- Moves the entry in its filesystem. -/
def rename : Entry → String → Action Store Unit
  | .memory id path, target => do
    Store.inMemory id (Memory.rename (← get).clock path target)
  | .archive id path, _ => do throw (((← get).archive id).readOnly path)
  | .host id path, target => do Store.onDisk (((← get).host id).rename path target)
  | .overlayRoot id, target => Store.inOverlay id (Overlay.rename P .root target)
  | .overlayEntry id slot path source layer, target =>
    Store.inOverlay id (Overlay.rename P (.entry ⟨slot, path, source, layer⟩) target)
  | .probed _ inner, target => rename inner target
  | .faulty faults inner, target => do
    Faults.raise faults.rename
    rename inner target

end Entry

end Strata
