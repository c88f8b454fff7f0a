/-
# `Strata.Store.Filesystems` — making, asking and letting go of filesystems

`provider n` answers for filesystems whose unions are nested at most `n` deep.
A union's layers are always other filesystems than the union, so the number of
unions in a store bounds the nesting, and `calls` is the provider for all of
them.

A union lives as long as somebody holds it: by name, as a layer of a union that
lives, or inside a wrapper that does.  `releaseUnheld` ends the others; entries of
such a union then refuse every call that needs it.
-/
import Strata.Store.Entries

namespace Strata

namespace Filesystem

variable (P : Provider Store Filesystem Entry Stream)

/-- What the filesystem may be asked to do. -/
def operations (s : Store) : Filesystem → Operations
  | .memory id => (s.memory id).operations
  | .archive _ => Archive.operations
  | .host id => (s.host id).operations
  | .overlay id => Overlay.operations P (s.overlay id) s
  | .probed _ inner => operations s inner
  | .faulty _ inner => operations s inner

/-- What the filesystem is called. -/
def name (s : Store) : Filesystem → String
  | .memory id => (s.memory id).name
  | .archive id => (s.archive id).name
  | .host id => (s.host id).name
  | .overlay id => Overlay.nameOf ((s.overlay id).layers.map fun f => P.name f s)
  | .probed _ inner => "instrumented(" ++ name s inner ++ ")"
  | .faulty _ inner => "faulty(" ++ name s inner ++ ")"

/-- The number of the union that the filesystem is, or that it wraps. -/
def overlayId? : Filesystem → Option Nat
  | .overlay id => some id
  | .probed _ inner => inner.overlayId?
  | .faulty _ inner => inner.overlayId?
  | _ => none

end Filesystem

namespace Store

/-- The failure of a call that runs through more unions than there are. -/
def tooDeep : Failure := .backend "unions are nested too deeply"

/-- The provider for filesystems whose unions are nested at most so deep. -/
def provider : Nat → Provider Store Filesystem Entry Stream
  | 0 =>
    { root := Filesystem.root
      operations := fun _ _ => .none
      name := fun _ _ => ""
      path := Entry.path
      kind := fun e s => e.kind s
      modified := fun e s => e.modified s
      child := fun _ _ => throw tooDeep
      children := fun _ => throw tooDeep
      count := fun _ => throw tooDeep
      openStream := fun _ _ => throw tooDeep
      delete := fun _ _ => throw tooDeep
      create := fun _ _ _ => throw tooDeep
      rename := fun _ _ => throw tooDeep
      streams := streams }
  | n + 1 =>
    let P := provider n
    { root := Filesystem.root
      operations := fun f s => f.operations P s
      name := fun f s => f.name P s
      path := Entry.path
      kind := fun e s => e.kind s
      modified := fun e s => e.modified s
      child := Entry.child P
      children := Entry.children P
      count := Entry.count P
      openStream := Entry.openStream P
      delete := Entry.delete P
      create := Entry.create P
      rename := Entry.rename P
      streams := streams }

/-- The nesting that the unions of the store can reach. -/
def depth (s : Store) : Nat := s.overlays.size

/-- The provider for the layers of the store's unions. -/
def layerCalls (s : Store) : Provider Store Filesystem Entry Stream := provider s.depth

/-- The provider for all filesystems of the store. -/
def calls (s : Store) : Provider Store Filesystem Entry Stream := provider (s.depth + 1)

/-! ## Making -/

/-- Adds a memory filesystem. -/
def addMemory (m : Memory) (s : Store) : Filesystem × Store :=
  (.memory s.memories.size, { s with memories := s.memories.push m })

/-- Adds an archive. -/
def addArchive (a : Archive) (s : Store) : Filesystem × Store :=
  (.archive s.archives.size, { s with archives := s.archives.push a })

/-- Adds a host filesystem. -/
def addHost (h : Host) (s : Store) : Filesystem × Store :=
  (.host s.hosts.size, { s with hosts := s.hosts.push h })

/-- Adds a union. -/
def addOverlay (o : Overlay Filesystem Entry) (s : Store) : Filesystem × Store :=
  (.overlay s.overlays.size, { s with overlays := s.overlays.push o })

/-- Puts a probe around a filesystem. -/
def addProbe (inner : Filesystem) (s : Store) : Filesystem × Store :=
  (.probed s.probes.size inner, { s with probes := s.probes.push {} })

/-! ## Letting go -/

/-- The unions among the layers of a union. -/
def overlaysIn (s : Store) (id : Nat) : List Nat :=
  (s.overlay id).layers.filterMap Filesystem.overlayId?

/-- The unions that these ones hold on to, at most so many steps down, and they themselves. -/
def heldWithin (s : Store) : Nat → List Nat → List Nat
  | 0, ids => ids
  | steps + 1, ids => ids ++ heldWithin s steps (ids.flatMap s.overlaysIn).eraseDups

/-- Ends the unions that none of these filesystems holds. -/
def releaseUnheld (held : List Filesystem) (s : Store) : Store :=
  let kept := s.heldWithin s.overlays.size (held.filterMap Filesystem.overlayId?)
  { s with
    overlays := s.overlays.mapIdx fun id o =>
      if kept.contains id then o else { o with released := true } }

end Store

end Strata
