/-
# `Strata.Store.Basic` — all filesystems together

A store holds the state of every filesystem there is, and the disk.  A
`Filesystem` and an `Entry` are handles: they say where in the store to look, so
two of them may share what they stand for, and a filesystem may be a layer of
several unions.

Two wrappers stand around other filesystems.  A probed one counts listings and
openings and can be told to refuse openings; a faulty one always fails the calls
that it was told to fail.
-/
import Strata.Archive.Basic
import Strata.Host.Basic
import Strata.Memory.Basic
import Strata.Overlay.Filesystem

namespace Strata

/-- What a probed filesystem counts, and the paths that it refuses to open. -/
structure Probe where
  lists : Nat := 0
  opens : Nat := 0
  failing : List String := []
  deriving DecidableEq, Repr

namespace Probe

/-- One more listing. -/
def countList (p : Probe) : Probe := { p with lists := p.lists + 1 }

/-- One more opening. -/
def countOpen (p : Probe) : Probe := { p with opens := p.opens + 1 }

/-- Refuses to open a path from now on. -/
def refuseOpen (p : Probe) (path : String) : Probe :=
  { p with failing := Path.normalize path false :: p.failing }

/-- Starts counting anew. -/
def reset (p : Probe) : Probe := { p with lists := 0, opens := 0 }

end Probe

/-- The calls that a faulty filesystem fails, and how. -/
structure Faults where
  child : Option Failure := none
  list : Option Failure := none
  openStream : Option Failure := none
  delete : Option Failure := none
  create : Option Failure := none
  rename : Option Failure := none
  deriving DecidableEq, Repr

/-- A filesystem of the store. -/
inductive Filesystem where
  | memory (id : Nat)
  | archive (id : Nat)
  | host (id : Nat)
  | overlay (id : Nat)
  | probed (probe : Nat) (inner : Filesystem)
  | faulty (faults : Faults) (inner : Filesystem)
  deriving DecidableEq, Repr

/-- An entry of a filesystem of the store. -/
inductive Entry where
  | memory (id : Nat) (path : String)
  | archive (id : Nat) (path : String)
  | host (id : Nat) (path : String)
  | overlayRoot (id : Nat)
  | overlayEntry (id slot : Nat) (path : String) (source : Entry) (layer : Nat)
  | probed (probe : Nat) (inner : Entry)
  | faulty (faults : Faults) (inner : Entry)
  deriving DecidableEq, Repr

/-- An open byte stream: a buffer, with the file that it commits to if it writes, or a stream on
a file of the disk. -/
inductive Stream where
  | buffer (buffer : Buffer) (sink : Option (Nat × String))
  | file (file : Disk.OpenFile)
  deriving DecidableEq, Repr

/-- The state of all filesystems. -/
structure Store where
  memories : Array Memory := #[]
  archives : Array Archive := #[]
  hosts : Array Host := #[]
  overlays : Array (Overlay Filesystem Entry) := #[]
  probes : Array Probe := #[]
  disk : Disk := {}
  clock : Timestamp := .epoch

namespace Filesystem

/-- The root directory of a filesystem. -/
def root : Filesystem → Entry
  | .memory id => .memory id ""
  | .archive id => .archive id ""
  | .host id => .host id ""
  | .overlay id => .overlayRoot id
  | .probed probe inner => .probed probe inner.root
  | .faulty faults inner => .faulty faults inner.root

end Filesystem

namespace Entry

/-- The entry as an entry of the union that it belongs to, if it belongs to one. -/
def node? : Entry → Option (Nat × Overlay.Node Entry)
  | .overlayRoot id => some (id, .root)
  | .overlayEntry id slot path source layer => some (id, .entry ⟨slot, path, source, layer⟩)
  | _ => none

/-- The entry that an entry of a union is. -/
def ofNode (id : Nat) : Overlay.Node Entry → Entry
  | .root => .overlayRoot id
  | .entry c => .overlayEntry id c.slot c.offer.path c.offer.source c.offer.layer

theorem node?_ofNode (id : Nat) (n : Overlay.Node Entry) :
    (ofNode id n).node? = some (id, n) := by
  cases n <;> rfl

end Entry

namespace Store

variable {α : Type}

/-! ## Parts of the store -/

/-- The memory filesystem of a number. -/
def memory (s : Store) (id : Nat) : Memory := s.memories.getD id {}

/-- The host filesystem of a number. -/
def host (s : Store) (id : Nat) : Host := s.hosts.getD id { root := "" }

/-- The archive of a number. -/
def archive (s : Store) (id : Nat) : Archive :=
  s.archives.getD id ⟨"", .empty, fun _ => .ok []⟩

/-- The union of a number. -/
def overlay (s : Store) (id : Nat) : Overlay Filesystem Entry := s.overlays.getD id {}

/-- The probe of a number. -/
def probe (s : Store) (id : Nat) : Probe := s.probes.getD id {}

/-- The store with another state of a union. -/
def setOverlay (s : Store) (id : Nat) (o : Overlay Filesystem Entry) : Store :=
  { s with overlays := s.overlays.setIfInBounds id o }

/-- Runs an action on a memory filesystem. -/
def inMemory (id : Nat) (x : Action Memory α) : Action Store α :=
  x.zoom (·.memory id) fun m s => { s with memories := s.memories.setIfInBounds id m }

/-- Runs an action on the disk. -/
def onDisk (x : Action Disk α) : Action Store α :=
  x.zoom (·.disk) fun d s => { s with disk := d }

/-- Runs a call on a union. -/
def inOverlay (id : Nat) (x : Overlay.Call Store Filesystem Entry α) : Action Store α :=
  x.zoom (fun s => (s, s.overlay id)) fun w _ => w.1.setOverlay id w.2

/-- Changes a probe. -/
def changeProbe (id : Nat) (f : Probe → Probe) : Action Store Unit :=
  modify fun s => { s with probes := s.probes.setIfInBounds id (f (s.probe id)) }

end Store

end Strata
