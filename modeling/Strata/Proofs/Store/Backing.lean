/-
# `Strata.Proofs.Store.Backing` — memory filesystems behind wrappers that fail

A layer may stand on a memory filesystem and yet refuse: a faulty wrapper around it
fails the calls that it was told to fail, before they come to the tree.  What is
left of a call is the call on the memory filesystem, and what it answers are handles
on paths of that filesystem again.
-/
import Strata.Proofs.Store.Changes
import Strata.Proofs.Store.Ownership

namespace Strata

open Strata.Action Strata.Path

theorem Faults.exec_raise {σ : Type} (fault : Option Failure) (s : σ) :
    (Faults.raise fault : Action σ Unit).exec s =
      (match fault with
        | some e => .error e
        | none => .ok (), s) := by
  cases fault <;> rfl

namespace Filesystem

/-- The memory filesystem that the filesystem stands on, if it stands on one. -/
def memory? : Filesystem → Option Nat
  | .memory id => some id
  | .probed _ inner => inner.memory?
  | .faulty _ inner => inner.memory?
  | _ => none

/-- The filesystem keeps its tree in memory or in an archive, with nothing around it. -/
def isBare : Filesystem → Bool
  | .memory _ => true
  | .archive _ => true
  | _ => false

theorem eq_memory_of_isBare {f : Filesystem} {id : Nat} (h : f.isBare = true)
    (hid : f.memory? = some id) : f = .memory id := by
  cases f with
  | memory j => exact congrArg memory (Option.some.inj hid)
  | archive j => cases hid
  | _ => cases h

/-- How every lookup in the filesystem fails, if it was told to fail. -/
def childFault : Filesystem → Option Failure
  | .probed _ inner => inner.childFault
  | .faulty faults inner => faults.child.or inner.childFault
  | _ => none

/-- How every deletion in the filesystem fails, if it was told to fail. -/
def deleteFault : Filesystem → Option Failure
  | .probed _ inner => inner.deleteFault
  | .faulty faults inner => faults.delete.or inner.deleteFault
  | _ => none

/-- How every creation in the filesystem fails, if it was told to fail. -/
def createFault : Filesystem → Option Failure
  | .probed _ inner => inner.createFault
  | .faulty faults inner => faults.create.or inner.createFault
  | _ => none

/-- The handle on a path of the tree, behind the wrappers. -/
def handle : Filesystem → String → Entry
  | .memory id, path => .memory id path
  | .probed probe inner, path => .probed probe (inner.handle path)
  | .faulty faults inner, path => .faulty faults (inner.handle path)
  | f, _ => f.root

end Filesystem

/-- The store with a new node without contents in the tree that a filesystem stands on. -/
def Store.plant (s : Store) (f : Filesystem) (path : String) (kind : Kind) : Store :=
  match f.memory? with
  | some id =>
    s.setMemory id
      { s.memory id with tree := (s.memory id).tree.put path (.empty kind s.clock) }
  | none => s

namespace Filesystem

/-- The filesystem stands on a memory filesystem with a clean tree. -/
structure Backed (s : Store) (f : Filesystem) (id : Nat) : Prop where
  memory : f.memory? = some id
  clean : (s.memory id).tree.Clean

variable {f : Filesystem} {s : Store} {id : Nat} (P : Provider Store Filesystem Entry Stream)

theorem outline_of_memory (hf : f.CleanTree s) {id : Nat} (h : f.memory? = some id) :
    f.outline s = (s.memory id).outline ∧ f.allows s = (s.memory id).operations := by
  induction f with
  | memory j =>
      obtain rfl := Option.some.inj h
      exact ⟨rfl, rfl⟩
  | probed p inner ih => exact ih hf h
  | archive j => cases h
  | _ => exact hf.elim

theorem operations_of_memory (h : f.memory? = some id) :
    f.operations P s = (s.memory id).operations := by
  induction f with
  | memory j =>
      obtain rfl := Option.some.inj h
      rfl
  | probed p inner ih => exact ih h
  | faulty faults inner ih => exact ih h
  | _ => cases h

theorem root_of_memory (h : f.memory? = some id) : f.root = f.handle "" := by
  induction f with
  | memory j => rfl
  | probed p inner ih => exact congrArg (Entry.probed p) (ih h)
  | faulty faults inner ih => exact congrArg (Entry.faulty faults) (ih h)
  | _ => cases h

theorem path_handle (h : f.memory? = some id) (path : String) : (f.handle path).path = path := by
  induction f with
  | memory j => rfl
  | probed p inner ih => exact ih h
  | faulty faults inner ih => exact ih h
  | _ => cases h

theorem kind_handle (h : f.memory? = some id) (path : String) :
    (f.handle path).kind s = (s.memory id).kind path := by
  induction f with
  | memory j =>
      obtain rfl := Option.some.inj h
      rfl
  | probed p inner ih => exact ih h
  | faulty faults inner ih => exact ih h
  | _ => cases h

/-- A lookup fails if it was told to, and else it is one in the tree. -/
theorem exec_child_handle (h : f.memory? = some id) (path name : String) :
    ((f.handle path).child P name).exec s =
      (match f.childFault with
        | some e => .error e
        | none => ((s.memory id).child path name).map (·.map f.handle), s) := by
  induction f with
  | memory j =>
      obtain rfl := Option.some.inj h
      simp only [handle, Entry.child, exec_bind, exec_get, exec_ofExcept, childFault]
      cases (s.memory j).child path name <;> rfl
  | probed p inner ih =>
      simp only [handle, Entry.child, exec_bind, ih h, childFault]
      cases inner.childFault with
      | some e => rfl
      | none => rcases (s.memory id).child path name with _ | _ | _ <;> rfl
  | faulty faults inner ih =>
      simp only [handle, Entry.child, exec_bind, Faults.exec_raise, childFault]
      cases faults.child with
      | some e => rfl
      | none =>
          simp only [ih h, Option.none_or]
          cases inner.childFault with
          | some e => rfl
          | none => rcases (s.memory id).child path name with _ | _ | _ <;> rfl
  | _ => cases h

/-- Where lookups do not fail, a clean path leads to the handle on a directory, or to none. -/
theorem exec_resolveDirectory_handle (n : Nat) (h : f.Backed s id) {path : String}
    (hp : Path.Clean path) (hchild : path ≠ "" → f.childFault = none) :
    ((Store.provider (n + 1)).resolveDirectory f path).exec s =
      (.ok (if (s.memory id).kind path = .directory then some (f.handle path) else none), s) := by
  have hkind : (Store.provider (n + 1)).kind (f.handle path) s = (s.memory id).outline.kind path :=
    kind_handle h.memory path
  refine exec_resolveDirectory_of_resolve hkind ?_
  refine exec_resolve_of_child (Memory.Tree.outline_clean h.clean) (root_of_memory h.memory) hp
    hkind fun h0 => ?_
  have := exec_child_handle (Store.provider n) (s := s) h.memory "" path
  rw [hchild h0, ← root_of_memory h.memory] at this
  exact this

section
variable (n : Nat) (h : f.memory? = some id) {path : String}
include h

theorem exec_child_of_fault {e : Failure} (he : f.childFault = some e) :
    ((Store.provider (n + 1)).child ((Store.provider (n + 1)).root f) path).exec s
      = (.error e, s) := by
  have := exec_child_handle (Store.provider n) (s := s) h "" path
  rw [he, ← root_of_memory h] at this
  exact this

/-- To find any directory but the root takes a lookup, which fails where it was told to. -/
theorem exec_resolveDirectory_of_fault (h0 : path ≠ "") {e : Failure} (he : f.childFault = some e)
    (hother : ∀ q, e ≠ .notADirectory q) :
    ((Store.provider (n + 1)).resolveDirectory f path).exec s = (.error e, s) := by
  simp only [Provider.resolveDirectory, Provider.resolve, exec_bind, String.isEmpty_iff, if_neg h0,
    exec_attempt, exec_child_of_fault n h he]
  cases e with
  | notADirectory q => exact absurd rfl (hother q)
  | _ => rfl

/-- A lookup that runs into a file has found no directory, and so has one that says so. -/
theorem exec_resolveDirectory_of_notADirectory (h0 : path ≠ "") {q : String}
    (he : f.childFault = some (.notADirectory q)) :
    ((Store.provider (n + 1)).resolveDirectory f path).exec s = (.ok none, s) := by
  simp only [Provider.resolveDirectory, Provider.resolve, exec_bind, String.isEmpty_iff, if_neg h0,
    exec_attempt, exec_child_of_fault n h he]
  rfl

end

/-- A deletion fails if it was told to, and else it is one in the tree. -/
theorem exec_delete_handle (h : f.memory? = some id) (path name : String) :
    ((f.handle path).delete P name).exec s =
      match f.deleteFault with
      | some e => (.error e, s)
      | none => (Store.inMemory id (Memory.delete path name)).exec s := by
  induction f with
  | memory j =>
      obtain rfl := Option.some.inj h
      rfl
  | probed p inner ih => exact ih h
  | faulty faults inner ih =>
      simp only [handle, Entry.delete, exec_bind, Faults.exec_raise, deleteFault]
      cases faults.delete with
      | some e => rfl
      | none => exact ih h
  | _ => cases h

/-- A creation fails if it was told to, and else it is one in the tree. -/
theorem exec_create_handle (h : f.memory? = some id) (path : String) (kind : Kind) (name : String) :
    ((f.handle path).create P kind name).exec s =
      match f.createFault with
      | some e => (.error e, s)
      | none =>
        (((Memory.create s.clock path kind name).exec (s.memory id)).1.map f.handle,
          s.setMemory id ((Memory.create s.clock path kind name).exec (s.memory id)).2) := by
  induction f with
  | memory j =>
      obtain rfl := Option.some.inj h
      simp only [handle, Entry.create, exec_bind, exec_get, Store.exec_inMemory, createFault]
      cases ((Memory.create s.clock path kind name).exec (s.memory j)).1 <;> rfl
  | probed p inner ih =>
      simp only [handle, Entry.create, exec_bind, ih h, createFault]
      cases inner.createFault with
      | some e => rfl
      | none => cases ((Memory.create s.clock path kind name).exec (s.memory id)).1 <;> rfl
  | faulty faults inner ih =>
      simp only [handle, Entry.create, exec_bind, Faults.exec_raise, createFault]
      cases faults.create with
      | some e => rfl
      | none =>
          simp only [ih h, Option.none_or]
          cases inner.createFault with
          | some e => rfl
          | none => cases ((Memory.create s.clock path kind name).exec (s.memory id)).1 <;> rfl
  | _ => cases h

/-- The entries of a filesystem that stands on a memory filesystem are handles on its paths. -/
theorem Has.exists_handle {e : Entry} (he : f.Has e) (h : f.memory? = some id) :
    ∃ path, e = f.handle path := by
  induction he with
  | memory j path => exact ⟨path, rfl⟩
  | probed p _ ih =>
      obtain ⟨path, rfl⟩ := ih h
      exact ⟨path, rfl⟩
  | faulty faults _ ih =>
      obtain ⟨path, rfl⟩ := ih h
      exact ⟨path, rfl⟩
  | _ => cases h

end Filesystem

end Strata
