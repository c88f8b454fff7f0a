/-
# `Strata.Proofs.Store.Layers` — memory filesystems and archives as layers

A layer that keeps its tree in the store, in memory or in an archive, perhaps
behind probes, answers the questions that a union asks by its outline alone.  To
look something up changes nothing; to list a directory makes every probe around
the tree count once, and that is all it changes.
-/
import Strata.Proofs.Action
import Strata.Proofs.Outline
import Strata.Proofs.Store.Ownership

namespace Strata

open Strata.Action

namespace Store

/-- The store in which a probe has counted one more listing. -/
def countList (s : Store) (probe : Nat) : Store :=
  { s with probes := s.probes.setIfInBounds probe (s.probe probe).countList }

theorem exec_countList (s : Store) (probe : Nat) :
    (changeProbe probe Probe.countList).exec s = (.ok (), s.countList probe) := rfl

/-- Two stores that hold the same memory filesystems and the same archives. -/
structure SameTrees (s s' : Store) : Prop where
  memories : s'.memories = s.memories
  archives : s'.archives = s.archives

theorem SameTrees.refl (s : Store) : s.SameTrees s := ⟨rfl, rfl⟩

theorem SameTrees.trans {s s' s'' : Store} (h : s.SameTrees s') (h' : s'.SameTrees s'') :
    s.SameTrees s'' :=
  ⟨h'.memories.trans h.memories, h'.archives.trans h.archives⟩

theorem sameTrees_countList (s : Store) (probe : Nat) : s.SameTrees (s.countList probe) :=
  ⟨rfl, rfl⟩

theorem size_probes_countList (s : Store) (probe : Nat) :
    (s.countList probe).probes.size = s.probes.size := by
  simp [countList]

theorem lists_countList {s : Store} {p : Nat} (hp : p < s.probes.size) (probe : Nat) :
    ((s.countList probe).probe p).lists = (s.probe p).lists + if probe = p then 1 else 0 := by
  simp only [countList, Store.probe, Array.getD_eq_getD_getElem?, Array.getElem?_setIfInBounds]
  by_cases h : probe = p
  · subst h
    simp [hp, Probe.countList]
  · simp [h]

end Store

namespace Filesystem

/-- The outline of the tree that the filesystem keeps. -/
def outline (s : Store) : Filesystem → Outline
  | .memory id => (s.memory id).outline
  | .archive id => (s.archive id).outline
  | .probed _ inner => inner.outline s
  | _ => ⟨fun _ => .unknown, []⟩

/-- What the filesystem may be asked to do. -/
def allows (s : Store) : Filesystem → Operations
  | .memory id => (s.memory id).operations
  | .archive _ => Archive.operations
  | .probed _ inner => inner.allows s
  | _ => .none

/-- Whether the filesystem may be asked to read. -/
def canRead (s : Store) (f : Filesystem) : Bool := (f.allows s).covers (.only .read)

/-- The handle on a path of the tree. -/
def entryAt : Filesystem → String → Entry
  | .memory id, path => .memory id path
  | .archive id, path => .archive id path
  | .probed probe inner, path => .probed probe (inner.entryAt path)
  | f, _ => f.root

/-- The store after one listing of a directory of the tree. -/
def afterListing : Filesystem → Store → Store
  | .probed probe inner, s => inner.afterListing (s.countList probe)
  | _, s => s

/-- The probes around the tree. -/
def probes : Filesystem → List Nat
  | .probed probe inner => probe :: inner.probes
  | _ => []

/-- The filesystem keeps a clean tree in memory or in an archive, perhaps behind probes. -/
def CleanTree (s : Store) : Filesystem → Prop
  | .memory id => (s.memory id).tree.Clean
  | .archive id => (s.archive id).index.Clean
  | .probed _ inner => inner.CleanTree s
  | _ => False

instance decidableCleanTree (s : Store) : (f : Filesystem) → Decidable (f.CleanTree s)
  | .memory id => inferInstanceAs (Decidable (s.memory id).tree.Clean)
  | .archive id => inferInstanceAs (Decidable (s.archive id).index.Clean)
  | .probed _ inner => decidableCleanTree s inner
  | .host _ => .isFalse id
  | .overlay _ => .isFalse id
  | .faulty _ _ => .isFalse id

theorem sameTrees_afterListing (f : Filesystem) (s : Store) : s.SameTrees (f.afterListing s) := by
  induction f generalizing s with
  | probed p inner ih => exact (s.sameTrees_countList p).trans (ih _)
  | _ => exact .refl s

theorem size_probes_afterListing (f : Filesystem) (s : Store) :
    (f.afterListing s).probes.size = s.probes.size := by
  induction f generalizing s with
  | probed p inner ih => rw [afterListing, ih, Store.size_probes_countList]
  | _ => rfl

/-- A listing counts once at each probe around the tree. -/
theorem lists_afterListing (f : Filesystem) {s : Store} {p : Nat} (hp : p < s.probes.size) :
    ((f.afterListing s).probe p).lists = (s.probe p).lists + f.probes.count p := by
  induction f generalizing s with
  | probed q inner ih =>
      rw [afterListing, ih (by rwa [Store.size_probes_countList]), Store.lists_countList hp,
        probes, List.count_cons]
      simp only [beq_iff_eq]
      omega
  | _ => rfl

theorem outline_congr {s s' : Store} (h : s.SameTrees s') (f : Filesystem) :
    f.outline s' = f.outline s := by
  induction f with
  | memory id => simp [outline, Store.memory, h.memories]
  | archive id => simp [outline, Store.archive, h.archives]
  | probed p inner ih => exact ih
  | _ => rfl

theorem allows_congr {s s' : Store} (h : s.SameTrees s') (f : Filesystem) :
    f.allows s' = f.allows s := by
  induction f with
  | memory id => simp [allows, Store.memory, h.memories]
  | probed p inner ih => exact ih
  | _ => rfl

theorem CleanTree.congr {s s' : Store} (h : s.SameTrees s') {f : Filesystem}
    (hf : f.CleanTree s) : f.CleanTree s' := by
  induction f with
  | memory id => simpa [CleanTree, Store.memory, h.memories] using hf
  | archive id => simpa [CleanTree, Store.archive, h.archives] using hf
  | probed p inner ih => exact ih hf
  | _ => exact hf.elim

variable {f : Filesystem} {s : Store}

theorem CleanTree.outline_clean (h : f.CleanTree s) : (f.outline s).Clean := by
  induction f with
  | memory id => exact Memory.Tree.outline_clean h
  | archive id => exact Archive.outline_clean h
  | probed p inner ih => exact ih h
  | _ => exact h.elim

theorem CleanTree.operations (P : Provider Store Filesystem Entry Stream) (h : f.CleanTree s) :
    f.operations P s = f.allows s := by
  induction f with
  | memory id => rfl
  | archive id => rfl
  | probed p inner ih => exact ih h
  | _ => exact h.elim

theorem CleanTree.root (h : f.CleanTree s) : f.root = f.entryAt "" := by
  induction f with
  | memory id => rfl
  | archive id => rfl
  | probed p inner ih => exact congrArg (Entry.probed p) (ih h)
  | _ => exact h.elim

theorem CleanTree.path_entryAt (h : f.CleanTree s) (path : String) :
    (f.entryAt path).path = path := by
  induction f with
  | memory id => rfl
  | archive id => rfl
  | probed p inner ih => exact ih h
  | _ => exact h.elim

theorem CleanTree.kind_entryAt (h : f.CleanTree s) (path : String) :
    (f.entryAt path).kind s = (f.outline s).kind path := by
  induction f with
  | memory id => rfl
  | archive id => rfl
  | probed p inner ih => exact ih h
  | _ => exact h.elim

/-- The entries of such a filesystem are handles on the paths of its tree. -/
theorem Has.exists_entryAt {e : Entry} (he : f.Has e) (h : f.CleanTree s) :
    ∃ path, e = f.entryAt path := by
  induction he with
  | memory id path => exact ⟨path, rfl⟩
  | archive id path => exact ⟨path, rfl⟩
  | probed p _ ih =>
      obtain ⟨path, rfl⟩ := ih h
      exact ⟨path, rfl⟩
  | _ => exact h.elim

/-! ## Looking up -/

theorem exec_child_root (P : Provider Store Filesystem Entry Stream) (h : f.CleanTree s)
    (path : String) :
    (f.root.child P path).exec s = (((f.outline s).find path).map (·.map f.entryAt), s) := by
  induction f with
  | memory id =>
      have hc : (s.memory id).child "" path = (s.memory id).outline.find path := rfl
      simp only [Filesystem.root, Entry.child, outline]
      simp only [exec_bind, exec_get, exec_ofExcept, hc]
      cases (s.memory id).outline.find path <;> rfl
  | archive id =>
      have hc : (s.archive id).child "" path = (s.archive id).outline.find path := rfl
      simp only [Filesystem.root, Entry.child, outline]
      simp only [exec_bind, exec_get, exec_ofExcept, hc]
      cases (s.archive id).outline.find path <;> rfl
  | probed p inner ih =>
      simp only [Filesystem.root, Entry.child, outline]
      simp only [exec_bind, ih h]
      rcases (inner.outline s).find path with _ | _ | _ <;> rfl
  | _ => exact h.elim

/-- A filesystem that looks paths up in a clean outline: a clean path leads to the handle on it, or
nowhere. -/
theorem exec_resolve_of_child {P : Provider Store Filesystem Entry Stream} {t : Outline}
    {handle : String → Entry} (hc : t.Clean) (hroot : P.root f = handle "") {path : String}
    (hp : Path.Clean path) (hkind : P.kind (handle path) s = t.kind path)
    (hchild : path ≠ "" →
      (P.child (P.root f) path).exec s = ((t.find path).map (·.map handle), s)) :
    (P.resolve f path).exec s =
      (.ok (if (t.kind path).exists? then some (handle path) else none), s) := by
  have hn : ∀ m ∈ Path.components path, Path.IsName m := fun m hm => hp.isName hm
  unfold Provider.resolve
  by_cases h0 : path = ""
  · subst h0
    simp [hroot, hc.root, Kind.exists?]
  · have hfind := Outline.find_eq (t := t) hn (hp.components_ne_nil h0)
    rw [hp.ofNames_components] at hfind
    cases he : (t.kind path).exists? with
    | true =>
        rw [← hp.ofNames_components, ← List.nil_append (Path.components path)] at he
        have := Outline.descend_of_exists hc hn he
        rw [List.nil_append, hp.ofNames_components] at he this
        rw [← hfind] at this
        simp [h0, hchild h0, this, hkind, he, Except.map]
    | false =>
        rw [← hp.ofNames_components, ← List.nil_append (Path.components path)] at he
        have := Outline.descend_of_not_exists hn he
        rw [List.nil_append, hp.ofNames_components] at he
        rw [← hfind] at this
        rcases this with hr | ⟨q, hr⟩ <;> simp [h0, hchild h0, hr, Except.map]

/-- The directory at a path, from what the path leads to. -/
theorem exec_resolveDirectory_of_resolve {P : Provider Store Filesystem Entry Stream} {t : Outline}
    {handle : String → Entry} {path : String} (hkind : P.kind (handle path) s = t.kind path)
    (hresolve : (P.resolve f path).exec s =
      (.ok (if (t.kind path).exists? then some (handle path) else none), s)) :
    (P.resolveDirectory f path).exec s =
      (.ok (if t.kind path = .directory then some (handle path) else none), s) := by
  unfold Provider.resolveDirectory
  simp only [exec_bind, hresolve]
  cases hk : t.kind path <;> simp [Kind.exists?, hkind, hk, Kind.isDirectory]

/-- A clean path leads to the handle on it, or nowhere. -/
theorem exec_resolve (n : Nat) (h : f.CleanTree s) {path : String} (hp : Path.Clean path) :
    ((Store.provider (n + 1)).resolve f path).exec s =
      (.ok (if ((f.outline s).kind path).exists? then some (f.entryAt path) else none), s) :=
  exec_resolve_of_child h.outline_clean h.root hp (h.kind_entryAt path) fun _ =>
    exec_child_root _ h path

/-- The directory at a clean path, if there is one. -/
theorem exec_resolveDirectory (n : Nat) (h : f.CleanTree s) {path : String}
    (hp : Path.Clean path) :
    ((Store.provider (n + 1)).resolveDirectory f path).exec s =
      (.ok (if (f.outline s).kind path = .directory then some (f.entryAt path) else none), s) :=
  exec_resolveDirectory_of_resolve (h.kind_entryAt path) (f.exec_resolve n h hp)

/-! ## Listing -/

/-- The entries of a directory are the handles on the paths below it. -/
theorem exec_children (n : Nat) (h : f.CleanTree s) {path : String} (hr : f.canRead s = true)
    (hd : (f.outline s).kind path = .directory) :
    ((Store.provider (n + 1)).children (f.entryAt path)).exec s =
      (.ok (((f.outline s).below path).map f.entryAt), f.afterListing s) := by
  show (Entry.children _ (f.entryAt path)).exec s = _
  induction f generalizing s with
  | memory id =>
      have hl : (s.memory id).children path = .ok ((s.memory id).outline.below path) := by
        have hk : (s.memory id).kind path = .directory := hd
        have ho : (s.memory id).operations.covers (.only .read) = true := hr
        simp [Memory.children, Memory.require, ho, Memory.requireDirectory, hk, Kind.isDirectory,
          bind, Except.bind, pure, Except.pure, Memory.Tree.childPaths, Memory.outline,
          Memory.Tree.outline, Outline.below]
      simp only [entryAt, Entry.children, Entry.ofPaths]
      simp [hl, outline, afterListing]
  | archive id =>
      have hl : (s.archive id).children path = .ok ((s.archive id).outline.below path) := by
        have hk : (s.archive id).kind path = .directory := hd
        rw [Archive.children, hk, if_pos (by rfl)]
        refine congrArg Except.ok (List.filter_congr ?_)
        intro p hp
        simp [((show (s.archive id).index.Clean from h) p hp).1]
      simp only [entryAt, Entry.children, Entry.ofPaths]
      simp [hl, outline, afterListing]
  | probed p inner ih =>
      have ht := s.sameTrees_countList p
      have hi := ih (s := s.countList p) (CleanTree.congr ht h)
        (by rw [canRead, allows_congr ht]; exact hr) (by rw [outline_congr ht]; exact hd)
      rw [outline_congr ht] at hi
      simp only [entryAt, Entry.children]
      simp only [exec_bind, Store.exec_countList, hi]
      simp [outline, afterListing, List.map_map, Function.comp_def]
  | _ => exact h.elim

end Filesystem

end Strata
