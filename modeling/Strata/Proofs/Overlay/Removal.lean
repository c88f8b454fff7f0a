/-
# `Strata.Proofs.Overlay.Removal` — what a deletion through a union removes

A union deletes a name from the directory of a path in each layer that can delete.
A layer that fails by its own fault is passed over, and no layer is left out after
it: what is gone afterwards is the path of the name, and all below it, in the memory
filesystem of each layer that could be asked, and nothing else anywhere
(`delete_removes`).
-/
import Strata.Proofs.Memory.OneName
import Strata.Proofs.Overlay.Changes
import Strata.Proofs.Overlay.Origins
import Strata.Proofs.Store.Backing

namespace Strata

open Strata.Action Strata.Path

namespace Store

/-- The store without a path, and what lies below it, in a memory filesystem. -/
def prune (s : Store) (id : Nat) (top : String) : Store :=
  s.setMemory id { s.memory id with tree := (s.memory id).tree.removeWithin top }

variable {s : Store} {id : Nat} {path name : String}

theorem memory_prune (h : (s.memory id).tree.Clean) (hp : Path.Clean path) (hname : IsName name)
    (j : Nat) :
    (s.prune id (join path name)).memory j =
      if j = id then { s.memory j with tree := (s.memory j).tree.removeWithin (join path name) }
      else s.memory j := by
  rw [prune, memory_setMemory]
  by_cases hj : j = id
  · subst hj
    by_cases hid : j < s.memories.size
    · simp [hid]
    · -- a filesystem that is not in the store has nothing to remove
      have hn : ∀ n ∈ components path ++ [name], IsName n :=
        forall_mem_snoc (fun _ => hp.isName) hname
      have hmiss : (s.memory j).tree.kind (ofNames (components path ++ [name])) = .unknown := by
        by_contra hk
        exact hid (lt_of_exists (fun n hm => (hn n hm).1) (by simp) (Kind.exists?_iff.mpr hk))
      have hsame := h.removeWithin_of_missing hn hmiss
      rw [← hp.join_eq_snoc hname] at hsame
      simp [hid, hsame]
  · simp [hj]

/-- The stores differ in a path and below it, in these memory filesystems. -/
structure Pruned (s s' : Store) (ids : Nat → Prop) (top : String) : Prop where
  others : s' = { s with memories := s'.memories }
  gone : ∀ id, ids id →
    s'.memory id = { s.memory id with tree := (s.memory id).tree.removeWithin top }
  kept : ∀ id, ¬ ids id → s'.memory id = s.memory id

end Store

namespace Filesystem

/-- The filesystem can delete, and no call fails that deleting from the directory at the path makes
on it. -/
structure Deletes (s : Store) (path : String) (f : Filesystem) (id : Nat) : Prop where
  memory : f.memory? = some id
  allowed : (s.memory id).operations.covers (.only .delete) = true
  child : path ≠ "" → f.childFault = none
  delete : (s.memory id).kind path = .directory → f.deleteFault = none

end Filesystem

namespace Overlay

variable {s : Store} {f : Filesystem} {id : Nat} {path name : String}

section
variable (n : Nat) (h : f.Backed s id) (hp : Path.Clean path) (hname : IsName name)
include h hp

include hname

/-- A layer that can delete and does not fail removes the path of the name, and tells whether
something was there. -/
theorem exec_deleteInLayer_of_deletes (hd : f.Deletes s path id) :
    (deleteInLayer (Store.provider (n + 1)) path name f).exec s =
      (.ok ((s.memory id).kind (join path name)).exists?, s.prune id (join path name)) := by
  rw [deleteInLayer]
  simp only [exec_bind, f.exec_resolveDirectory_handle n h hp hd.child]
  by_cases hk : (s.memory id).kind path = .directory
  · have hdelete : ((Store.provider (n + 1)).delete (f.handle path) name).exec s = _ :=
      f.exec_delete_handle (Store.provider n) h.memory path name
    simp only [if_pos hk, hdelete, hd.delete hk, Store.exec_inMemory,
      Memory.exec_delete_name h.clean hp hd.allowed hk hname]
    rfl
  · have hmiss := h.clean.missing_of_not_directory hp hname hk
    have hgone := h.clean.removeWithin_of_missing (forall_mem_snoc (fun _ => hp.isName) hname) hmiss
    rw [hp.join_eq_snoc hname, Store.prune, hgone, Store.setMemory_self,
      show (s.memory id).kind (ofNames (components path ++ [name])) = .unknown from hmiss]
    simp only [if_neg hk, exec_pure]
    rfl

omit hname in
/-- A layer that can delete but fails then does so by its own fault, and removes nothing. -/
theorem exec_deleteInLayer_of_fault (name : String)
    (hfault : ∀ e, f.childFault = some e ∨ f.deleteFault = some e → e.isFilesystem = true)
    (hallow : (s.memory id).operations.covers (.only .delete) = true) (hd : ¬ f.Deletes s path id) :
    ∃ e, e.isFilesystem = true ∧
      (deleteInLayer (Store.provider (n + 1)) path name f).exec s = (.error e, s) := by
  rw [deleteInLayer]
  by_cases hchild : path ≠ "" → f.childFault = none
  · -- the lookup succeeds, so it is the deletion that fails
    obtain ⟨hk, e, he⟩ : (s.memory id).kind path = .directory ∧ ∃ e, f.deleteFault = some e := by
      by_contra hno
      refine hd ⟨h.memory, hallow, hchild, fun hk => ?_⟩
      exact Option.eq_none_iff_forall_ne_some.mpr fun e he => hno ⟨hk, e, he⟩
    have hdelete : ((Store.provider (n + 1)).delete (f.handle path) name).exec s = _ :=
      f.exec_delete_handle (Store.provider n) h.memory path name
    simp only [exec_bind, f.exec_resolveDirectory_handle n h hp hchild, if_pos hk, hdelete, he]
    exact ⟨e, hfault e (.inr he), rfl⟩
  · obtain ⟨h0, hne⟩ := Classical.not_imp.mp hchild
    obtain ⟨e, he⟩ := Option.ne_none_iff_exists'.mp hne
    have hfs := hfault e (.inl he)
    have hother : ∀ q, e ≠ .notADirectory q := by
      rintro q rfl
      cases hfs
    simp only [exec_bind, f.exec_resolveDirectory_of_fault n h.memory h0 he hother]
    exact ⟨e, hfs, rfl⟩

end

/-! ## All layers -/

theorem prune_memory_operations (h : (s.memory id).tree.Clean) (hp : Path.Clean path)
    (hname : IsName name) (j : Nat) :
    ((s.prune id (join path name)).memory j).operations = (s.memory j).operations ∧
      ((s.prune id (join path name)).memory j).kind path = (s.memory j).kind path := by
  rw [Store.memory_prune h hp hname]
  split
  · refine ⟨rfl, ?_⟩
    have := Memory.Tree.kind_removeWithin_ofNames (t := (s.memory j).tree)
      (fun n hm => (hp.isName hm).1)
      (forall_mem_snoc (fun _ => isComponent_of_mem) hname.1 : ∀ n ∈ components path ++ [name], _)
    rw [hp.ofNames_components, ← hp.join_eq_snoc hname, if_neg] at this
    · exact this
    · exact fun hpre => absurd hpre.length_le (by simp)
  · exact ⟨rfl, rfl⟩

theorem deletes_prune (h : (s.memory id).tree.Clean) (hp : Path.Clean path) (hname : IsName name)
    {j : Nat} : f.Deletes (s.prune id (join path name)) path j ↔ f.Deletes s path j := by
  obtain ⟨hops, hkind⟩ := prune_memory_operations h hp hname j
  constructor
  · rintro ⟨hm, hallow, hchild, hdelete⟩
    exact ⟨hm, hops ▸ hallow, hchild, hkind ▸ hdelete⟩
  · rintro ⟨hm, hallow, hchild, hdelete⟩
    exact ⟨hm, hops.symm ▸ hallow, hchild, hkind.symm ▸ hdelete⟩

theorem backed_prune (h : (s.memory id).tree.Clean) (hp : Path.Clean path) (hname : IsName name)
    {j : Nat} (hf : f.Backed s j) : f.Backed (s.prune id (join path name)) j := by
  refine ⟨hf.memory, ?_⟩
  rw [Store.memory_prune h hp hname]
  split
  · rw [hp.join_eq_snoc hname]
    exact hf.clean.removeWithin (forall_mem_snoc (fun _ => hp.isName) hname) (by simp)
  · exact hf.clean

/-- What is at the path after one filesystem was pruned is in another one. -/
theorem exists_prune (h : (s.memory id).tree.Clean) (hp : Path.Clean path) (hname : IsName name)
    (j : Nat) :
    (((s.prune id (join path name)).memory j).kind (join path name)).exists? = true ↔
      j ≠ id ∧ ((s.memory j).kind (join path name)).exists? = true := by
  rw [Store.memory_prune h hp hname]
  by_cases hj : j = id
  · subst hj
    have hgone := (s.memory j).tree.kind_removeWithin (join path name) (join path name)
    rw [if_pos (liesWithin_refl _)] at hgone
    rw [if_pos rfl, Memory.kind, hgone]
    simp [Kind.exists?]
  · simp [hj]

/-- First one filesystem is pruned, and then others. -/
theorem pruned_cons (h : (s.memory id).tree.Clean) (hp : Path.Clean path) (hname : IsName name)
    {s' : Store} {ids ids' : Nat → Prop} (hids : ∀ j, ids' j ↔ j = id ∨ ids j)
    (hrest : (s.prune id (join path name)).Pruned s' ids (join path name)) :
    s.Pruned s' ids' (join path name) := by
  have hfirst := Store.memory_prune h hp hname
  refine ⟨?_, fun j hj => ?_, fun j hj => ?_⟩
  · rw [hrest.others]
    rfl
  · by_cases hrun : ids j
    · rw [hrest.gone j hrun, hfirst]
      split
      · rw [Memory.Tree.removeWithin_removeWithin]
      · rfl
    · rw [hrest.kept j hrun, hfirst, if_pos (((hids j).mp hj).resolve_right hrun)]
  · have hno := not_or.mp (mt (hids j).mpr hj)
    rw [hrest.kept j hno.2, hfirst, if_neg hno.1]

/-- Deleting in all layers never fails, and prunes the filesystem of each layer that can delete and
does not fail. -/
theorem exec_deleteInLayers_exact (n : Nat) (hp : Path.Clean path) (hname : IsName name)
    (layers : List Filesystem) (hs : ∀ f ∈ layers, ∃ id, f.Backed s id)
    (hfault : ∀ f ∈ layers, ∀ e, f.childFault = some e ∨ f.deleteFault = some e →
      e.isFilesystem = true) (acc : Bool) :
    ∃ b s', (deleteInLayers (Store.provider (n + 1)) path name layers acc).exec s = (.ok b, s') ∧
      s.Pruned s' (fun id => ∃ f ∈ layers, f.Deletes s path id) (join path name) ∧
      (b = true ↔ acc = true ∨ ∃ f ∈ layers, ∃ id, f.Deletes s path id ∧
        ((s.memory id).kind (join path name)).exists? = true) := by
  induction layers generalizing s acc with
  | nil => exact ⟨acc, s, rfl, ⟨rfl, by simp, fun _ _ => rfl⟩, by simp⟩
  | cons f rest ih =>
      obtain ⟨id, hf⟩ := hs f (by simp)
      have hlater := fun g hg => hs g (List.mem_cons_of_mem f hg)
      have hfault' := fun g hg => hfault g (List.mem_cons_of_mem f hg)
      have hops : (Store.provider (n + 1)).operations f s = (s.memory id).operations :=
        f.operations_of_memory _ hf.memory
      have hid {j : Nat} (hd : f.Deletes s path j) : j = id :=
        Option.some.inj (hd.memory.symm.trans hf.memory)
      rw [deleteInLayers]
      simp only [exec_bind, exec_get, exec_ite, hops]
      -- a layer that does not delete leaves all to the others
      have pass (hno : ¬ f.Deletes s path id) : ∃ b s',
          (deleteInLayers (Store.provider (n + 1)) path name rest acc).exec s = (.ok b, s') ∧
          s.Pruned s' (fun id => ∃ g ∈ f :: rest, g.Deletes s path id) (join path name) ∧
          (b = true ↔ acc = true ∨ ∃ g ∈ f :: rest, ∃ id, g.Deletes s path id ∧
            ((s.memory id).kind (join path name)).exists? = true) := by
        have hno (j : Nat) : ¬ f.Deletes s path j := fun hd => hno (hid hd ▸ hd)
        obtain ⟨b, s', he, hpruned, hb⟩ := ih hlater hfault' acc
        refine ⟨b, s', he, ?_, ?_⟩
        · simpa [hno] using hpruned
        · simpa [hno] using hb
      by_cases hallow : (s.memory id).operations.covers (.only .delete) = true
      swap
      · simp only [if_neg hallow]
        exact pass fun hd => hallow hd.allowed
      simp only [if_pos hallow, exec_consult]
      by_cases hd : f.Deletes s path id
      swap
      · obtain ⟨e, he, hexec⟩ := exec_deleteInLayer_of_fault n hf hp name (hfault f (by simp))
          hallow hd
        have hmisuse : e.isMisuse = false := by
          rw [Failure.isMisuse_eq_not_isFilesystem, he]
          rfl
        simp only [hexec, hmisuse, Bool.false_eq_true, if_false, Option.getD_none, Bool.or_false]
        exact pass hd
      · simp only [exec_deleteInLayer_of_deletes n hf hp hname hd, Option.getD_some]
        obtain ⟨b, s', he, hpruned, hb⟩ := ih (s := s.prune id (join path name))
          (fun g hg => (hlater g hg).imp fun j hj => backed_prune hf.clean hp hname hj) hfault'
          (acc || ((s.memory id).kind (join path name)).exists?)
        simp only [deletes_prune hf.clean hp hname] at hpruned hb
        refine ⟨b, s', he, pruned_cons hf.clean hp hname (fun j => ?_) hpruned, hb.trans ?_⟩
        · simp only [List.mem_cons, exists_eq_or_imp]
          refine or_congr ⟨hid, ?_⟩ Iff.rfl
          rintro rfl
          exact hd
        · simp only [List.mem_cons, exists_eq_or_imp, Bool.or_eq_true, or_assoc]
          refine or_congr Iff.rfl ?_
          have hgone := exists_prune (s := s) hf.clean hp hname
          constructor
          · rintro (hex | ⟨g, hg, j, hdj, hex⟩)
            · exact .inl ⟨id, hd, hex⟩
            · exact .inr ⟨g, hg, j, hdj, ((hgone j).mp hex).2⟩
          · rintro (⟨j, hdj, hex⟩ | ⟨g, hg, j, hdj, hex⟩)
            · exact .inl (hid hdj ▸ hex)
            · by_cases hj : j = id
              · exact .inl (hj ▸ hex)
              · exact .inr ⟨g, hg, j, hdj, (hgone j).mpr ⟨hj, hex⟩⟩

/-! ## A deletion through a union -/

/-- Deleting a single name in a directory asks the layers, and notes the change if something is
gone. -/
theorem exec_delete_of_name {P : Provider Store Filesystem Entry Stream}
    {w : Store × Overlay Filesystem Entry} {node : Node Entry} (hlive : w.2.released = false)
    (hfold : w.2.fold = false) (hcan : (operations P w.2 w.1).covers (.only .delete) = true)
    (hd : kind P node w.1 = .directory) (hname : IsName name) {b : Bool} {s' : Store}
    (hexec : (deleteInLayers P node.path name w.2.layers false).exec w.1 = (.ok b, s')) :
    (delete P node name).exec w = (.ok b, (s', if b then noted w.2 node.slot else w.2)) := by
  obtain ⟨depth, hdepth⟩ : ∃ depth, (pieces name.toList).length = depth + 1 :=
    Nat.exists_eq_succ_of_ne_zero fun h0 => Text.split_ne_nil _ _ (List.length_eq_zero_iff.mp h0)
  have hsplit : splitHead name = (name, none) := by
    have : splitHead (ofNames [name]) = _ := splitHead_ofNames_cons hname.1
    rwa [ofNames_singleton, if_pos rfl] at this
  rw [delete, hdepth, deleteWithin]
  simp only [exec_bind, exec_requireLive hlive, exec_require, if_pos hcan, requireDirectory,
    exec_get, hd, Kind.isDirectory, beq_self_eq_true, if_true, exec_pure, exec_current, hfold,
    hname.normalize_eq, String.isEmpty_iff, if_neg hname.1.1, exec_ite, hsplit, spelling,
    Bool.false_eq_true, if_false, exec_below, hexec]
  cases b with
  | true => simp only [if_true, exec_noteChange]
  | false => simp only [Bool.false_eq_true, if_false]

/-- The node of a directory has a clean path, whatever was done to the union before. -/
theorem clean_path_of_directory {n : Nat} {layers : List Filesystem} {s : Store} {node : Node Entry}
    (hs : ∀ f ∈ layers, ∃ id, f.Backed s id)
    (horigin : ∀ o ∈ node.offer?, o.Origin (Store.provider (n + 1)) Filesystem.Has layers)
    (hd : kind (Store.provider (n + 1)) node s = .directory) : Path.Clean node.path := by
  cases node with
  | root => exact clean_empty
  | entry child =>
      obtain ⟨⟨f, hf, hhas⟩, hpath⟩ := horigin child.offer rfl
      obtain ⟨id, hback⟩ := hs f (List.mem_of_getElem? hf)
      obtain ⟨p, hsource⟩ := hhas.exists_handle hback.memory
      have hkind : (s.memory id).kind p = .directory := by
        rw [← Filesystem.kind_handle hback.memory p, ← hsource]
        exact hd
      have hp : Path.Clean p := hback.clean.path_clean_of_directory hkind
      have hname : (Store.provider (n + 1)).path child.offer.source = p := by
        rw [hsource]
        exact Filesystem.path_handle hback.memory p
      rw [hname, hp.1] at hpath
      rw [Node.path, hpath]
      exact hp

/-- Whatever was done with a union over memory filesystems, and whichever of their wrappers fail:
deleting a name from a directory succeeds if some layer can delete.  Then nothing is left at the
path of the name, or below it, in a layer that can delete and did not fail; nothing else has changed
in any layer; and the answer tells whether there was something in such a layer. -/
theorem delete_removes {n : Nat} {layers₀ : List Filesystem} {policy : Policy} {s₀ : Store}
    {held : List (Node Entry)} {w : Store × Overlay Filesystem Entry}
    (h : Reaches (Store.provider (n + 1)) (fun _ _ => True) (fun _ _ => True) [.root]
      (s₀, { layers := layers₀, policy := policy }) held w)
    (hs : ∀ f ∈ w.2.layers, ∃ id, f.Backed w.1 id)
    (hfault : ∀ f ∈ w.2.layers, ∀ e, f.childFault = some e ∨ f.deleteFault = some e →
      e.isFilesystem = true)
    (hcan : ∃ f ∈ w.2.layers,
      ((Store.provider (n + 1)).operations f w.1).covers (.only .delete) = true)
    {node : Node Entry} (hnode : node ∈ held)
    (hd : kind (Store.provider (n + 1)) node w.1 = .directory) {name : String}
    (hname : IsName name) :
    ∃ b s' o', (delete (Store.provider (n + 1)) node name).exec w = (.ok b, (s', o')) ∧
      (∀ f ∈ w.2.layers, ∀ id, f.Deletes w.1 node.path id →
        ∀ p, liesWithin p (join node.path name) = true → (s'.memory id).kind p = .unknown) ∧
      (∀ id p, (s'.memory id).tree.find? p ≠ (w.1.memory id).tree.find? p →
        liesWithin p (join node.path name) = true ∧
          ∃ f ∈ w.2.layers, f.Deletes w.1 node.path id) ∧
      (s' = { w.1 with memories := s'.memories } ∧
        ∀ id, s'.memory id = { w.1.memory id with tree := (s'.memory id).tree }) ∧
      (b = true ↔ ∃ f ∈ w.2.layers, ∃ id, f.Deletes w.1 node.path id ∧
        ((w.1.memory id).kind (join node.path name)).exists? = true) := by
  have hsteady := h.steady
  have hp : Path.Clean node.path :=
    clean_path_of_directory hs (h.origin (Store.provider_closed n) node hnode) hd
  have hcovers : (operations (Store.provider (n + 1)) w.2 w.1).covers (.only .delete) = true := by
    rw [operations_covers_only]
    exact List.any_eq_true.mpr hcan
  obtain ⟨b, s', hexec, hpruned, hb⟩ :=
    exec_deleteInLayers_exact n hp hname w.2.layers hs hfault false
  refine ⟨b, s', _, exec_delete_of_name hsteady.released hsteady.fold hcovers hd hname hexec,
    ?_, ?_, ⟨hpruned.others, ?_⟩, by simpa using hb⟩
  · intro f hf id hdel p hin
    rw [hpruned.gone id ⟨f, hf, hdel⟩, Memory.kind, Memory.Tree.kind_removeWithin, if_pos hin]
  · intro id p hne
    by_cases hdel : ∃ f ∈ w.2.layers, f.Deletes w.1 node.path id
    · refine ⟨?_, hdel⟩
      by_contra hin
      refine hne ?_
      rw [hpruned.gone id hdel]
      exact (Memory.Tree.find?_removeWithin _ _ p).trans (if_neg hin)
    · rw [hpruned.kept id hdel] at hne
      exact absurd rfl hne
  · intro id
    by_cases hdel : ∃ f ∈ w.2.layers, f.Deletes w.1 node.path id
    · rw [hpruned.gone id hdel]
    · rw [hpruned.kept id hdel]

/-- Two memory filesystems that hold the same. -/
def twins : Store where
  memories := #[{ tree := ⟨⟨[("", .directory .epoch), ("a", .directory .epoch),
      ("a/b", .file [] .epoch), ("ab", .file [] .epoch)]⟩⟩ },
    { tree := ⟨⟨[("", .directory .epoch), ("a", .directory .epoch),
      ("a/b", .file [] .epoch), ("ab", .file [] .epoch)]⟩⟩ }]

theorem delete_removes_but_where_failing :
    let down : Filesystem := .faulty { delete := some (.backend "down") } (.memory 0)
    let o : Overlay Filesystem Entry := { layers := [down, .memory 1] }
    Reaches (Store.provider 1) (fun _ _ => True) (fun _ _ => True) [.root] (twins, o) [.root]
        (twins, o) ∧
      (∀ f ∈ o.layers, ∃ id, f.Backed twins id) ∧
      (∀ f ∈ o.layers, ∀ e, f.childFault = some e ∨ f.deleteFault = some e →
        e.isFilesystem = true) ∧
      (∃ f ∈ o.layers, ((Store.provider 1).operations f twins).covers (.only .delete) = true) ∧
      kind (Store.provider 1) .root twins = .directory ∧ IsName "a" ∧
      ∃ s' o', (delete (Store.provider 1) .root "a").exec (twins, o) = (.ok true, (s', o')) ∧
        (s'.memory 1).kind "a/b" = .unknown ∧ (s'.memory 1).kind "ab" = .file ∧
        (s'.memory 0).kind "a/b" = .file := by
  intro down o
  have hs : ∀ f ∈ o.layers, ∃ id, f.Backed twins id := by
    simp only [o, List.forall_mem_cons]
    exact ⟨⟨0, rfl, by decide⟩, ⟨1, rfl, by decide⟩, by simp⟩
  have hfault : ∀ f ∈ o.layers, ∀ e, f.childFault = some e ∨ f.deleteFault = some e →
      e.isFilesystem = true := by
    simp only [o, List.forall_mem_cons]
    refine ⟨fun e he => ?_, fun e he => ?_, by simp⟩
    · rcases he with he | he <;> cases he
      rfl
    · rcases he with he | he <;> cases he
  have hcan : ∃ f ∈ o.layers,
      ((Store.provider 1).operations f twins).covers (.only .delete) = true :=
    ⟨.memory 1, by simp [o], by decide⟩
  have ha : IsName "a" := by decide
  obtain ⟨b, s', o', he, hgone, hkept, -, hb⟩ :=
    delete_removes .start hs hfault hcan (List.mem_singleton_self Node.root) rfl ha
  have hone : (Filesystem.memory 1).Deletes twins "" 1 := ⟨rfl, by decide, by simp, fun _ => rfl⟩
  have hdown (id : Nat) : ¬ down.Deletes twins "" id := by
    rintro ⟨hm, -, -, hd⟩
    cases hm
    cases hd (by decide)
  have hb : b = true := hb.mpr ⟨.memory 1, by simp, 1, hone, by decide⟩
  subst hb
  refine ⟨.start, hs, hfault, hcan, rfl, ha, s', o', he,
    hgone (.memory 1) (by simp) 1 hone "a/b" (by decide), ?_, ?_⟩
  · have h : (s'.memory 1).tree.find? "ab" = (twins.memory 1).tree.find? "ab" := by
      by_contra hne
      exact absurd (hkept 1 "ab" hne).1 (by decide)
    rw [Memory.kind, Memory.Tree.kind, h]
    decide
  · have h : (s'.memory 0).tree.find? "a/b" = (twins.memory 0).tree.find? "a/b" := by
      by_contra hne
      obtain ⟨f, hf, hd⟩ := (hkept 0 "a/b" hne).2
      rcases List.mem_pair.mp hf with rfl | rfl
      · exact hdown 0 hd
      · cases hd.memory
    rw [Memory.kind, Memory.Tree.kind, h]
    decide

end Overlay

end Strata
