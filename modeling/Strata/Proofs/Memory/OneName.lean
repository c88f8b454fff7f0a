/-
# `Strata.Proofs.Memory.OneName` — making and removing an entry of a directory

With a single name, a call on a directory of a clean tree concerns one place: the
path of the name.  What the call answers and what it leaves behind depends on what
is there, and can be said exactly: a new node is put there, or what is there stays,
or it goes with all below it.  So it is with a move into a directory that is there
(`exec_rename_of_movable`).
-/
import Strata.Proofs.Memory.Changes

namespace Strata.Memory

open Strata.Action Strata.Path

variable {m : Memory} {path name : String}

/-- Below a path where nothing is there is nothing to remove. -/
theorem Tree.Clean.removeWithin_of_missing {t : Tree} (h : t.Clean) {ns : List String}
    (hn : ∀ n ∈ ns, IsName n) (hmiss : t.kind (ofNames ns) = .unknown) :
    t.removeWithin (ofNames ns) = t := by
  have hkeep : ∀ e ∈ t.nodes.entries, (!liesWithin e.1 (ofNames ns)) = true := by
    intro e he
    have hmem : e.1 ∈ t.paths := List.mem_map.mpr ⟨e, he, rfl⟩
    have hpresent := (t.exists?_kind e.1).mpr hmem
    have hc : ∀ n ∈ ns, IsComponent n := fun n hm => (hn n hm).1
    by_contra hin
    rw [Bool.not_eq_true', Bool.not_eq_false] at hin
    have hp : Path.Clean e.1 := h.path_clean hpresent
    rw [← hp.ofNames_components, liesWithin_ofNames (fun n hm => (hp.isName hm).1) hc] at hin
    obtain ⟨ks, hks⟩ := hin
    have hbelow := h.missing_of_append (hks ▸ fun n hm => hp.isName hm) hmiss
    rw [hks, hp.ofNames_components] at hbelow
    rw [hbelow] at hpresent
    cases hpresent
  rw [Tree.removeWithin, Table.keep, List.filter_eq_self.mpr hkeep]

theorem Tree.removeWithin_removeWithin (t : Tree) (top : String) :
    (t.removeWithin top).removeWithin top = t.removeWithin top := by
  simp [Tree.removeWithin, Table.keep, List.filter_filter]

theorem Tree.Clean.removeWithin_name {t : Tree} (h : t.Clean) (hname : IsName name) :
    (t.removeWithin name).Clean := by
  have hn : ∀ n ∈ [name], IsName n := by simp [hname]
  have hgone := h.removeWithin hn (List.cons_ne_nil _ _)
  rwa [ofNames_singleton] at hgone

theorem Tree.Clean.removeWithin_missing_name {t : Tree} (h : t.Clean) (hname : IsName name)
    (hmiss : t.kind name = .unknown) : t.removeWithin name = t := by
  have hn : ∀ n ∈ [name], IsName n := by simp [hname]
  rw [← ofNames_singleton name] at hmiss ⊢
  exact h.removeWithin_of_missing hn hmiss

/-- Nothing lies below what is not a directory. -/
theorem Tree.Clean.missing_of_not_directory {t : Tree} (h : t.Clean) (hp : Path.Clean path)
    (hname : IsName name) (hd : t.kind path ≠ .directory) :
    t.kind (ofNames (components path ++ [name])) = .unknown := by
  by_contra hk
  have hc : ∀ n ∈ components path ++ [name], IsComponent n :=
    forall_mem_snoc (fun _ => isComponent_of_mem) hname.1
  have := (Tree.outline_clean h).directory_of_snoc hc (Kind.exists?_iff.mpr hk)
  rw [hp.ofNames_components] at this
  exact hd this

/-- Deleting a name in a directory removes what is there, and answers whether something was. -/
theorem exec_delete_name (h : m.tree.Clean) (hp : Path.Clean path)
    (hops : m.operations.covers (.only .delete) = true) (hd : m.kind path = .directory)
    (hname : IsName name) :
    (delete path name).exec m =
      (.ok (m.kind (join path name)).exists?,
        { m with tree := m.tree.removeWithin (join path name) }) := by
  have hnorm := hname.normalize_eq
  obtain ⟨hno, -⟩ | ⟨-, -, hmiss, he⟩ | ⟨-, -, -, hpresent, he⟩ := delete_cases m path name
  · exact absurd ⟨hops, hd⟩ hno
  · have hmiss := hmiss.resolve_left fun h0 => hname.1.1 (hnorm.symm.trans h0)
    have hjoin := hp.join_eq_snoc hname
    have hgone : m.tree.removeWithin (join path name) = m.tree := by
      rw [hjoin] at hmiss ⊢
      exact h.removeWithin_of_missing (forall_mem_snoc (fun _ => hp.isName) hname) hmiss
    rw [he, hmiss, hgone]
    rfl
  · rw [he, hpresent]

/-- The walk along directories that are there makes nothing. -/
theorem exec_ensureFrom_present (now : Timestamp) (kind : Kind) {t : Tree} {done rest : List String}
    {x : String} (hn : ∀ n ∈ done ++ rest ++ [x], IsName n)
    (hd : ∀ ms, ms <+: rest → t.kind (ofNames (done ++ ms)) = .directory) :
    (Tree.ensureFrom now (ofNames (done ++ rest ++ [x])) kind (ofNames done) (rest ++ [x])).exec t
      = (Tree.ensureFrom now (ofNames (done ++ rest ++ [x])) kind (ofNames (done ++ rest))
          [x]).exec t := by
  induction rest generalizing done with
  | nil => simp
  | cons c rest ih =>
      have hc : t.kind (ofNames (done ++ [c])) = .directory := hd [c] ⟨rest, rfl⟩
      have hassoc : done ++ c :: rest ++ [x] = done ++ [c] ++ rest ++ [x] := by simp
      have hfirst := Tree.exec_ensureFrom_cons now kind
        (show ∀ m ∈ done ++ [c] ++ (rest ++ [x]), IsName m by simpa using hn) t
      cases hf : t.find? (ofNames (done ++ [c])) with
      | none =>
          rw [Tree.kind_eq_unknown.mpr hf] at hc
          cases hc
      | some node =>
          have hnode : node.kind = .directory := by
            rw [← hc, Tree.kind, hf]
          have hif : (if rest ++ [x] = [] then kind else .directory) = .directory :=
            if_neg (by simp)
          rw [hf] at hfirst
          simp only [hif, hnode, if_true] at hfirst
          have hrest := ih (hassoc ▸ hn) fun ms hms => by
            have := hd (c :: ms) (List.cons_prefix_cons.mpr ⟨rfl, hms⟩)
            rwa [List.append_cons] at this
          rw [List.append_assoc done, List.cons_append, hfirst]
          simp only [List.append_assoc, List.cons_append, List.nil_append] at hrest ⊢
          exact hrest

/-- Creating a name in a directory puts a new node there, finds one of the kind, or is in conflict
with one of another kind. -/
theorem exec_create_name (now : Timestamp) (h : m.tree.Clean) (hp : Path.Clean path)
    (hops : m.operations.covers (.only .create) = true) {kind : Kind}
    (hk : kind.isCreatable = true) (hd : m.kind path = .directory) (hname : IsName name) :
    (create now path kind name).exec m =
      if m.kind (join path name) = .unknown then
        (.ok (join path name), { m with tree := m.tree.put (join path name) (.empty kind now) })
      else if m.kind (join path name) = kind then (.ok (join path name), m)
      else (.error (.conflict (join path name)), m) := by
  have h0 : normalize name false ≠ "" := by
    rw [hname.normalize_eq]
    exact hname.1.1
  obtain ⟨hno, -⟩ | ⟨-, -, -, -, r, t, hensure, he⟩ := create_cases m now path kind name
  · exact absurd ⟨hops, hk, hd, h0⟩ hno
  have hn : ∀ n ∈ components path ++ [name], IsName n :=
    forall_mem_snoc (fun _ => hp.isName) hname
  have hdir : ∀ ms, ms <+: components path → m.tree.kind (ofNames ([] ++ ms)) = .directory := by
    intro ms hms
    exact h.directory_of_prefix (fun _ => hp.isName)
      (show m.kind _ = _ by rw [hp.ofNames_components]; exact hd) hms
  rw [hp.join_eq_snoc hname] at hensure he ⊢
  have hwalk := exec_ensureFrom_present now kind hn hdir
  rw [List.nil_append] at hwalk
  rw [Tree.ensure, components_ofNames fun n hm => (hn n hm).1, ← ofNames_nil, hwalk,
    Tree.exec_ensureFrom_cons now kind (by simpa using hn)] at hensure
  rw [he]
  cases hf : m.tree.find? (ofNames (components path ++ [name])) with
  | none =>
      rw [hf] at hensure
      obtain ⟨rfl, rfl⟩ := Prod.mk.inj hensure
      have hmiss : m.kind (ofNames (components path ++ [name])) = .unknown :=
        Tree.kind_eq_unknown.mpr hf
      rw [if_pos hmiss]
      rfl
  | some node =>
      have hnode : m.kind (ofNames (components path ++ [name])) = node.kind := by
        rw [Memory.kind, Tree.kind, hf]
      have hne : node.kind ≠ .unknown := by
        cases node with
        | directory mtime => simp [Node.kind]
        | file data mtime => simp [Node.kind]
      rw [hf] at hensure
      simp only [if_true] at hensure
      rw [hnode, if_neg hne]
      by_cases hsame : node.kind = kind
      · rw [if_pos hsame] at hensure ⊢
        obtain ⟨rfl, rfl⟩ := Prod.mk.inj hensure
        rfl
      · rw [if_neg hsame] at hensure ⊢
        obtain ⟨rfl, rfl⟩ := Prod.mk.inj hensure
        rfl

/-- To make a directory that is there makes nothing. -/
theorem exec_ensure_present (now : Timestamp) {t : Tree} (h : t.Clean) {ns : List String}
    (hn : ∀ n ∈ ns, IsName n) (hd : t.kind (ofNames ns) = .directory) :
    (Tree.ensure now (ofNames ns) .directory).exec t = (.ok (), t) := by
  have hcomp : ∀ n ∈ ns, IsComponent n := fun n hm => (hn n hm).1
  rw [Tree.ensure, components_ofNames hcomp]
  rcases List.eq_nil_or_concat' ns with rfl | ⟨qs, x, rfl⟩
  · rfl
  have hway : ∀ ms, ms <+: qs → t.kind (ofNames ([] ++ ms)) = .directory := fun ms hms =>
    h.directory_of_prefix hn hd (hms.trans (List.prefix_append qs [x]))
  have hwalk := exec_ensureFrom_present now .directory hn hway
  rw [List.nil_append] at hwalk
  rw [← ofNames_nil, hwalk, Tree.exec_ensureFrom_cons now .directory (by simpa using hn)]
  rw [Tree.kind] at hd
  cases hf : t.find? (ofNames (qs ++ [x])) with
  | none =>
      rw [hf] at hd
      cases hd
  | some node =>
      rw [hf] at hd
      simp only [if_true]
      rw [if_pos hd]
      rfl

/-- What can be moved is moved where both may be done that moving takes. -/
theorem exec_rename_of_movable (now : Timestamp)
    (hops : m.operations.covers (.only .delete ∪ .only .create) = true) {ps qs : List String}
    {x : String} (h : m.tree.Movable ps qs x) :
    (rename now (ofNames ps) (ofNames (qs ++ [x]))).exec m
      = (.ok (), { m with tree := m.tree.moveWithin (ofNames ps) (ofNames (qs ++ [x])) }) := by
  have hpresent : (m.kind (ofNames ps)).exists? = true := h.present
  have hfree : ¬ (m.kind (ofNames (qs ++ [x]))).exists? = true := fun hex =>
    Kind.exists?_iff.mp hex h.free
  have hin :
      ¬ (ofNames (qs ++ [x]) = "" ∨ liesWithin (ofNames (qs ++ [x])) (ofNames ps) = true) := by
    rw [liesWithin_ofNames (fun n hn => (h.target n hn).1) fun n hn => (h.source n hn).1]
    exact not_or.mpr ⟨h.target_ne, h.outside⟩
  have hqs : ∀ n ∈ qs, IsName n := fun n hn => h.target n (List.mem_append_left _ hn)
  have hensure := exec_ensure_present now h.clean hqs h.parent
  rw [rename, normalize_ofNames h.target]
  simp only [exec_bind, exec_get, exec_ofExcept, require, if_pos hops, String.isEmpty_iff,
    if_neg h.source_ne, Bool.or_eq_true, if_neg hin, if_pos hpresent, if_neg hfree,
    parent?_ofNames_snoc (h.target x (by simp)).1]
  by_cases h0 : qs = []
  · simp only [if_pos h0, exec_modify]
  · simp only [if_neg h0, exec_bind, exec_onTree, hensure, exec_modify]

end Strata.Memory
