/-
# `Strata.Proofs.Host.Resolving` — what the check of a path says

A path that passes the check stands on the disk for its names below the root's
(`resolve_spec`).  None of them is a dot or two dots, and if they lead to
something on the disk, this is the root or lies below it.  Where they lead to
nothing the check says no more: then a link on the way may lead out of the root.
-/
import Strata.Host.Basic
import Strata.Proofs.Disk.Calls

namespace Strata.Host

open Strata.Path Disk

variable {h : Host} {d d' : Disk} {r loc : Location} {ns : List String} {path full : String}

/-! ## Names along a path text -/

theorem components_eq (text : String) : components text = (piecesOf text).filter (· ≠ "") := by
  rw [components, Path.names, piecesOf, List.filter_map]
  refine congrArg (List.map String.ofList) (List.filter_congr fun n _ => ?_)
  cases n <;> simp

theorem namesAlong_textOf (hns : ∀ n ∈ ns, IsFileName n) : namesAlong (textOf ns) = ns := by
  by_cases hne : ns = []
  · subst hne
    decide
  · have hcomponents : components (textOf ns) = ns := by
      rw [components_eq, piecesOf_textOf hns hne, List.filter_cons_of_neg (by simp)]
      exact List.filter_eq_self.mpr fun n hn => by simpa using (hns n hn).1.1
    rw [namesAlong, hcomponents]
    exact List.filter_eq_self.mpr fun n hn => by simpa using (hns n hn).2.1

/-- Whether a canonical path lies under another one is told by the locations that they name. -/
theorem isUnder_textOf (hloc : ∀ n ∈ loc, IsFileName n) (hr : ∀ n ∈ r, IsFileName n) :
    isUnder (textOf loc) (textOf r) ↔ r <+: loc := by
  rw [isUnder, namesAlong_textOf hloc, namesAlong_textOf hr, List.isPrefixOf_iff_prefix]

theorem isAbsolute_ofNames (hns : ∀ n ∈ ns, IsComponent n) : isAbsolute (ofNames ns) = false := by
  cases ns with
  | nil => decide
  | cons n ns =>
    have hn := hns n List.mem_cons_self
    rw [isAbsolute, ofNames, String.toList_ofList, List.map_cons, head?_joinNames hn.toList_ne_nil]
    simpa using fun he : n.toList.head? = some '/' => hn.2 (List.mem_of_mem_head? he)

theorem getLast?_textOf (hr : ∀ n ∈ r, IsFileName n) (hne : r ≠ []) :
    (textOf r).toList.getLast? ≠ some '/' := by
  obtain ⟨front, last, rfl⟩ := (List.eq_nil_or_concat' r).resolve_left hne
  have hlast := (hr last (by simp)).1
  have hend : (joinNames ((front ++ [last]).map String.toList)).getLast? = last.toList.getLast? := by
    rw [List.map_append]
    exact getLast?_joinNames hlast.toList_ne_nil
  rw [toList_textOf, List.getLast?_cons, hend]
  intro he
  cases hc : last.toList.getLast? with
  | none => exact hlast.toList_ne_nil (List.getLast?_eq_none_iff.mp hc)
  | some c =>
    obtain rfl : c = '/' := by simpa [hc] using he
    exact hlast.2 (List.mem_of_getLast? hc)

/-- A path below the root is the text of the root's names and its own. -/
theorem below_textOf (hr : ∀ n ∈ r, IsFileName n) (hns : ∀ n ∈ ns, IsComponent n) (hne : ns ≠ []) :
    below (textOf r) (ofNames ns) = textOf (r ++ ns) := by
  rw [below, isAbsolute_ofNames hns, isEmpty_textOf]
  refine String.toList_inj.mp ?_
  by_cases h0 : r = []
  · subst h0
    simp [toList_textOf, ofNames, joinNames, separator]
  · rw [if_neg (by simp), if_neg (by simpa using getLast?_textOf hr h0)]
    rw [toList_textOf, List.map_append, joinNames_append (by simpa using h0) (by simpa using hne)]
    simp [toList_textOf, ofNames, separator]

/-! ## The check -/

/-- The filesystem serves the directory `r` of the disk. -/
structure Rooted (h : Host) (d : Disk) (r : Location) : Prop where
  tree : d.IsTree
  root : h.root = textOf r
  found : d.locate true (textOf r) = .ok r
  directory : d.item? r = some .directory

/-- A canonical path of a directory is the root of the filesystem there. -/
theorem rooted_of_canonical (hd : d.IsTree) (hroot : d.canonical h.root = .ok h.root)
    (hdir : (d.kindAt h.root).isDirectory) : ∃ r, h.Rooted d r := by
  obtain ⟨r, hfound, -, htext⟩ := canonical_eq_ok.mp hroot
  obtain ⟨loc, hloc, hdirectory⟩ := kindAt_isDirectory.mp hdir
  obtain rfl : loc = r := by
    rw [hfound] at hloc
    exact (Except.ok.inj hloc).symm
  exact ⟨loc, hd, htext.symm, by rwa [htext], hdirectory⟩

/-- What is contained in the root leaves it the root. -/
theorem Rooted.keep (hr : h.Rooted d r) (hc : Contained r d d') : h.Rooted d' r := by
  have hdir : d'.item? r = some .directory := by
    rw [hc.item r fun hin => hin.2 rfl, hr.directory]
  exact ⟨hc.tree, hr.root, locate_directory hr.tree hc.tree hr.directory hdir hr.found, hdir⟩

/-- The names of the root and of what is below it are names of entries. -/
theorem Rooted.isFileName (hr : h.Rooted d r) (hns : ∀ n ∈ ns, IsFileName n) :
    ∀ n ∈ r ++ ns, IsFileName n :=
  List.forall_mem_append.mpr ⟨hr.tree.isFileName hr.directory, hns⟩

theorem checkComponents_eq_ok {cs : List String} (hc : checkComponents path cs = .ok ()) :
    ∀ c ∈ cs, c ≠ "." ∧ c ≠ ".." := by
  induction cs with
  | nil => simp
  | cons c cs ih =>
    rw [checkComponents] at hc
    split at hc
    · cases hc
    split at hc
    · cases hc
    · exact List.forall_mem_cons.mpr ⟨⟨‹_›, ‹_›⟩, ih hc⟩

/-- A path that passes stands for its names below the root's, and if they lead to something, this
is the root or lies below it. -/
theorem resolve_spec (hr : h.Rooted d r) (hns : ∀ n ∈ ns, IsComponent n)
    (hres : h.resolve d (ofNames ns) = .ok full) :
    full = textOf (r ++ ns) ∧ (∀ n ∈ ns, IsFileName n) ∧ d.LeadsUnder r (r ++ ns) := by
  rw [resolve] at hres
  split at hres
  · rename_i hempty
    obtain rfl := (ofNames_eq_empty hns).mp (String.isEmpty_iff.mp hempty)
    cases hres
    refine ⟨by simp [hr.root], by simp, ?_⟩
    rw [List.append_nil]
    exact leadsUnder_of_locate hr.found List.prefix_rfl
  · rename_i hempty
    have hne : ns ≠ [] := by
      rintro rfl
      exact hempty rfl
    obtain ⟨_, hcheck, hres⟩ := bind_eq_ok.mp hres
    rw [components_ofNames hns] at hcheck
    have hnames : ∀ n ∈ ns, IsFileName n := fun n hn =>
      ⟨hns n hn, checkComponents_eq_ok hcheck n hn⟩
    have hrnames := hr.tree.isFileName hr.directory
    rw [hr.root, below_textOf hrnames hns hne] at hres
    dsimp only at hres
    split at hres
    · rename_i e herror
      cases hres
      refine ⟨rfl, hnames, fun loc item hloc hitem => ?_⟩
      have := canonical_eq_ok.mpr ⟨loc, hloc, ⟨item, hitem⟩, rfl⟩
      rw [herror] at this
      cases this
    · rename_i canonical hcanonical
      split at hres
      · rename_i hin
        cases hres
        refine ⟨rfl, hnames, fun loc item hloc hitem => ?_⟩
        have := canonical_eq_ok.mpr ⟨loc, hloc, ⟨item, hitem⟩, rfl⟩
        rw [hcanonical] at this
        cases this
        exact (isUnder_textOf (hr.tree.isFileName hitem) hrnames).mp hin
      · cases hres

theorem checkComponents_of_names {cs : List String} (h : ∀ c ∈ cs, c ≠ "." ∧ c ≠ "..") :
    checkComponents path cs = .ok () := by
  induction cs with
  | nil => rfl
  | cons c cs ih =>
    obtain ⟨⟨hdot, hdots⟩, hcs⟩ := List.forall_mem_cons.mp h
    rw [checkComponents, if_neg hdots, if_neg hdot, ih hcs]

/-- Names that lead under the root, if they lead anywhere, pass the check. -/
theorem resolve_of_leadsUnder (hr : h.Rooted d r) (hns : ∀ n ∈ ns, IsFileName n)
    (hunder : d.LeadsUnder r (r ++ ns)) : h.resolve d (ofNames ns) = .ok (textOf (r ++ ns)) := by
  have hcomponents : ∀ n ∈ ns, IsComponent n := fun n hn => (hns n hn).1
  by_cases hne : ns = []
  · subst hne
    rw [List.append_nil, ← hr.root]
    rfl
  · have hnonempty : (ofNames ns).isEmpty = false := by
      rw [← Bool.not_eq_true, String.isEmpty_iff, ofNames_eq_empty hcomponents]
      exact hne
    have hrnames := hr.tree.isFileName hr.directory
    rw [resolve, hnonempty, if_neg Bool.false_ne_true, components_ofNames hcomponents,
      checkComponents_of_names fun n hn => (hns n hn).2, hr.root, below_textOf hrnames hcomponents hne]
    simp only [bind, Except.bind]
    split
    · rfl
    · rename_i canonical hcanonical
      obtain ⟨loc, hloc, ⟨item, hitem⟩, rfl⟩ := canonical_eq_ok.mp hcanonical
      have hin := (isUnder_textOf (hr.tree.isFileName hitem) hrnames).mpr (hunder loc item hloc hitem)
      rw [hin, if_pos rfl]
      rfl

end Strata.Host
