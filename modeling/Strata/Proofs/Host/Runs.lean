/-
# `Strata.Proofs.Host.Runs` — what a run of calls leaves alone

Calls on entries of a host filesystem, one after the other, on any disk with any
links.  If each of them is `Checked` when it is made, nothing outside of the root is
listed, opened, made, changed, moved or removed (`run_contained`).  Calls that
delete and rename by a single name are checked on every disk, and so are all
others (`allChecked_of_plain`).  One that deletes or renames through a link out of
the root need not be, and then it may leave it (`unchecked_calls_leave_root`).
-/
import Strata.Proofs.Host.Containment

namespace Strata.Host

open Strata.Action Strata.Path Disk

/-- A call on the entry at a path. -/
inductive Call where
  | child (path name : String)
  | children (path : String)
  | openFile (path : String) (mode : OpenMode)
  | create (path : String) (kind : Kind) (name : String)
  | delete (path name : String)
  | rename (path target : String)

namespace Call

/-- The path of the entry. -/
def path : Call → String
  | .child path _ | .children path | .openFile path _ | .create path _ _ | .delete path _
  | .rename path _ => path

/-- What the call leaves behind, whether it fails or not. -/
def after (h : Host) (d : Disk) : Call → Disk
  | .child _ _ | .children _ => d
  | .openFile path mode => ((h.openFile path mode).exec d).2
  | .create path kind name => ((h.create path kind name).exec d).2
  | .delete path name => ((h.delete path name).exec d).2
  | .rename path target => ((h.rename path target).exec d).2

/-- The directories that the call goes through without a check of its own pass the check. -/
def Checked (h : Host) (d : Disk) : Call → Prop
  | .delete path name => h.WayPasses d (components path) (components (normalize name false))
  | .rename path target =>
    h.Passes d (parentOrRoot path) ∧ h.WayPasses d [] (components (normalize target false))
  | .child _ _ | .children _ | .openFile _ _ | .create _ _ _ => True

instance (h : Host) (d : Disk) : (c : Call) → Decidable (c.Checked h d)
  | .delete path name =>
    inferInstanceAs (Decidable (h.WayPasses d (components path) (components (normalize name false))))
  | .rename path target =>
    inferInstanceAs (Decidable (h.Passes d (parentOrRoot path) ∧
      h.WayPasses d [] (components (normalize target false))))
  | .child _ _ | .children _ | .openFile _ _ | .create _ _ _ => .isTrue trivial

/-- What the call finds, lists or opens is the root or lies below it. -/
def FindsInside (h : Host) (d : Disk) (r : Location) : Call → Prop
  | .child path name => ∀ found, h.child d path name = .ok (some found) →
    ∃ ns loc item, found = ofNames ns ∧ d.locate true (textOf (r ++ ns)) = .ok loc ∧
      d.item? loc = some item ∧ r <+: loc
  | .children path => ∀ paths, h.children d path = .ok paths →
    ∃ loc, r <+: loc ∧ d.item? loc = some .directory ∧
      paths = ((d.namesIn loc).mergeSort fun a b => a ≤ b).map (join path)
  | .openFile path mode => ∀ f, ((h.openFile path mode).exec d).1 = .ok f →
    ∃ loc, Location.Inside r loc ∧ d.item? loc = some (.file f.number)
  | .create _ _ _ | .delete _ _ | .rename _ _ => True

/-- The call names what it deletes or renames, and the new place, by a single name. -/
def IsPlain : Call → Prop
  | .delete _ name => (components (normalize name false)).length ≤ 1
  | .rename path target =>
    (components path).length ≤ 1 ∧ (components (normalize target false)).length ≤ 1
  | .child _ _ | .children _ | .openFile _ _ | .create _ _ _ => True

end Call

/-- What calls leave behind, one after the other. -/
def run (h : Host) (d : Disk) (calls : List Call) : Disk := calls.foldl (fun d c => c.after h d) d

/-- Each of the calls is checked on the disk that those before it left. -/
def AllChecked (h : Host) : Disk → List Call → Prop
  | _, [] => True
  | d, c :: calls => c.Checked h d ∧ AllChecked h (c.after h d) calls

instance decidableAllChecked (h : Host) :
    (d : Disk) → (calls : List Call) → Decidable (h.AllChecked d calls)
  | _, [] => .isTrue trivial
  | d, c :: calls =>
    have := decidableAllChecked h (c.after h d) calls
    inferInstanceAs (Decidable (c.Checked h d ∧ h.AllChecked (c.after h d) calls))

variable {h : Host} {d : Disk} {r : Location} {c : Call} {calls : List Call}

/-! ## One call -/

theorem Call.contained (hr : h.Rooted d r) (hpath : normalize c.path false = c.path)
    (hc : c.Checked h d) : Contained r d (c.after h d) := by
  obtain ⟨ps, hps, hpath⟩ := exists_isPath hpath
  cases c with
  | child path name => exact .refl hr.tree
  | children path => exact .refl hr.tree
  | openFile path mode =>
    obtain rfl : path = ofNames ps := hpath
    exact (openFile_confined hr hps.component mode).1
  | create path kind name =>
    obtain rfl : path = ofNames ps := hpath
    exact (create_confined hr hps.component kind name).1
  | delete path name =>
    obtain rfl : path = ofNames ps := hpath
    rw [Checked, components_ofNames hps.component] at hc
    exact (delete_confined hr hps.component hc).1
  | rename path target =>
    obtain rfl : path = ofNames ps := hpath
    exact (rename_confined hr hps.component target hc.1 hc.2).1

theorem Call.findsInside (hr : h.Rooted d r) (hpath : normalize c.path false = c.path) :
    c.FindsInside h d r := by
  obtain ⟨ps, hps, hpath⟩ := exists_isPath hpath
  cases c with
  | child path name =>
    obtain rfl : path = ofNames ps := hpath
    exact fun found => child_inside hr hps.component
  | children path =>
    obtain rfl : path = ofNames ps := hpath
    exact fun paths => children_inside hr hps.component
  | openFile path mode =>
    obtain rfl : path = ofNames ps := hpath
    exact (openFile_confined hr hps.component mode).2
  | create path kind name => trivial
  | delete path name => trivial
  | rename path target => trivial

theorem wayPasses_of_single {base names : List String} (hn : names.length ≤ 1) :
    h.WayPasses d base names := by
  intro front rest he hfront hrest
  have := congrArg List.length he
  rw [List.length_append] at this
  have := List.length_pos_iff.mpr hfront
  have := List.length_pos_iff.mpr hrest
  omega

/-- A call that names everything by a single name is checked on every disk. -/
theorem Call.checked_of_plain (hpath : normalize c.path false = c.path) (hc : c.IsPlain) :
    c.Checked h d := by
  cases c with
  | delete path name => exact wayPasses_of_single hc
  | rename path target =>
    obtain ⟨ps, hps, hpath⟩ := exists_isPath hpath
    obtain rfl : path = ofNames ps := hpath
    have hone : ps.length ≤ 1 := by
      have := hc.1
      rwa [components_ofNames hps.component] at this
    have hparent : parentOrRoot (ofNames ps) = "" := by
      rcases List.eq_nil_or_concat' ps with rfl | ⟨front, last, rfl⟩
      · rfl
      · rw [parentOrRoot_ofNames_snoc (hps.component last (by simp)), ofNames_eq_empty fun n hn =>
          hps.component n (List.mem_append_left _ hn)]
        exact List.length_eq_zero_iff.mp (by simpa using hone)
    exact ⟨⟨h.root, by rw [hparent]; rfl⟩, wayPasses_of_single hc.2⟩
  | child path name => trivial
  | children path => trivial
  | openFile path mode => trivial
  | create path kind name => trivial

theorem allChecked_of_plain (hpaths : ∀ c ∈ calls, normalize c.path false = c.path)
    (hplain : ∀ c ∈ calls, c.IsPlain) : h.AllChecked d calls := by
  induction calls generalizing d with
  | nil => trivial
  | cons c calls ih =>
    obtain ⟨hpath, hpaths⟩ := List.forall_mem_cons.mp hpaths
    obtain ⟨hc, hplain⟩ := List.forall_mem_cons.mp hplain
    exact ⟨Call.checked_of_plain hpath hc, ih hpaths hplain⟩

/-! ## A run of calls -/

theorem run_kept (hr : h.Rooted d r) (hpaths : ∀ c ∈ calls, normalize c.path false = c.path)
    (hchecked : h.AllChecked d calls) : Contained r d (h.run d calls) := by
  induction calls generalizing d with
  | nil => exact .refl hr.tree
  | cons c calls ih =>
    obtain ⟨hpath, hpaths⟩ := List.forall_mem_cons.mp hpaths
    have hc := Call.contained hr hpath hchecked.1
    exact hc.trans (ih (hr.keep hc) hpaths hchecked.2)

theorem allChecked_append {before after : List Call} :
    h.AllChecked d (before ++ after) ↔
      h.AllChecked d before ∧ h.AllChecked (h.run d before) after := by
  induction before generalizing d with
  | nil => simp [AllChecked, run]
  | cons c before ih => simp [AllChecked, run, ih, and_assoc]

/-- A filesystem whose root is a canonical directory of a disk, with any links on it, and a run of
checked calls: each call finds, lists and opens what is the root or lies below it, and everything
that is not strictly below the root is on the disk as it was. -/
theorem run_contained (h : Host) (d : Disk) (hd : d.IsTree) (hroot : d.canonical h.root = .ok h.root)
    (hdir : (d.kindAt h.root).isDirectory) (calls : List Call)
    (hpaths : ∀ c ∈ calls, normalize c.path false = c.path) (hchecked : h.AllChecked d calls) :
    ∃ r, h.root = textOf r ∧ Contained r d (h.run d calls) ∧
      ∀ before c after, calls = before ++ c :: after → c.FindsInside h (h.run d before) r := by
  obtain ⟨r, hr⟩ := rooted_of_canonical hd hroot hdir
  refine ⟨r, hr.root, run_kept hr hpaths hchecked, ?_⟩
  rintro before c after rfl
  obtain ⟨hbefore, -⟩ := allChecked_append.mp hchecked
  obtain ⟨hpbefore, hp⟩ := List.forall_mem_append.mp hpaths
  exact Call.findsInside (hr.keep (run_kept hr hpbefore hbefore)) (hp c List.mem_cons_self)

/-- A disk with a directory `in` and in it a file, a directory and a link to the directory `out`
beside it, which holds a link to nothing. -/
def linkedDisk : Disk where
  items := [(["in"], .directory), (["out"], .directory), (["in", "a"], .file 0),
    (["in", "sub"], .directory), (["in", "link"], .link "/out"), (["out", "gone"], .link "/nowhere")]
  contents := [[1]]

theorem linkedDisk_isTree : linkedDisk.IsTree :=
  isTree_of_items (by decide) (by decide) (by decide)

theorem run_contained_linkedDisk :
    let h : Host := { root := "/in" }
    let calls : List Call := [.child "" "a", .create "" .directory "sub/deep",
      .rename "a" "sub/deep/b", .openFile "sub/deep/b" { read := true, write := true },
      .delete "sub/deep" "b", .delete "" "link"]
    linkedDisk.canonical h.root = .ok h.root ∧ (linkedDisk.kindAt h.root).isDirectory ∧
      (∀ c ∈ calls, normalize c.path false = c.path) ∧ h.AllChecked linkedDisk calls ∧
      ∃ r, h.root = textOf r ∧ Contained r linkedDisk (h.run linkedDisk calls) := by
  intro h calls
  have hroot : linkedDisk.canonical h.root = .ok h.root := by decide +kernel
  have hdir : (linkedDisk.kindAt h.root).isDirectory := by decide +kernel
  have hpaths : ∀ c ∈ calls, normalize c.path false = c.path := by decide +kernel
  have hchecked : h.AllChecked linkedDisk calls := by decide +kernel
  obtain ⟨r, hr, hc, -⟩ :=
    run_contained h linkedDisk linkedDisk_isTree hroot hdir calls hpaths hchecked
  exact ⟨hroot, hdir, hpaths, hchecked, r, hr, hc⟩

/-- The check of a path's end does not see a link on the way to it: an entry is renamed to a new
name behind the link, and a link to nothing is deleted there, both outside of the root. -/
theorem unchecked_calls_leave_root :
    let h : Host := { root := "/in" }
    linkedDisk.canonical h.root = .ok h.root ∧ h.child linkedDisk "" "a" = .ok (some "a") ∧
    (let moved := (h.rename "a" "link/b").exec linkedDisk;
      moved.1 = .ok () ∧ moved.2.item? ["in", "a"] = none ∧
        linkedDisk.item? ["out", "b"] = none ∧ moved.2.item? ["out", "b"] = some (.file 0)) ∧
    (let removed := (h.delete "" "link/gone").exec linkedDisk;
      removed.1 = .ok true ∧ linkedDisk.item? ["out", "gone"] = some (.link "/nowhere") ∧
        removed.2.item? ["out", "gone"] = none) ∧
    ¬h.Passes linkedDisk "link" := by
  decide +kernel

end Strata.Host
