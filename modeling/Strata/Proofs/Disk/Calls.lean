/-
# `Strata.Proofs.Disk.Calls` — calls on a disk below a directory

A call that makes or removes a name changes the disk at that name in the
directory that the names before it lead to.  So if these lead under `r`
(`LeadsUnder`), what the call does is contained in `r`; it does not matter
through how many links they lead.  Making a directory with its parents needs
this of all its parents: those that are there are left alone, and the others are
new and empty.
-/
import Strata.Disk.Calls
import Strata.Proofs.Action
import Strata.Proofs.Disk.Walk

namespace Strata.Disk

open Location (Inside inside_snoc)

variable {d d' : Disk} {r dir loc : Location} {name text : String} {ns ms : List String}
  {item : Item}

/-! ## Looking -/

theorem stat_eq_ok : d.stat text = .ok item ↔
    ∃ loc, d.locate true text = .ok loc ∧ d.item? loc = some item := by
  simp only [stat, bind_eq_ok]
  refine exists_congr fun loc => and_congr_right fun _ => ?_
  cases d.item? loc <;> simp [pure, Except.pure, throw, throwThe, MonadExceptOf.throw]

theorem canonical_eq_ok {path : String} : d.canonical text = .ok path ↔
    ∃ loc, d.locate true text = .ok loc ∧ (∃ item, d.item? loc = some item) ∧ textOf loc = path := by
  simp only [canonical, bind_eq_ok]
  refine exists_congr fun loc => and_congr_right fun _ => ?_
  cases d.item? loc <;> simp [pure, Except.pure, throw, throwThe, MonadExceptOf.throw]

theorem kindAt_isDirectory : (d.kindAt text).isDirectory ↔
    ∃ loc, d.locate true text = .ok loc ∧ d.item? loc = some .directory := by
  rw [← stat_eq_ok, kindAt]
  cases d.stat text with
  | error e => simp [Kind.isDirectory]
  | ok item => cases item <;> simp [Kind.isDirectory]

theorem kindAt_isFile : (d.kindAt text).isFile ↔
    ∃ loc n, d.locate true text = .ok loc ∧ d.item? loc = some (.file n) := by
  rw [exists_comm]
  simp only [← stat_eq_ok, kindAt]
  cases d.stat text with
  | error e => simp [Kind.isFile]
  | ok item => cases item <;> simp [Kind.isFile]

theorem exists_of_kindAt (h : (d.kindAt text).exists?) :
    ∃ loc item, d.locate true text = .ok loc ∧ d.item? loc = some item := by
  rw [exists_comm]
  simp only [← stat_eq_ok]
  rw [kindAt] at h
  cases hstat : d.stat text with
  | error e => simp [hstat, Kind.exists?] at h
  | ok item => exact ⟨item, rfl⟩

/-! ## One name in a directory under the root -/

/-- If the names lead to something, it is `r` or lies below it. -/
def LeadsUnder (d : Disk) (r : Location) (ns : List String) : Prop :=
  ∀ loc item, d.locate true (textOf ns) = .ok loc → d.item? loc = some item → r <+: loc

theorem leadsUnder_of_locate (h : d.locate true (textOf ns) = .ok loc) (hr : r <+: loc) :
    d.LeadsUnder r ns := by
  intro q item hq _
  rw [h] at hq
  exact Except.ok.inj hq ▸ hr

section
variable (hd : d.IsTree) (hns : ∀ n ∈ ns, IsFileName n) (hname : IsFileName name)
  (hunder : d.LeadsUnder r ns)
include hd hns hname hunder

/-- A name that is not followed has its place in a directory under `r`. -/
theorem exists_place (h : d.locate false (textOf (ns ++ [name])) = .ok loc) :
    ∃ dir, d.locate true (textOf ns) = .ok dir ∧ d.item? dir = some .directory ∧ r <+: dir ∧
      loc = dir ++ [name] := by
  obtain ⟨dir, hfront, hdir, he, -⟩ := locate_snoc hd hns hname h
  exact ⟨dir, hfront, hdir, hunder _ _ hfront hdir, Except.ok.inj (h.symm.trans he)⟩

/-- A new directory is all that is new.  It is under `r` where nothing was, the name leads to it, and
nothing is in it. -/
theorem makeDirectory_spec (h : d.makeDirectory (textOf (ns ++ [name])) = .ok d') :
    Contained r d d' ∧ Grown d d' ∧ ∃ loc, d.item? loc = none ∧ d' = d.add loc .directory ∧
      d'.locate true (textOf (ns ++ [name])) = .ok loc ∧ d'.item? loc = some .directory ∧
      r <+: loc ∧ ∀ m, d'.item? (loc ++ [m]) = none := by
  obtain ⟨loc, hloc, h⟩ := bind_eq_ok.mp h
  obtain ⟨dir, -, hdir, hr, rfl⟩ := exists_place hd hns hname hunder hloc
  cases hnone : d.item? (dir ++ [name]) with
  | some item =>
    rw [hnone] at h
    cases h
  | none =>
    rw [hnone] at h
    cases h
    have hnew (q : Location) := item?_add_of_none hnone .directory q
    have hlink (target : String) : Item.directory ≠ .link target := by simp
    have hcontained : Contained r d (d.add (dir ++ [name]) .directory) :=
      hd.contained_add .directory hdir hname hnone hr (by simp)
    refine ⟨hcontained, grown_of_new hnone hlink hnew, dir ++ [name], hnone, rfl,
      locate_new hcontained.tree hns hname hloc hnone hlink hnew, by rw [hnew, if_pos rfl],
      hr.trans (List.prefix_append _ _), fun m => ?_⟩
    rw [hnew, if_neg (by simp)]
    exact hd.none_below hnone (List.prefix_append _ _)

/-- A new file is under `r`, and the name leads to it. -/
theorem makeFile_spec (h : d.makeFile (textOf (ns ++ [name])) = .ok d') :
    Contained r d d' ∧ Grown d d' ∧ ∃ loc n, d'.locate true (textOf (ns ++ [name])) = .ok loc ∧
      d'.item? loc = some (.file n) ∧ r <+: loc := by
  obtain ⟨loc, hloc, h⟩ := bind_eq_ok.mp h
  obtain ⟨dir, -, hdir, hr, rfl⟩ := exists_place hd hns hname hunder hloc
  cases hnone : d.item? (dir ++ [name]) with
  | some item =>
    rw [hnone] at h
    cases h
  | none =>
    rw [hnone] at h
    cases h
    have hnew (q : Location) := item?_addFile hnone [] q
    have hlink (target : String) : Item.file d.contents.length ≠ .link target := by simp
    have hcontained : Contained r d (d.addFile (dir ++ [name]) []) :=
      hd.contained_addFile hdir hname hnone hr []
    exact ⟨hcontained, grown_of_new hnone hlink hnew, dir ++ [name], _,
      locate_new hcontained.tree hns hname hloc hnone hlink hnew, by rw [hnew, if_pos rfl],
      hr.trans (List.prefix_append _ _)⟩

theorem removeFile_contained (h : d.removeFile (textOf (ns ++ [name])) = .ok d') :
    Contained r d d' := by
  obtain ⟨loc, hloc, h⟩ := bind_eq_ok.mp h
  obtain ⟨dir, -, -, hr, rfl⟩ := exists_place hd hns hname hunder hloc
  split at h
  · cases h
  · cases h
    exact hd.contained_removeBelow (Location.inside_snoc hr name)
  · cases h

theorem removeTree_contained (h : d.removeTree (textOf (ns ++ [name])) = .ok d') :
    Contained r d d' := by
  obtain ⟨loc, hloc, h⟩ := bind_eq_ok.mp h
  obtain ⟨dir, -, -, hr, rfl⟩ := exists_place hd hns hname hunder hloc
  split at h
  · cases h
    exact hd.contained_removeBelow (Location.inside_snoc hr name)
  · cases h
  · cases h

end

/-! ## Opening and renaming -/

/-- A file that is opened is the file that the path leads to. -/
theorem openFile_spec (hd : d.IsTree) (hr : d.item? r = some .directory) (hunder : d.LeadsUnder r ns)
    {truncate : Bool} {n : Nat} (h : d.openFile (textOf ns) truncate = .ok (n, d')) :
    Contained r d d' ∧ ∃ loc, Inside r loc ∧ d.item? loc = some (.file n) := by
  obtain ⟨item, hstat, h⟩ := bind_eq_ok.mp h
  obtain ⟨loc, hloc, hitem⟩ := stat_eq_ok.mp hstat
  cases item with
  | directory => cases h
  | link target => cases h
  | file n' =>
    cases h
    have hinside : Inside r loc := by
      refine ⟨hunder _ _ hloc hitem, ?_⟩
      rintro rfl
      rw [hr] at hitem
      cases hitem
    refine ⟨?_, loc, hinside, hitem⟩
    split
    · exact hd.contained_setContents hitem hinside []
    · exact .refl hd

/-- An item moves from its place in a directory under `r` to another such place. -/
theorem rename_contained (hd : d.IsTree) {source target : String} (hns : ∀ n ∈ ns, IsFileName n)
    (hms : ∀ m ∈ ms, IsFileName m) (hsource : IsFileName source) (htarget : IsFileName target)
    (hfrom : d.LeadsUnder r ns) (hto : d.LeadsUnder r ms)
    (h : d.rename (textOf (ns ++ [source])) (textOf (ms ++ [target])) = .ok d') :
    Contained r d d' := by
  obtain ⟨origin, horigin, h⟩ := bind_eq_ok.mp h
  obtain ⟨goal, hgoal, h⟩ := bind_eq_ok.mp h
  obtain ⟨odir, -, hodir, hor, rfl⟩ := exists_place hd hns hsource hfrom horigin
  obtain ⟨gdir, -, hgdir, hgr, rfl⟩ := exists_place hd hms htarget hto hgoal
  cases hitem : d.item? (odir ++ [source]) with
  | none =>
    rw [hitem] at h
    cases h
  | some item =>
    simp only [hitem, beq_iff_eq, List.isPrefixOf_iff_prefix] at h
    split at h
    · cases h
      exact .refl hd
    split at h
    · cases h
    split at h
    · cases h
    split at h
    · cases h
    · cases h
      exact hd.contained_replace (Location.inside_snoc hor source) hgdir htarget hgr ‹_›

/-! ## Making a directory with its parents -/

theorem parentOrRoot_textOf (hne : ns ≠ []) (hname : IsFileName name) :
    Path.parentOrRoot (textOf (ns ++ [name])) = textOf ns := by
  have hlist : (textOf (ns ++ [name])).toList =
      (textOf ns).toList ++ Path.separator :: name.toList := by
    rw [toList_textOf, toList_textOf, List.map_append,
      Path.joinNames_append (by simpa using hne) (by simp)]
    simp [Path.joinNames]
  rw [Path.parentOrRoot, Path.parent?, hlist, Path.splitLast_append _ hname.1.2]
  simp

theorem parentOrRoot_textOf_single (hname : IsFileName name) :
    Path.parentOrRoot (textOf [name]) = "" := by
  have hlist : (textOf [name]).toList = [] ++ Path.separator :: name.toList := by
    rw [toList_textOf]
    simp [Path.joinNames]
  rw [Path.parentOrRoot, Path.parent?, hlist, Path.splitLast_append _ hname.1.2]
  rfl

/-- In a directory that is there, a directory is not refused because its parent is missing. -/
theorem makeDirectory_ne_noEntry (hd : d.IsTree) (hns : ∀ n ∈ ns, IsFileName n)
    (hname : IsFileName name) (h : (d.kindAt (textOf ns)).isDirectory) :
    d.makeDirectory (textOf (ns ++ [name])) ≠ .error (.system .noEntry) := by
  obtain ⟨dir, hfront, hdir⟩ := kindAt_isDirectory.mp h
  rw [makeDirectory]
  rcases locate_last hd hns hname hfront hdir with ⟨e, hne, he⟩ | hlast
  · rw [he]
    exact fun h => hne (Except.error.inj h)
  · rw [hlast false (.inl rfl)]
    simp only [bind, Except.bind]
    cases d.item? (dir ++ [name]) with
    | none => exact fun h => (by cases h)
    | some item => exact fun h => (by cases h)

/-- In an empty directory a new directory is made, or the name is refused. -/
theorem makeDirectoryIfNone_spec (hd : d.IsTree) (hns : ∀ n ∈ ns, IsFileName n)
    (hname : IsFileName name) (hdir : d.locate true (textOf ns) = .ok dir)
    (hitem : d.item? dir = some .directory) (hr : r <+: dir) (hnone : d.item? (dir ++ [name]) = none)
    {res : Except IoError Unit}
    (h : makeDirectoryIfNone (textOf (ns ++ [name])) d = (res, d')) :
    Contained r d d' ∧ Grown d d' ∧ (res = .ok () →
      ∃ loc, d'.locate true (textOf (ns ++ [name])) = .ok loc ∧ d'.item? loc = some .directory ∧
        r <+: loc ∧ ∀ m, d'.item? (loc ++ [m]) = none) := by
  rw [makeDirectoryIfNone] at h
  split at h
  · cases h
    obtain ⟨hc, hg, loc, -, -, hnew⟩ :=
      makeDirectory_spec hd hns hname (leadsUnder_of_locate hdir hr) ‹_›
    exact ⟨hc, hg, fun _ => ⟨loc, hnew⟩⟩
  · split at h
    · obtain ⟨loc, hloc, hthere⟩ := kindAt_isDirectory.mp ‹_›
      rcases locate_last hd hns hname hdir hitem with ⟨e, -, he⟩ | hlast
      · rw [he] at hloc
        cases hloc
      · rw [hlast true (.inr (by simp [hnone]))] at hloc
        cases hloc
        rw [hnone] at hthere
        cases hthere
    · cases h
      exact ⟨.refl hd, .refl d, fun he => (by cases he)⟩

/-- The names lead to a directory that was there before, or to a new one under `r` with nothing in
it. -/
def Ready (d d' : Disk) (r : Location) (ns : List String) : Prop :=
  (d' = d ∧ (d.kindAt (textOf ns)).isDirectory) ∨
  ∃ loc, d'.locate true (textOf ns) = .ok loc ∧ d'.item? loc = some .directory ∧ r <+: loc ∧
    ∀ m, d'.item? (loc ++ [m]) = none

/-- A directory that is there is not made again. -/
theorem makeDirectoriesUp_of_found (hd : d.IsTree) (hr : d.item? r = some .directory)
    (hfound : d.locate true (textOf r) = .ok r) (parents : Nat) :
    makeDirectoriesUp (parents + 1) (textOf r) d = (.ok (), d) := by
  have hkind : (d.kindAt (textOf r)).isDirectory := kindAt_isDirectory.mpr ⟨r, hfound, hr⟩
  have hthere : d.makeDirectory (textOf r) = .error (.system .alreadyThere) := by
    rw [makeDirectory, locate_directory hd hd hr hr hfound]
    simp only [bind, Except.bind, hr]
    rfl
  simp only [makeDirectoriesUp, isEmpty_textOf, hthere, hkind]
  rfl

/-- On a way of which every part leads under `r`, if it leads anywhere, the directories that are
missing are made under `r`. -/
theorem makeDirectoriesUp_spec (hd : d.IsTree) (hr : d.item? r = some .directory)
    (hfound : d.locate true (textOf r) = .ok r) (hns : ∀ n ∈ ns, IsFileName n)
    (hunder : ∀ ks, ks <+: ns → d.LeadsUnder r (r ++ ks)) {parents : Nat}
    (hparents : ns.length < parents) {res : Except IoError Unit}
    (h : makeDirectoriesUp parents (textOf (r ++ ns)) d = (res, d')) :
    Contained r d d' ∧ Grown d d' ∧ (res = .ok () → Ready d d' r (r ++ ns)) := by
  have hsame : Contained r d d := .refl hd
  induction ns using List.reverseRecOn generalizing parents res d' with
  | nil =>
    obtain ⟨parents, rfl⟩ := Nat.exists_eq_add_one.mpr hparents
    rw [List.append_nil, makeDirectoriesUp_of_found hd hr hfound] at h
    rw [List.append_nil]
    cases h
    exact ⟨hsame, .refl d, fun _ => .inl ⟨rfl, kindAt_isDirectory.mpr ⟨r, hfound, hr⟩⟩⟩
  | append_singleton ns name ih =>
    have hname := hns name (by simp)
    have hfront : ∀ n ∈ r ++ ns, IsFileName n := fun n hn =>
      (List.mem_append.mp hn).elim (hd.isFileName hr n) fun hn => hns n (by simp [hn])
    have hparent : d.LeadsUnder r (r ++ ns) := hunder ns (List.prefix_append _ _)
    rw [List.length_append, List.length_singleton] at hparents
    obtain ⟨parents, rfl⟩ := Nat.exists_eq_add_one.mpr (Nat.zero_lt_of_lt hparents)
    rw [← List.append_assoc] at h ⊢
    rw [makeDirectoriesUp, isEmpty_textOf, if_neg Bool.false_ne_true] at h
    split at h
    · -- a new directory in one that is there
      cases h
      obtain ⟨hc, hg, loc, -, -, hnew⟩ := makeDirectory_spec hd hfront hname hparent ‹_›
      exact ⟨hc, hg, fun _ => .inr ⟨loc, hnew⟩⟩
    · -- the parents first: they are not all there, or the directory would have been made
      have hmissing : ¬(d.kindAt (textOf (r ++ ns))).isDirectory := fun hkind =>
        makeDirectory_ne_noEntry hd hfront hname hkind ‹_›
      have hne : r ++ ns ≠ [] := by
        intro he
        obtain ⟨rfl, rfl⟩ := List.append_eq_nil_iff.mp he
        exact hmissing (kindAt_isDirectory.mpr ⟨[], hfound, hr⟩)
      rw [parentOrRoot_textOf hne hname] at h
      rcases hup : makeDirectoriesUp parents (textOf (r ++ ns)) d with ⟨res₁, d₁⟩
      obtain ⟨hc, hg, hready⟩ := ih (fun n hn => hns n (by simp [hn]))
        (fun ks hks => hunder ks (hks.trans (List.prefix_append _ _))) (by omega) hup
      rw [hup] at h
      cases res₁ with
      | error e =>
        cases h
        exact ⟨hc, hg, fun he => (by cases he)⟩
      | ok =>
        obtain ⟨-, hkind⟩ | ⟨loc, hloc, hdir, hunder, hempty⟩ := hready rfl
        · exact absurd hkind hmissing
        · obtain ⟨hc', hg', hnew⟩ :=
            makeDirectoryIfNone_spec hc.tree hfront hname hloc hdir hunder (hempty name) h
          exact ⟨hc.trans hc', hg.trans hg', fun hok => .inr (hnew hok)⟩
    · -- nothing is missing on the way
      split at h
      · cases h
        exact ⟨hsame, .refl d, fun _ => .inl ⟨rfl, ‹_›⟩⟩
      · cases h
        exact ⟨hsame, .refl d, fun he => (by cases he)⟩

/-- The directory for a name is made, with its parents, before something is put there: if it is
there in the end, it is under `r`. -/
theorem makeDirectories_parent_spec (hd : d.IsTree) (hr : d.item? r = some .directory)
    (hfound : d.locate true (textOf r) = .ok r) (hns : ∀ n ∈ ns, IsFileName n)
    (hname : IsFileName name) (hunder : ∀ ks, ks <+: ns → d.LeadsUnder r (r ++ ks))
    {res : Except IoError Unit}
    (h : d.makeDirectories (Path.parentOrRoot (textOf (r ++ ns ++ [name]))) = (res, d')) :
    Contained r d d' ∧ Grown d d' ∧ (res = .ok () → d'.LeadsUnder r (r ++ ns)) := by
  by_cases hne : r ++ ns = []
  · obtain ⟨rfl, rfl⟩ := List.append_eq_nil_iff.mp hne
    rw [List.append_nil, List.nil_append, parentOrRoot_textOf_single hname] at h
    have hnone : d.makeDirectories "" = (.ok (), d) := by
      simp [makeDirectories, piecesOf, Path.pieces, Text.split, makeDirectoriesUp]
    rw [hnone] at h
    cases h
    exact ⟨.refl hd, .refl d, fun _ _ _ _ _ => List.nil_prefix⟩
  · have hall : ∀ n ∈ r ++ ns, IsFileName n := fun n hn =>
      (List.mem_append.mp hn).elim (hd.isFileName hr n) (hns n)
    rw [parentOrRoot_textOf hne hname, makeDirectories, piecesOf_textOf hall hne] at h
    obtain ⟨hc, hg, hready⟩ :=
      makeDirectoriesUp_spec hd hr hfound hns hunder
        (by rw [List.length_cons, List.length_append]; omega) h
    refine ⟨hc, hg, fun hok => ?_⟩
    obtain ⟨rfl, -⟩ | ⟨loc, hloc, -, hloc', -⟩ := hready hok
    · exact hunder ns List.prefix_rfl
    · exact leadsUnder_of_locate hloc hloc'

end Strata.Disk
