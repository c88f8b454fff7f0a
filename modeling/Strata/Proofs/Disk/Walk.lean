/-
# `Strata.Proofs.Disk.Walk` — where a path leads

A path text below the top of a disk is the text of a list of names.  Following
such a list is following its front, the last link included, and then its end
from the directory that the front leads to (`locateFrom_append`); so the last
name of a path is looked for in the directory that the rest of the path leads
to, wherever that is (`locate_snoc`).  A disk that got more files and directories
leads where it led before (`locate_of_grown`).
-/
import Strata.Proofs.Disk.Tree

namespace Strata.Disk

variable {d d' : Disk} {r dir here loc q : Location} {name : String} {ns ms : List String}
  {item : Item} {follow : Bool} {links : Nat}

/-! ## One name after another -/

/-- Goes on from where following the first names ended. -/
def onward (d : Disk) (follow : Bool) (ms : List String) : Reach → Except SystemError Reach
  | .at loc =>
    match d.item? loc with
    | some .directory => d.advance follow loc ms
    | some _ => .error .notADirectory
    | none => .error .noEntry
  | .turn dir target rest => .ok (.turn dir target (rest ++ ms))

theorem onward_of_not_directory (h : d.item? loc ≠ some .directory) :
    ∃ e, d.onward follow ms (.at loc) = .error e := by
  cases hitem : d.item? loc with
  | none => exact ⟨.noEntry, by simp [onward, hitem]⟩
  | some item =>
    refine ⟨.notADirectory, ?_⟩
    cases item with
    | directory => exact absurd hitem h
    | file n => simp [onward, hitem]
    | link target => simp [onward, hitem]

/-- Enters a name in a directory and goes on from there. -/
def enter (d : Disk) (follow : Bool) (here : Location) (name : String) (ns : List String) :
    Except SystemError Reach :=
  match d.item? (here ++ [name]) with
  | none => if ns.isEmpty then .ok (.at (here ++ [name])) else .error .noEntry
  | some .directory => d.advance follow (here ++ [name]) ns
  | some (.file _) => if ns.isEmpty then .ok (.at (here ++ [name])) else .error .notADirectory
  | some (.link target) =>
    if ns.isEmpty && !follow then .ok (.at (here ++ [name])) else .ok (.turn here target ns)

/-- A name leads to the directory itself or the one above, or is too long, or is entered; which of
these does not depend on the disk. -/
theorem advance_cons (here : Location) (name : String) :
    (∃ next, (next = here ∨ next = here.dropLast) ∧ ∀ (d : Disk) (follow : Bool) (ns : List String),
      d.advance follow here (name :: ns) = d.advance follow next ns) ∨
    (∀ (d : Disk) (follow : Bool) (ns : List String),
      d.advance follow here (name :: ns) = .error .nameTooLong) ∨
    ∀ (d : Disk) (follow : Bool) (ns : List String),
      d.advance follow here (name :: ns) = d.enter follow here name ns := by
  by_cases hskip : name = "" ∨ name = "."
  · exact .inl ⟨here, .inl rfl, fun d follow ns => by rw [advance, if_pos hskip]⟩
  by_cases hup : name = ".."
  · exact .inl ⟨here.dropLast, .inr rfl, fun d follow ns => by
      rw [advance, if_neg hskip, if_pos hup]⟩
  by_cases hlong : nameLimit < name.utf8ByteSize
  · exact .inr (.inl fun d follow ns => by rw [advance, if_neg hskip, if_neg hup, if_pos hlong])
  · refine .inr (.inr fun d follow ns => ?_)
    rw [advance, if_neg hskip, if_neg hup, if_neg hlong]
    rfl

theorem IsTree.directory_of_next (hd : d.IsTree) (hhere : d.item? here = some .directory)
    (h : loc = here ∨ loc = here.dropLast) : d.item? loc = some .directory := by
  rcases h with rfl | rfl
  · exact hhere
  · exact hd.directory_dropLast hhere

/-- Following names is following the first of them, the last link included, and going on from
there. -/
theorem advance_append (hd : d.IsTree) (hhere : d.item? here = some .directory) (hms : ms ≠ []) :
    d.advance follow here (ns ++ ms) = d.advance true here ns >>= d.onward follow ms := by
  induction ns generalizing here with
  | nil => simp [advance, bind, Except.bind, onward, hhere]
  | cons name ns ih =>
    rw [List.cons_append]
    rcases advance_cons here name with ⟨next, hnext, h⟩ | h | h
    · rw [h, h]
      exact ih (hd.directory_of_next hhere hnext)
    · rw [h, h]
      rfl
    · rw [h, h, enter, enter]
      cases hitem : d.item? (here ++ [name]) with
      | none => cases ns <;> simp [hms, bind, Except.bind, onward, hitem]
      | some item =>
        cases item with
        | directory => exact ih hitem
        | file n => cases ns <;> simp [hms, bind, Except.bind, onward, hitem]
        | link target => simp [hms, bind, Except.bind, onward]

theorem locateFrom_at (h : d.advance follow here ns = .ok (.at loc)) :
    d.locateFrom follow (links + 1) here ns = .ok loc := by
  rw [locateFrom, h]
  rfl

/-- Where the target of a link is followed from. -/
def turnFrom (dir : Location) (target : String) : Location := if isAbsolute target then [] else dir

theorem directory_turnFrom (h : d.item? dir = some .directory) (target : String) :
    d.item? (turnFrom dir target) = some .directory := by
  rw [turnFrom]
  split
  · rfl
  · exact h

theorem locateFrom_turn {target : String}
    (h : d.advance follow here ns = .ok (.turn dir target ms)) :
    d.locateFrom follow (links + 1) here ns =
      if target.isEmpty then .error .noEntry
      else d.locateFrom follow links (turnFrom dir target) (piecesOf target ++ ms) := by
  simp only [locateFrom, h, bind, Except.bind]
  cases target.isEmpty <;> rfl

theorem locateFrom_error {e : SystemError} (h : d.advance follow here ns = .error e) :
    d.locateFrom follow (links + 1) here ns = .error e := by
  rw [locateFrom, h]
  rfl

/-- A link is met in a directory. -/
theorem directory_of_turn (hd : d.IsTree) (hhere : d.item? here = some .directory) {target : String}
    (h : d.advance follow here ns = .ok (.turn dir target ms)) : d.item? dir = some .directory := by
  induction ns generalizing here with
  | nil => cases h
  | cons name ns ih =>
    rcases advance_cons here name with ⟨next, hnext, he⟩ | he | he
    · exact ih (hd.directory_of_next hhere hnext) (he d follow ns ▸ h)
    · cases (he d follow ns).symm.trans h
    · rw [he, enter] at h
      cases hitem : d.item? (here ++ [name]) with
      | none => cases ns <;> simp [hitem] at h
      | some item =>
        cases item with
        | directory => exact ih hitem (by simpa [hitem] using h)
        | file n => cases ns <;> simp [hitem] at h
        | link target' =>
          simp only [hitem] at h
          split at h
          · cases h
          · cases h
            exact hhere

/-- Following the names of a path is following all but its end, and then its end from the
directory that was reached; where none is reached it fails. -/
theorem locateFrom_append (hd : d.IsTree) (hhere : d.item? here = some .directory) (links : Nat)
    (ns : List String) (hms : ms ≠ []) :
    (∃ dir left, d.locateFrom true links here ns = .ok dir ∧ d.item? dir = some .directory ∧
      ∀ follow, d.locateFrom follow links here (ns ++ ms) = d.locateFrom follow (left + 1) dir ms) ∨
    (∀ dir, d.locateFrom true links here ns = .ok dir → d.item? dir ≠ some .directory) ∧
      ∀ follow, ∃ e, d.locateFrom follow links here (ns ++ ms) = .error e := by
  induction links generalizing here ns with
  | zero => exact .inr ⟨fun dir h => (by cases h), fun follow => ⟨_, rfl⟩⟩
  | succ links ih =>
    have happend (follow : Bool) :
        d.advance follow here (ns ++ ms) = d.advance true here ns >>= d.onward follow ms :=
      advance_append hd hhere hms
    cases hfront : d.advance true here ns with
    | error e =>
      rw [hfront] at happend
      refine .inr ⟨fun dir h => ?_, fun follow => ⟨e, locateFrom_error (happend follow)⟩⟩
      rw [locateFrom_error hfront] at h
      cases h
    | ok reach =>
      rw [hfront] at happend
      cases reach with
      | «at» loc =>
        have honward (follow : Bool) :
            d.advance follow here (ns ++ ms) = d.onward follow ms (.at loc) := happend follow
        rw [locateFrom_at hfront]
        by_cases hloc : d.item? loc = some .directory
        · refine .inl ⟨loc, links, rfl, hloc, fun follow => ?_⟩
          rw [locateFrom, locateFrom, honward]
          simp only [onward, hloc]
        · refine .inr ⟨?_, fun follow => ?_⟩
          · rintro dir ⟨⟩
            exact hloc
          · obtain ⟨e, he⟩ := onward_of_not_directory hloc
            exact ⟨e, locateFrom_error ((honward follow).trans he)⟩
      | turn dir target rest =>
        simp only [locateFrom_turn hfront, locateFrom_turn (happend _)]
        split
        · exact .inr ⟨fun dir h => (by cases h), fun follow => ⟨_, rfl⟩⟩
        · rw [← List.append_assoc]
          exact ih (directory_turnFrom (directory_of_turn hd hhere hfront) target) _

/-! ## Path texts of names -/

theorem toList_textOf (ns : List String) :
    (textOf ns).toList = Path.separator :: Path.joinNames (ns.map String.toList) := by
  rw [textOf, String.toList_append, String.toList_intercalate]
  rfl

theorem textOf_append (ns ms : List String) : ∃ rest, textOf (ns ++ ms) = textOf ns ++ rest := by
  by_cases hns : ns = []
  · exact ⟨"/".intercalate ms, by simp [textOf, hns]⟩
  by_cases hms : ms = []
  · exact ⟨"", by simp [hms]⟩
  · refine ⟨"/" ++ "/".intercalate ms, ?_⟩
    rw [textOf, String.intercalate_append_of_ne_nil hns hms]
    simp [textOf, String.append_assoc]

theorem isEmpty_textOf (ns : List String) : (textOf ns).isEmpty = false := by
  rw [← Bool.not_eq_true, String.isEmpty_iff, ← String.toList_inj, toList_textOf]
  simp

theorem isAbsolute_textOf (ns : List String) : isAbsolute (textOf ns) = true := by
  simp [isAbsolute, toList_textOf, Path.separator]

theorem piecesOf_textOf (h : ∀ n ∈ ns, IsFileName n) (hne : ns ≠ []) :
    piecesOf (textOf ns) = "" :: ns := by
  have hpieces : Path.pieces (Path.joinNames (ns.map String.toList)) = ns.map String.toList := by
    refine Path.pieces_joinNames (fun n hn => ?_) (by simpa using hne)
    obtain ⟨m, hm, rfl⟩ := List.mem_map.mp hn
    exact (h m hm).1.2
  rw [piecesOf, toList_textOf, Path.pieces, Text.split, if_pos rfl, ← Path.pieces, hpieces]
  simp

/-- The names of a path text lead from the top of the disk. -/
theorem locateFrom_piecesOf_textOf (h : ∀ n ∈ ns, IsFileName n) :
    d.locateFrom follow links here (piecesOf (textOf ns)) = d.locateFrom follow links here ns := by
  have hskip (ms : List String) : d.advance follow here ("" :: ms) = d.advance follow here ms := by
    rw [advance, if_pos (.inl rfl)]
  cases links with
  | zero => rfl
  | succ links =>
    rw [locateFrom, locateFrom]
    by_cases hne : ns = []
    · subst hne
      have hpieces : piecesOf (textOf []) = ["", ""] := by decide
      rw [hpieces, hskip, hskip]
    · rw [piecesOf_textOf h hne, hskip]

/-- The text is not too long for a path and has no character that ends it. -/
def Fits (text : String) : Prop := '\x00' ∉ text.toList ∧ text.utf8ByteSize < pathLimit

/-- Other texts are refused, and not because something is missing. -/
theorem exists_refusal_of_not_fits {text : String} (h : ¬Fits text) :
    ∃ e, e ≠ .system .noEntry ∧ ∀ follow, d.locate follow text = .error e := by
  by_cases hnul : '\x00' ∈ text.toList
  · refine ⟨_, ?_, fun follow => by rw [locate, if_pos (by simpa using hnul)]⟩
    simp
  · have hlong : pathLimit ≤ text.utf8ByteSize := Nat.not_lt.mp fun hlt => h ⟨hnul, hlt⟩
    have hempty : text.isEmpty = false := by
      rw [← Bool.not_eq_true, String.isEmpty_iff]
      rintro rfl
      exact absurd hlong (by decide)
    refine ⟨.system .nameTooLong, by simp, fun follow => ?_⟩
    rw [locate, if_neg (by simpa using hnul), hempty, if_neg Bool.false_ne_true, if_pos hlong]

theorem fits_of_locate {text : String} (h : d.locate follow text = .ok loc) : Fits text := by
  by_contra hfit
  obtain ⟨e, -, he⟩ := exists_refusal_of_not_fits (d := d) hfit
  rw [he] at h
  cases h

theorem Fits.front (h : Fits (textOf (ns ++ ms))) : Fits (textOf ns) := by
  obtain ⟨rest, hrest⟩ := textOf_append ns ms
  rw [hrest, Fits, String.toList_append, String.utf8ByteSize_append] at h
  exact ⟨fun hn => h.1 (List.mem_append_left _ hn), by omega⟩

theorem locate_textOf (hns : ∀ n ∈ ns, IsFileName n) (hfit : Fits (textOf ns)) :
    d.locate follow (textOf ns) =
      (d.locateFrom follow (linkLimit + 1) [] ns).mapError .system := by
  have hnul : (textOf ns).toList.contains '\x00' = false := by
    simpa using hfit.1
  rw [locate, hnul, isEmpty_textOf, if_neg Bool.false_ne_true, if_neg Bool.false_ne_true,
    if_neg (Nat.not_le.mpr hfit.2), isAbsolute_textOf, if_pos rfl, locateFrom_piecesOf_textOf hns]
  cases d.locateFrom follow (linkLimit + 1) [] ns <;> rfl

/-! ## The last name of a path -/

theorem advance_of_isFileName (hname : IsFileName name) :
    d.advance follow here (name :: ns) =
      if nameLimit < name.utf8ByteSize then .error .nameTooLong
      else d.enter follow here name ns := by
  rw [advance, if_neg (by simp [hname.1.1, hname.2.1]), if_neg hname.2.2]
  rfl

/-- A last name that is no link, or is not followed, leads to its place in the directory. -/
theorem enter_last (h : follow = false ∨ ∀ target, d.item? (here ++ [name]) ≠ some (.link target)) :
    d.enter follow here name [] = .ok (.at (here ++ [name])) := by
  cases hitem : d.item? (here ++ [name]) with
  | none => simp [enter, hitem]
  | some item =>
    cases item with
    | directory => simp [enter, hitem, advance]
    | file n => simp [enter, hitem]
    | link target =>
      have hfollow : follow = false := h.resolve_right fun h => h target hitem
      simp [enter, hitem, hfollow]

section
variable (hd : d.IsTree) (hns : ∀ n ∈ ns, IsFileName n) (hname : IsFileName name)
include hd hns hname

/-- A path that leads somewhere leads there from a directory. -/
theorem locate_front (h : d.locate follow (textOf (ns ++ [name])) = .ok loc) :
    ∃ dir, d.locate true (textOf ns) = .ok dir ∧ d.item? dir = some .directory := by
  have hfit := fits_of_locate h
  rw [locate_textOf (Path.forall_mem_snoc hns hname) hfit] at h
  rcases locateFrom_append hd (item?_nil d) (linkLimit + 1) ns
      (List.cons_ne_nil name []) with ⟨dir, left, hfront, hdir, -⟩ | ⟨-, hend⟩
  · exact ⟨dir, by rw [locate_textOf hns hfit.front, hfront]; rfl, hdir⟩
  · obtain ⟨e, he⟩ := hend follow
    rw [he] at h
    cases h

/-- In the directory that a path leads to, a further name is refused as a text, or it leads to its
place there, unless it is a link that is followed. -/
theorem locate_last (h : d.locate true (textOf ns) = .ok dir) (hdir : d.item? dir = some .directory) :
    (∃ e, e ≠ .system .noEntry ∧ ∀ follow, d.locate follow (textOf (ns ++ [name])) = .error e) ∨
    ∀ follow, (follow = false ∨ ∀ target, d.item? (dir ++ [name]) ≠ some (.link target)) →
      d.locate follow (textOf (ns ++ [name])) = .ok (dir ++ [name]) := by
  by_cases hfit : Fits (textOf (ns ++ [name]))
  · rw [locate_textOf hns hfit.front] at h
    rcases locateFrom_append hd (item?_nil d) (linkLimit + 1) ns
        (List.cons_ne_nil name []) with ⟨dir', left, hfront, -, hend⟩ | ⟨hno, -⟩
    · obtain rfl : dir' = dir := by
        rw [hfront] at h
        exact Except.ok.inj h
      simp only [locate_textOf (Path.forall_mem_snoc hns hname) hfit, hend]
      by_cases hlong : nameLimit < name.utf8ByteSize
      · refine .inl ⟨.system .nameTooLong, by simp, fun follow => ?_⟩
        rw [locateFrom_error (by rw [advance_of_isFileName hname, if_pos hlong])]
        rfl
      · refine .inr fun follow hf => ?_
        rw [locateFrom_at (by rw [advance_of_isFileName hname, if_neg hlong, enter_last hf])]
        rfl
    · cases hfront : d.locateFrom true (linkLimit + 1) [] ns with
      | error e =>
        rw [hfront] at h
        cases h
      | ok dir' =>
        rw [hfront] at h
        exact absurd (Except.ok.inj h ▸ hdir) (hno dir' hfront)
  · exact .inl (exists_refusal_of_not_fits hfit)

/-- A last name that is not followed, or is no link, leads to its place in the directory that the
names before it lead to. -/
theorem locate_snoc (h : d.locate follow (textOf (ns ++ [name])) = .ok loc) :
    ∃ dir, d.locate true (textOf ns) = .ok dir ∧ d.item? dir = some .directory ∧
      d.locate false (textOf (ns ++ [name])) = .ok (dir ++ [name]) ∧
      ((∀ target, d.item? (dir ++ [name]) ≠ some (.link target)) →
        d.locate true (textOf (ns ++ [name])) = .ok (dir ++ [name])) := by
  obtain ⟨dir, hfront, hdir⟩ := locate_front hd hns hname h
  rcases locate_last hd hns hname hfront hdir with ⟨e, -, he⟩ | hlast
  · rw [he] at h
    cases h
  · exact ⟨dir, hfront, hdir, hlast false (.inl rfl), fun hlink => hlast true (.inr hlink)⟩

end

/-! ## Directories lead to themselves -/

/-- Names that lead from directory to directory without a link lead to the last of these. -/
theorem advance_directories (hd : d.IsTree) (hns : ∀ n ∈ ns, IsFileName n)
    (hdir : d.item? (here ++ ns) = some .directory) :
    d.advance follow here ns =
      if ∃ n ∈ ns, nameLimit < n.utf8ByteSize then .error .nameTooLong
      else .ok (.at (here ++ ns)) := by
  induction ns generalizing here with
  | nil => simp [advance]
  | cons name ns ih =>
    have hsnoc : here ++ name :: ns = here ++ [name] ++ ns := by simp
    rw [hsnoc] at hdir ⊢
    have hnext : d.item? (here ++ [name]) = some .directory := by
      by_cases hns : ns = []
      · rwa [hns, List.append_nil] at hdir
      · exact hd.directory_above hdir (List.prefix_append _ _) (by simpa using hns)
    rw [advance_of_isFileName (hns name List.mem_cons_self)]
    by_cases hlong : nameLimit < name.utf8ByteSize
    · rw [if_pos hlong, if_pos ⟨name, List.mem_cons_self, hlong⟩]
    · rw [if_neg hlong, enter]
      simp only [hnext, List.mem_cons, exists_eq_or_imp, hlong, false_or]
      exact ih (fun n hn => hns n (List.mem_cons_of_mem _ hn)) hdir

/-- The text of a directory leads to the directory if it leads anywhere, on every disk that has the
directory. -/
theorem locate_directory (hd : d.IsTree) (hd' : d'.IsTree) (h : d.item? loc = some .directory)
    (h' : d'.item? loc = some .directory) (hq : d.locate true (textOf loc) = .ok q) :
    d'.locate follow (textOf loc) = .ok loc := by
  have hfit := fits_of_locate hq
  have hnames := hd.isFileName h
  rw [locate_textOf hnames hfit] at hq ⊢
  have hadv : d.advance true [] loc = _ := advance_directories hd hnames h
  have hadv' : d'.advance follow [] loc = _ := advance_directories hd' hnames h'
  split at hadv
  · rw [locateFrom_error hadv] at hq
    cases hq
  · rw [if_neg ‹_›] at hadv'
    rw [locateFrom_at hadv']
    rfl

/-! ## A disk with more on it -/

/-- The second disk has all that the first one has, and no other links. -/
structure Grown (d d' : Disk) : Prop where
  kept : ∀ {q x}, d.item? q = some x → d'.item? q = some x
  links : ∀ {q target}, d'.item? q = some (.link target) → d.item? q = some (.link target)

theorem Grown.refl (d : Disk) : Grown d d := ⟨id, id⟩

theorem Grown.trans {d'' : Disk} (h : Grown d d') (h' : Grown d' d'') : Grown d d'' :=
  ⟨fun hq => h'.kept (h.kept hq), fun hq => h.links (h'.links hq)⟩

theorem grown_of_new (hnone : d.item? loc = none) (hlink : ∀ target, item ≠ .link target)
    (hnew : ∀ q, d'.item? q = if q = loc then some item else d.item? q) : Grown d d' where
  kept {q x} hq := by
    rw [hnew, if_neg, hq]
    rintro rfl
    rw [hnone] at hq
    cases hq
  links {q target} hq := by
    rw [hnew] at hq
    split at hq
    · exact absurd (Option.some.inj hq) (hlink target)
    · exact hq

theorem advance_of_grown (hg : Grown d d') {reach : Reach}
    (h : d.advance follow here ns = .ok reach) : d'.advance follow here ns = .ok reach := by
  induction ns generalizing here with
  | nil => exact h
  | cons name ns ih =>
    rcases advance_cons here name with ⟨next, -, he⟩ | he | he
    · rw [he] at h ⊢
      exact ih h
    · rw [he] at h
      cases h
    · rw [he, enter] at h ⊢
      cases hitem : d.item? (here ++ [name]) with
      | none =>
        simp only [hitem] at h
        split at h
        · rename_i hns
          obtain rfl := List.isEmpty_iff.mp hns
          have hlink : ∀ target, d'.item? (here ++ [name]) ≠ some (.link target) := fun target ht => by
            rw [hg.links ht] at hitem
            cases hitem
          rw [← h, ← enter]
          exact enter_last (.inr hlink)
        · cases h
      | some item =>
        rw [hitem] at h
        rw [hg.kept hitem]
        cases item with
        | directory => exact ih h
        | file n => exact h
        | link target => exact h

theorem locateFrom_of_grown (hg : Grown d d') (h : d.locateFrom follow links here ns = .ok loc) :
    d'.locateFrom follow links here ns = .ok loc := by
  induction links generalizing here ns with
  | zero => cases h
  | succ links ih =>
    cases hadv : d.advance follow here ns with
    | error e =>
      rw [locateFrom_error hadv] at h
      cases h
    | ok reach =>
      cases reach with
      | «at» loc' =>
        rw [locateFrom_at hadv] at h
        rw [locateFrom_at (advance_of_grown hg hadv), h]
      | turn dir target rest =>
        rw [locateFrom_turn hadv] at h
        rw [locateFrom_turn (advance_of_grown hg hadv)]
        split at h
        · cases h
        · rw [if_neg ‹_›]
          exact ih h

/-- Where a path led, there it leads. -/
theorem locate_of_grown (hg : Grown d d') (hns : ∀ n ∈ ns, IsFileName n)
    (h : d.locate follow (textOf ns) = .ok loc) : d'.locate follow (textOf ns) = .ok loc := by
  have hfit := fits_of_locate h
  rw [locate_textOf hns hfit] at h ⊢
  cases hfrom : d.locateFrom follow (linkLimit + 1) [] ns with
  | error e =>
    rw [hfrom] at h
    cases h
  | ok q =>
    rw [locateFrom_of_grown hg hfrom, ← h, hfrom]

/-- A path to a place where nothing was leads there, once there is a file or a directory. -/
theorem locate_new (hd' : d'.IsTree) (hns : ∀ n ∈ ns, IsFileName n) (hname : IsFileName name)
    (hloc : d.locate false (textOf (ns ++ [name])) = .ok loc) (hnone : d.item? loc = none)
    (hlink : ∀ target, item ≠ .link target)
    (hnew : ∀ q, d'.item? q = if q = loc then some item else d.item? q) :
    d'.locate true (textOf (ns ++ [name])) = .ok loc := by
  have hfalse := locate_of_grown (grown_of_new hnone hlink hnew)
    (Path.forall_mem_snoc hns hname) hloc
  obtain ⟨dir, -, -, he, htrue⟩ := locate_snoc hd' hns hname hfalse
  obtain rfl : loc = dir ++ [name] := Except.ok.inj (hfalse.symm.trans he)
  refine htrue fun target ht => ?_
  rw [hnew, if_pos rfl] at ht
  exact hlink target (Option.some.inj ht)

end Strata.Disk
