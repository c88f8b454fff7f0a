/-
# `Strata.Proofs.Memory.Atomicity` — a call that fails leaves the filesystem as it was

Every call on a memory filesystem checks before it acts, but for one thing: on the way
to a new node directories are made one by one, and a file may be in the way.  Where
every node lies in a directory the file comes before anything that is missing, so
nothing has been made when it is met.  No assumption is made on the texts, in the
tree or in the call.
-/
import Strata.Proofs.Memory.AnyName
import Strata.Proofs.Memory.Runs

namespace Strata.Memory

open Strata.Action Strata.Path

/-- The call leaves the filesystem as it was if it fails on it. -/
def IsWhole {α : Type} (x : Action Memory α) (m : Memory) : Prop :=
  ∀ e m', x.exec m = (.error e, m') → m' = m

variable {m : Memory} {now : Timestamp} {path name : String}

theorem whole_of_refused {α : Type} {x : Action Memory α} {e : Failure}
    (h : x.exec m = (.error e, m)) : IsWhole x m := by
  intro e' m' hexec
  exact (Prod.mk.inj (hexec.symm.trans h)).2

theorem whole_of_ok {α : Type} {x : Action Memory α} {a : α} {m₁ : Memory}
    (h : x.exec m = (.ok a, m₁)) : IsWhole x m := by
  intro e' m' hexec
  rw [h] at hexec
  cases hexec

theorem whole_addDirectory (h : m.tree.Parented) : IsWhole (addDirectory now path) m := by
  intro e m' hexec
  rw [addDirectory, exec_onTree] at hexec
  rcases hensure : (Tree.ensure now (normalize path false) .directory).exec m.tree with ⟨r, t⟩
  rw [hensure] at hexec
  obtain ⟨rfl, rfl⟩ := Prod.mk.inj hexec
  obtain ⟨-, rfl⟩ := Tree.ensure_whole now rfl h hensure
  rfl

theorem whole_addFile (h : m.tree.Parented) (data : Bytes) (modified : Timestamp) :
    IsWhole (addFile now path data modified) m := by
  obtain ⟨-, e, hexec⟩ | ⟨-, r, t, hensure, herr, hok⟩ := addFile_cases m now path data modified
  · exact whole_of_refused hexec
  · cases r with
    | ok u => exact whole_of_ok (hok rfl)
    | error e =>
        obtain ⟨-, rfl⟩ := Tree.ensure_whole now rfl h hensure
        exact whole_of_refused (herr e rfl)

theorem whole_create (h : m.tree.Parented) (kind : Kind) : IsWhole (create now path kind name) m := by
  intro e m' hexec
  have hsame := (create_whole h now path kind name (congrArg Prod.fst hexec)).2
  rwa [hexec] at hsame

theorem whole_delete : IsWhole (delete path name) m := by
  obtain ⟨-, e, hexec⟩ | ⟨-, -, -, hexec⟩ | ⟨-, -, -, -, hexec⟩ := delete_cases m path name
  · exact whole_of_refused hexec
  · exact whole_of_ok hexec
  · exact whole_of_ok hexec

/-- Only the directories on the way to the target can be in conflict once the move has begun. -/
theorem whole_rename (h : m.tree.Parented) (target : String) :
    IsWhole (rename now path target) m := by
  obtain ⟨e, hexec⟩ | ⟨-, -, -, -, -, r, t, hensure, herr, hok⟩ := rename_cases m now path target
  · exact whole_of_refused hexec
  cases r with
  | ok u => exact whole_of_ok (hok rfl)
  | error e =>
      rw [Tree.ensureParent] at hensure
      cases hparent : parent? (normalize target false) with
      | none =>
          rw [hparent] at hensure
          cases hensure
      | some parent =>
          rw [hparent] at hensure
          obtain ⟨-, rfl⟩ := Tree.ensure_whole now rfl h hensure
          exact whole_of_refused (herr e rfl)

/-- The file is emptied only by an opening that succeeds. -/
theorem whole_openBuffer (mode : OpenMode) : IsWhole (openBuffer now path mode) m := by
  obtain ⟨r, hexec⟩ | ⟨b, data, mtime, -, hexec⟩ := openBuffer_cases m now path mode
  · intro e m' hexec'
    exact (Prod.mk.inj (hexec'.symm.trans hexec)).2
  · exact whole_of_ok hexec

theorem whole_commit (now : Timestamp) (m : Memory) (path : String) (data : Bytes) {e : IoError}
    {m' : Memory} (hexec : (commit now path data).run m = (.error e, m')) : m' = m := by
  obtain ⟨-, hrefused⟩ | ⟨old, mtime, -, hdone⟩ := commit_cases m now path data
  · exact (Prod.mk.inj (hexec.symm.trans hrefused)).2
  · rw [hdone] at hexec
    cases hexec

/-! ## Every call -/

/-- What the call answers, but for the value that it may return. -/
def Change.answer (now : Timestamp) (m : Memory) : Change → Except Failure Unit
  | .addDirectory path => ((Memory.addDirectory now path).exec m).1
  | .addFile path data modified => ((Memory.addFile now path data modified).exec m).1
  | .create path kind name => ((Memory.create now path kind name).exec m).1.map fun _ => ()
  | .delete path name => ((Memory.delete path name).exec m).1.map fun _ => ()
  | .rename path target => ((Memory.rename now path target).exec m).1
  | .openBuffer path mode => ((Memory.openBuffer now path mode).exec m).1.map fun _ => ()
  | .commit path data => ((Memory.commit now path data).run m).1.mapError .io

theorem IsWhole.unchanged {α : Type} {x : Action Memory α} (h : IsWhole x m) {e : Failure}
    (he : (x.exec m).1 = .error e) : (x.exec m).2 = m :=
  h e _ (Prod.ext he rfl)

theorem IsWhole.unchanged_of_map {α : Type} {x : Action Memory α} (h : IsWhole x m) {e : Failure}
    (he : ((x.exec m).1.map fun _ => ()) = .error e) : (x.exec m).2 = m := by
  cases hr : (x.exec m).1 with
  | ok a =>
      rw [hr] at he
      cases he
  | error e' => exact h.unchanged hr

/-- Calls on a memory filesystem are atomic: if every node lies in a directory, then a call that
fails, with any paths, names and contents and whatever the filesystem allows, leaves all nodes, their
contents and their times as they were. -/
theorem failed_change_leaves_all (h : m.tree.Parented) {c : Change} {e : Failure}
    (hfail : c.answer now m = .error e) : c.after now m = m := by
  cases c with
  | addDirectory path => exact (whole_addDirectory h).unchanged hfail
  | addFile path data modified => exact (whole_addFile h data modified).unchanged hfail
  | create path kind name => exact (whole_create h kind).unchanged_of_map hfail
  | delete path name => exact whole_delete.unchanged_of_map hfail
  | rename path target => exact (whole_rename h target).unchanged hfail
  | openBuffer path mode => exact (whole_openBuffer mode).unchanged_of_map hfail
  | commit path data =>
      cases hr : ((Memory.commit now path data).run m).1 with
      | ok u =>
          rw [Change.answer, hr] at hfail
          cases hfail
      | error e' => exact whole_commit now m path data (Prod.ext hr rfl)

/-- On the way to the target of the move is a file, and its name is found with a blank beside it. -/
theorem failed_change_leaves_all_conflict :
    let t := ((Tree.root.put "a" (.directory .epoch)).put "a/b" (.file [1] .epoch)).put "c"
      (.file [2] .epoch)
    let m : Memory := { tree := t }
    let c : Change := .rename "c" "a /b/x/y"
    m.tree.Parented ∧ c.answer .epoch m = .error (.conflict "a/b") ∧ c.after .epoch m = m := by
  intro t m c
  have h : m.tree.Parented := by decide +kernel
  have hfail : c.answer .epoch m = .error (.conflict "a/b") := by decide +kernel
  exact ⟨h, hfail, failed_change_leaves_all h hfail⟩

end Strata.Memory
