/-
# `Strata.Proofs.Store.Opening` — opening a file of a layer, to the last change

A layer that keeps its tree in memory or in an archive, perhaps behind probes, does
three things when one of its files is opened: the probes count until one of them
refuses, the file is emptied if the stream starts from nothing, and a stream or a
failure is handed out.  Nothing else in the store changes, and what is handed out
does not depend on what the probes have counted before.
-/
import Strata.Proofs.Store.Backing

namespace Strata

open Strata.Action Strata.Path

namespace Store

/-- The store in which a probe has counted one more opening. -/
def countOpen (s : Store) (probe : Nat) : Store :=
  { s with probes := s.probes.setIfInBounds probe (s.probe probe).countOpen }

/-- The store in which these probes have counted one more opening each. -/
def countOpens (s : Store) (probes : List Nat) : Store := probes.foldl countOpen s

variable (s : Store)

theorem exec_countOpen (probe : Nat) :
    (changeProbe probe Probe.countOpen).exec s = (.ok (), s.countOpen probe) := rfl

theorem countOpens_append (ps qs : List Nat) :
    s.countOpens (ps ++ qs) = (s.countOpens ps).countOpens qs := List.foldl_append

theorem countOpens_eq (ps : List Nat) :
    s.countOpens ps = { s with probes := (s.countOpens ps).probes } := by
  induction ps generalizing s with
  | nil => rfl
  | cons p ps ih => exact ih (s.countOpen p)

theorem probe_countOpen (p q : Nat) :
    (s.countOpen p).probe q
      = if p = q ∧ p < s.probes.size then (s.probe q).countOpen else s.probe q := by
  simp only [countOpen, probe, Array.getD_eq_getD_getElem?, Array.getElem?_setIfInBounds]
  by_cases hq : p = q
  · subst hq
    by_cases hp : p < s.probes.size <;> simp [hp]
  · simp [hq]

theorem failing_countOpens (ps : List Nat) (q : Nat) :
    ((s.countOpens ps).probe q).failing = (s.probe q).failing := by
  induction ps generalizing s with
  | nil => rfl
  | cons p ps ih =>
      refine (ih (s.countOpen p)).trans ?_
      rw [probe_countOpen]
      split <;> rfl

/-- A probe counts as often as it is named. -/
theorem probe_countOpens {q : Nat} (hq : q < s.probes.size) (ps : List Nat) :
    (s.countOpens ps).probe q = { s.probe q with opens := (s.probe q).opens + ps.count q } := by
  induction ps generalizing s with
  | nil => rfl
  | cons p ps ih =>
      have hsize : (s.countOpen p).probes.size = s.probes.size := Array.size_setIfInBounds ..
      refine (ih (s.countOpen p) (hsize ▸ hq)).trans ?_
      rw [probe_countOpen, List.count_cons]
      by_cases hp : p = q
      · subst hp
        simp only [hq, and_self, if_true, beq_self_eq_true, Probe.countOpen]
        rw [Nat.add_assoc, Nat.add_comm 1]
      · simp [hp]

theorem sameTrees_countOpens (ps : List Nat) : s.SameTrees (s.countOpens ps) := by
  rw [countOpens_eq]
  exact ⟨rfl, rfl⟩

end Store

/-- Opening empties the file if the stream starts from nothing, and does nothing else. -/
theorem Memory.snd_openBuffer (m : Memory) (now : Timestamp) (path : String) (mode : OpenMode) :
    ((openBuffer now path mode).exec m).2 =
      if ((openBuffer now path mode).exec m).1.isOk && mode.truncates then
        { m with tree := m.tree.put path (.file [] now) }
      else m := by
  rw [openBuffer]
  simp only [exec_bind, exec_get, exec_ofExcept]
  cases mode.checkAgainst m.operations path with
  | error e => rfl
  | ok required =>
      cases hmap : mode.mapped with
      | true => rfl
      | false =>
          rcases hf : m.tree.find? path with _ | mtime | ⟨data, mtime⟩
          · rfl
          · rfl
          · cases ht : mode.truncates with
            | true => rfl
            | false => cases mode.write <;> rfl

namespace Filesystem

/-- The probes that an opening of the path comes to. -/
def asked (s : Store) (path : String) : Filesystem → List Nat
  | .probed probe inner =>
    probe :: if (s.probe probe).failing.contains path then [] else inner.asked s path
  | _ => []

/-- What the layer answers when its file at a path is opened. -/
def opened (n : Nat) (s : Store) (mode : OpenMode) (path : String) (f : Filesystem) :
    Except Failure Stream :=
  (((Store.provider (n + 1)).openStream (f.entryAt path) mode).exec s).1

variable (n : Nat) (mode : OpenMode) {f : Filesystem} {s : Store} {path : String}

/-- A probe counts, and refuses or hands the opening on. -/
theorem exec_openStream_probed (p : Nat) (e : Entry) (s : Store) :
    ((Store.provider (n + 1)).openStream (.probed p e) mode).exec s =
      if (s.probe p).failing.contains e.path then
        (.error (.backend s!"injected open failure: {e.path}"), s.countOpen p)
      else ((Store.provider (n + 1)).openStream e mode).exec (s.countOpen p) := by
  have hfailing : ((s.countOpen p).probe p).failing = (s.probe p).failing :=
    s.failing_countOpens [p] p
  show (Entry.openStream (Store.provider n) (.probed p e) mode).exec s = _
  rw [Entry.openStream]
  simp only [exec_bind, Store.exec_countOpen, exec_get, hfailing]
  split <;> rfl

theorem exec_openStream_memory (id : Nat) (path : String) (s : Store) :
    ((Store.provider (n + 1)).openStream (.memory id path) mode).exec s =
      (((Memory.openBuffer s.clock path mode).exec (s.memory id)).1.map fun b =>
          .buffer b (if mode.write then some (id, path) else none),
        s.setMemory id ((Memory.openBuffer s.clock path mode).exec (s.memory id)).2) := by
  show (Entry.openStream (Store.provider n) (.memory id path) mode).exec s = _
  rw [Entry.openStream]
  simp only [exec_bind, exec_get, Store.exec_inMemory]
  cases ((Memory.openBuffer s.clock path mode).exec (s.memory id)).1 <;> rfl

theorem exec_openStream_archive (id : Nat) (path : String) (s : Store) :
    ((Store.provider (n + 1)).openStream (.archive id path) mode).exec s =
      (((s.archive id).openBuffer path mode).map fun b => .buffer b none, s) := by
  show (Entry.openStream (Store.provider n) (.archive id path) mode).exec s = _
  rw [Entry.openStream]
  simp only [exec_bind, exec_get, exec_ofExcept]
  cases (s.archive id).openBuffer path mode <;> rfl

theorem asked_countOpens (ps : List Nat) (f : Filesystem) :
    f.asked (s.countOpens ps) path = f.asked s path := by
  induction f with
  | probed p inner ih => rw [asked, asked, Store.failing_countOpens, ih]
  | _ => rfl

/-- What the probes have counted makes no difference. -/
theorem opened_countOpens (h : f.CleanTree s) (ps : List Nat) :
    f.opened n (s.countOpens ps) mode path = f.opened n s mode path := by
  induction f generalizing s ps with
  | memory id =>
      rw [opened, opened, entryAt, exec_openStream_memory, exec_openStream_memory,
        Store.countOpens_eq]
      rfl
  | archive id =>
      rw [opened, opened, entryAt, exec_openStream_archive, exec_openStream_archive,
        Store.countOpens_eq]
      rfl
  | probed p inner ih =>
      have hone : opened n (s.countOpen p) mode path inner = opened n s mode path inner :=
        ih h [p]
      have hall : opened n ((s.countOpens ps).countOpen p) mode path inner
          = opened n s mode path inner := by
        have hps : (s.countOpens ps).countOpen p = s.countOpens (ps ++ [p]) :=
          (s.countOpens_append ps [p]).symm
        rw [hps]
        exact ih h _
      rw [opened, opened, entryAt, exec_openStream_probed, exec_openStream_probed,
        Store.failing_countOpens]
      split
      · rfl
      · exact hall.trans hone.symm
  | _ => exact h.elim

/-- All that an opening does: it answers, the probes count, and the file is emptied if the stream
starts from nothing. -/
theorem exec_openStream_exact (h : f.CleanTree s) :
    ((Store.provider (n + 1)).openStream (f.entryAt path) mode).exec s =
      (f.opened n s mode path,
        if (f.opened n s mode path).isOk && mode.truncates then
          (s.countOpens (f.asked s path)).plant f path .file
        else s.countOpens (f.asked s path)) := by
  refine Prod.ext rfl ?_
  induction f generalizing s with
  | memory id =>
      rw [opened, entryAt, exec_openStream_memory, Memory.snd_openBuffer]
      cases ((Memory.openBuffer s.clock path mode).exec (s.memory id)).1 with
      | error e => exact s.setMemory_self id
      | ok b =>
          cases mode.truncates with
          | true => rfl
          | false => exact s.setMemory_self id
  | archive id =>
      rw [opened, entryAt, exec_openStream_archive]
      exact (ite_self s).symm
  | probed p inner ih =>
      have hinner : inner.CleanTree s := h
      have hrest := ih (CleanTree.congr (s.sameTrees_countOpens [p]) hinner)
      have hopened : opened n (s.countOpen p) mode path inner = opened n s mode path inner :=
        opened_countOpens n mode hinner [p]
      rw [opened, entryAt, exec_openStream_probed, asked, hinner.path_entryAt]
      by_cases hfail : (s.probe p).failing.contains path = true
      · rw [if_pos hfail, if_pos hfail]
        rfl
      · rw [if_neg hfail, if_neg hfail]
        rw [← opened, hopened]
        rw [opened_countOpens n mode hinner, asked_countOpens] at hrest
        exact hrest
  | _ => exact h.elim

end Filesystem

namespace Store

theorem plant_eq (s : Store) (f : Filesystem) (path : String) (kind : Kind) :
    s.plant f path kind = { s with memories := (s.plant f path kind).memories } := by
  rw [plant]
  cases f.memory? <;> rfl

/-- What emptying a file of a layer leaves in the memory filesystems. -/
theorem memory_plant_file {s : Store} {f : Filesystem} {path : String} (h : f.CleanTree s)
    (hk : (f.outline s).kind path = .file) (id : Nat) :
    (s.plant f path .file).memory id =
      if f.memory? = some id then
        { s.memory id with tree := (s.memory id).tree.put path (.file [] s.clock) }
      else s.memory id := by
  rw [plant]
  cases hm : f.memory? with
  | none => rfl
  | some j =>
      have hex : ((f.outline s).kind path).exists? = true := by
        rw [hk]
        rfl
      have hp : Path.Clean path := h.outline_clean.clean_of_exists hex
      have hne : components path ≠ [] := by
        intro h0
        rw [← hp.ofNames_components, h0, ofNames_nil, h.outline_clean.root] at hk
        cases hk
      rw [(f.outline_of_memory h hm).1, ← hp.ofNames_components] at hex
      have hj := lt_of_exists (fun n hn => (hp.isName hn).1) hne hex
      simp only [memory_setMemory, hj, and_true, Option.some.injEq, eq_comm]
      split
      · rename_i he
        rw [he]
        rfl
      · rfl

end Store

end Strata
