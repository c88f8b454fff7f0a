/-
# `Strata.Proofs.Memory.Filling` — a filesystem filled with files

Files are added to an empty filesystem one after the other, with the directories
on the way.  In which order does not matter for whether it works: it works exactly
if no path is the root's and none leads through another one (`Fitting`).  What is
there in the end is said by the paths alone as well (`Filled`): a file at each
path, with the last text given for it, and a directory at each place on the way.
-/
import Strata.Proofs.Memory.Planting
import Strata.Proofs.Memory.Runs

namespace Strata.Memory

open Strata.Action Strata.Path

variable {m : Memory} {now : Timestamp} {files done : List (String × String)}
  {e e' : String × String} {ns : List String}

/-- Adds files with these texts at these paths, first to last. -/
def addFiles (now : Timestamp) (files : List (String × String)) : Action Memory Unit :=
  files.forM fun e => addFile now e.1 (Bytes.ofText e.2) now

/-- The names that lead to a file. -/
def namesOf (e : String × String) : List String := components (normalize e.1 false)

/-- The path of the first file is a proper ancestor of that of the second. -/
def IsAbove (e e' : String × String) : Prop := namesOf e <+: namesOf e' ∧ namesOf e ≠ namesOf e'

/-- No file is in the place of the root, and none above another one. -/
structure Fitting (files : List (String × String)) : Prop where
  named : ∀ e ∈ files, normalize e.1 false ≠ ""
  apart : ∀ e ∈ files, ∀ e' ∈ files, ¬IsAbove e e'

/-- No name on the way to a file has white space around it. -/
def Trimmed (files : List (String × String)) : Prop :=
  ∀ e ∈ files, ∀ n ∈ namesOf e, Text.trim n = n

instance : DecidablePred Trimmed := fun files =>
  inferInstanceAs (Decidable (∀ e ∈ files, ∀ n ∈ namesOf e, Text.trim n = n))

/-- A tree that holds these files, and nothing else but the directories on the way to them. -/
structure Filled (now : Timestamp) (files : List (String × String)) (t : Tree) : Prop where
  clean : t.Clean
  file : ∀ ns, (∀ n ∈ ns, IsName n) →
    (t.kind (ofNames ns) = .file ↔ ∃ e ∈ files, namesOf e = ns)
  missing : ∀ ns, (∀ n ∈ ns, IsName n) →
    (t.kind (ofNames ns) = .unknown ↔ ns ≠ [] ∧ ∀ e ∈ files, ¬ns <+: namesOf e)
  contents : ∀ front e back, files = front ++ e :: back →
    (∀ e' ∈ back, namesOf e' ≠ namesOf e) →
    t.find? (normalize e.1 false) = some (.file (Bytes.ofText e.2) now)

/-! ## Paths that fit together -/

theorem fitting_nil : Fitting [] := ⟨by simp, by simp⟩

theorem Fitting.mono {more : List (String × String)} (h : Fitting more) (hsub : files ⊆ more) :
    Fitting files where
  named e he := h.named e (hsub he)
  apart e he e' he' := h.apart e (hsub he) e' (hsub he')

theorem isAbove_congr {x : String × String} (h : namesOf x = namesOf e) :
    (IsAbove x e' ↔ IsAbove e e') ∧ (IsAbove e' x ↔ IsAbove e' e) := by
  simp only [IsAbove, h, and_self]

theorem not_isAbove_self (e : String × String) : ¬IsAbove e e := fun h => h.2 rfl

theorem fitting_snoc (h : Fitting done) :
    Fitting (done ++ [e]) ↔
      normalize e.1 false ≠ "" ∧ ∀ e' ∈ done, ¬IsAbove e e' ∧ ¬IsAbove e' e := by
  constructor
  · intro hall
    refine ⟨hall.named e (by simp), fun e' he' => ?_⟩
    have hmem : e' ∈ done ++ [e] := List.mem_append_left _ he'
    exact ⟨hall.apart e (by simp) e' hmem, hall.apart e' hmem e (by simp)⟩
  · rintro ⟨hname, hapart⟩
    have hself : ¬IsAbove e e := not_isAbove_self e
    constructor
    · intro x hx
      rcases List.mem_append.mp hx with hx | hx
      · exact h.named x hx
      · rwa [List.mem_singleton.mp hx]
    · intro x hx y hy
      rcases List.mem_append.mp hx with hx | hx <;> rcases List.mem_append.mp hy with hy | hy
      · exact h.apart x hx y hy
      · exact List.mem_singleton.mp hy ▸ (hapart x hx).2
      · exact List.mem_singleton.mp hx ▸ (hapart y hy).1
      · rwa [List.mem_singleton.mp hx, List.mem_singleton.mp hy]

theorem namesOf_ne_nil (h : normalize e.1 false ≠ "") : namesOf e ≠ [] :=
  components_normalize_ne_nil h

theorem ofNames_namesOf (e : String × String) : ofNames (namesOf e) = normalize e.1 false :=
  ofNames_components_normalize e.1

theorem isName_of_trimmed (h : ∀ n ∈ namesOf e, Text.trim n = n) : ∀ n ∈ namesOf e, IsName n :=
  fun n hn => ⟨isComponent_of_mem hn, h n hn⟩

/-! ## One more file -/

theorem Tree.kind_root (path : String) :
    Tree.root.kind path = if path = "" then .directory else .unknown :=
  Tree.kind_put ⟨.empty⟩ "" path (.directory .epoch)

theorem filled_root (now : Timestamp) : Filled now [] Tree.root where
  clean := clean_root
  file ns _ := by
    rw [Tree.kind_root]
    split <;> simp
  missing ns hns := by
    have hroot : ofNames ns = "" ↔ ns = [] := ofNames_eq_empty fun n hn => (hns n hn).1
    rw [Tree.kind_root]
    simp [hroot]
  contents front e back h := by simp at h

section
variable {t t' : Tree} (hfill : Filled now done t)
include hfill

theorem Filled.kind_eq_directory (hns : ∀ n ∈ ns, IsName n) (h : t.kind (ofNames ns) ≠ .unknown)
    (hapart : ∀ e ∈ done, namesOf e ≠ ns) : t.kind (ofNames ns) = .directory := by
  cases hk : t.kind (ofNames ns) with
  | unknown => exact absurd hk h
  | directory => rfl
  | file =>
      obtain ⟨e, he, hsame⟩ := (hfill.file ns hns).mp hk
      exact absurd hsame (hapart e he)

/-- A file can be put into its place exactly if it fits together with those that are there. -/
theorem Filled.admits_iff (hfit : Fitting done) (hns : ∀ n ∈ namesOf e, IsName n)
    (h0 : normalize e.1 false ≠ "") :
    t.Admits .file (namesOf e) ↔ Fitting (done ++ [e]) := by
  rw [fitting_snoc hfit]
  constructor
  · refine fun hadmits => ⟨h0, fun e' he' => ⟨fun habove => ?_, fun habove => ?_⟩⟩
    · -- what is in the place of `e` would be a file, and so above `e'` as well
      have hthere : t.kind (ofNames (namesOf e)) ≠ .unknown := fun hmiss =>
        ((hfill.missing _ hns).mp hmiss).2 e' he' habove.1
      have hkind := (hadmits _ (namesOf_ne_nil h0) List.prefix_rfl).resolve_left hthere
      rw [Tree.kindOnWay, if_pos rfl] at hkind
      obtain ⟨x, hx, hsame⟩ := (hfill.file _ hns).mp hkind
      exact hfit.apart x hx e' he' ((isAbove_congr hsame).1.mpr habove)
    · have hkind : t.kind (ofNames (namesOf e')) = .file :=
        (hfill.file _ fun n hn => hns n (habove.1.subset hn)).mpr ⟨e', he', rfl⟩
      have hway := hadmits _ (namesOf_ne_nil (hfit.named e' he')) habove.1
      rw [hkind, Tree.kindOnWay, if_neg habove.2] at hway
      simp at hway
  · rintro ⟨-, hapart⟩ ms hms hway
    have hnames : ∀ n ∈ ms, IsName n := fun n hn => hns n (hway.subset hn)
    by_cases hmiss : t.kind (ofNames ms) = .unknown
    · exact .inl hmiss
    right
    by_cases hsame : ms = namesOf e
    · rw [Tree.kindOnWay, if_pos hsame]
      have hthere : ∃ e' ∈ done, ms <+: namesOf e' := by
        by_contra hnone
        exact hmiss ((hfill.missing _ hnames).mpr ⟨hms, fun e' he' hp => hnone ⟨e', he', hp⟩⟩)
      obtain ⟨e', he', hp⟩ := hthere
      rw [hsame] at hp
      have heq : namesOf e = namesOf e' := by
        by_contra hne
        exact (hapart e' he').1 ⟨hp, hne⟩
      exact (hfill.file _ hnames).mpr ⟨e', he', by rw [← heq, hsame]⟩
    · rw [Tree.kindOnWay, if_neg hsame]
      refine hfill.kind_eq_directory hnames hmiss fun e' he' heq => ?_
      rw [← heq] at hway hsame
      exact (hapart e' he').2 ⟨hway, hsame⟩

/-- What is at a path once the place of a file has been made. -/
theorem Filled.kind_planted (hns : ∀ n ∈ namesOf e, IsName n)
    (hplanted : Tree.Planted now .file (namesOf e) t t') {ms : List String}
    (hms : ∀ n ∈ ms, IsName n) :
    (t'.kind (ofNames ms) = .file ↔ ∃ x ∈ done ++ [e], namesOf x = ms) ∧
      (t'.kind (ofNames ms) = .unknown ↔ ms ≠ [] ∧ ∀ x ∈ done ++ [e], ¬ms <+: namesOf x) := by
  by_cases hway : ms <+: namesOf e
  · have hkind : t'.kind (ofNames ms) = if ms = namesOf e then .file else .directory := by
      split
      · rename_i hsame
        rw [hsame, hplanted.target]
      · exact hplanted.way ms hway ‹_›
    have hno : ¬∀ x ∈ done ++ [e], ¬ms <+: namesOf x := fun h => h e (by simp) hway
    refine ⟨⟨fun hfile => ⟨e, by simp, ?_⟩, ?_⟩, ⟨fun hmiss => ?_, fun h => absurd h.2 hno⟩⟩
    · by_contra hne
      rw [hkind, if_neg (Ne.symm hne)] at hfile
      cases hfile
    · rintro ⟨x, hx, hsame⟩
      rcases List.mem_append.mp hx with hx | hx
      · have hfile : t.kind (ofNames ms) = .file := (hfill.file ms hms).mpr ⟨x, hx, hsame⟩
        rw [hplanted.kind_kept (by rw [hfile]; simp), hfile]
      · rw [List.mem_singleton.mp hx] at hsame
        rw [hkind, if_pos hsame.symm]
    · rw [hkind] at hmiss
      split at hmiss <;> cases hmiss
  · have hsame : t'.kind (ofNames ms) = t.kind (ofNames ms) := by
      rcases hplanted.grown (ofNames ms) with hsame | ⟨-, node, ⟨ks, -, hks, heq, -⟩, -⟩
      · exact Tree.kind_congr hsame
      · have := ofNames_injective (fun n hn => (hms n hn).1)
          (fun n hn => (hns n (hks.subset hn)).1) heq
        exact absurd (this ▸ hks) hway
    have hne : namesOf e ≠ ms := fun heq => hway (heq ▸ List.prefix_rfl)
    rw [hsame, hfill.file ms hms, hfill.missing ms hms]
    simp only [List.mem_append, List.mem_singleton, or_and_right, exists_or, exists_eq_left, hne,
      or_false, or_imp, forall_and, forall_eq, hway, not_false_eq_true, and_true, and_self]

theorem Filled.snoc (hns : ∀ n ∈ namesOf e, IsName n)
    (hplanted : Tree.Planted now .file (namesOf e) t t') :
    Filled now (done ++ [e]) (t'.put (normalize e.1 false) (.file (Bytes.ofText e.2) now)) := by
  have hput (q : String) :
      (t'.put (normalize e.1 false) (.file (Bytes.ofText e.2) now)).kind q = t'.kind q := by
    obtain ⟨old, mtime, hfile⟩ := exists_file_of_kind (ofNames_namesOf e ▸ hplanted.target)
    exact Tree.kind_put_file hfile _ now q
  have hkind {ms : List String} (hms : ∀ n ∈ ms, IsName n) := hfill.kind_planted hns hplanted hms
  refine ⟨hplanted.clean.of_kind hput, fun ms hms => ?_, fun ms hms => ?_, ?_⟩
  · rw [hput, (hkind hms).1]
  · rw [hput, (hkind hms).2]
  intro front x back hsplit hlast
  rw [Tree.find?_put]
  rcases List.eq_nil_or_concat back with rfl | ⟨back, e', rfl⟩
  · obtain rfl : e = x := by simpa using (List.append_inj' hsplit rfl).2
    rw [if_pos rfl]
  · rw [List.concat_eq_append, ← List.cons_append, ← List.append_assoc] at hsplit
    obtain ⟨rfl, hlast_eq⟩ := List.append_inj' hsplit rfl
    obtain rfl : e = e' := by simpa using hlast_eq
    have hx := hfill.contents front x back rfl fun y hy => hlast y (by simp [hy])
    have hne : normalize x.1 false ≠ normalize e.1 false := fun h =>
      hlast e (by simp) (congrArg components h).symm
    rw [if_neg hne, hplanted.kept (by rw [hx]; simp), hx]

end

/-! ## One file after the other -/

/-- Adding a file works exactly if it fits together with those that are there. -/
theorem exec_addFile_filled (hfit : Fitting done) (hfill : Filled now done m.tree)
    (htrim : ∀ n ∈ namesOf e, Text.trim n = n) :
    let r := (addFile now e.1 (Bytes.ofText e.2) now).exec m
    (r.1 = .ok () ↔ Fitting (done ++ [e])) ∧
      (r.1 = .ok () → ∃ t, r.2 = { m with tree := t } ∧ Filled now (done ++ [e]) t) := by
  intro r
  have hns := isName_of_trimmed htrim
  obtain ⟨hroot, err, he⟩ | ⟨h0, u, t, hensure, herr, hok⟩ :=
    addFile_cases m now e.1 (Bytes.ofText e.2) now
  · have hfail : r.1 ≠ .ok () := by simp [r, he]
    exact ⟨⟨fun h => absurd h hfail, fun h => absurd hroot (h.named e (by simp))⟩,
      fun h => absurd h hfail⟩
  have hclean : Path.Clean (normalize e.1 false) := by
    rw [← ofNames_namesOf]
    exact clean_ofNames hns
  obtain ⟨hiff, hplanted⟩ :=
    Tree.planted_of_ensure (rfl : Kind.file.isCreatable = true) hclean h0 hfill.clean hensure
  rw [show components (normalize e.1 false) = namesOf e from rfl,
    hfill.admits_iff hfit hns h0] at hiff
  rw [← hiff]
  cases u with
  | error err =>
      have hfail : r.1 ≠ .ok () := by simp [r, herr err rfl]
      exact ⟨⟨fun h => absurd h hfail, fun h => (by cases h)⟩, fun h => absurd h hfail⟩
  | ok =>
      have hr : r = _ := hok rfl
      rw [hr]
      exact ⟨⟨fun _ => rfl, fun _ => rfl⟩, fun _ => ⟨_, rfl, hfill.snoc hns (hplanted rfl)⟩⟩

/-- Files can be added one after the other exactly if they fit together, in whatever order. -/
theorem exec_addFiles (hfit : Fitting done) (hfill : Filled now done m.tree)
    (htrim : Trimmed files) :
    let r := (addFiles now files).exec m
    (r.1 = .ok () ↔ Fitting (done ++ files)) ∧
      (r.1 = .ok () → ∃ t, r.2 = { m with tree := t } ∧ Filled now (done ++ files) t) := by
  induction files generalizing done m with
  | nil =>
      rw [List.append_nil]
      exact ⟨⟨fun _ => hfit, fun _ => rfl⟩, fun _ => ⟨m.tree, rfl, hfill⟩⟩
  | cons e files ih =>
      have hstep := exec_addFile_filled hfit hfill (htrim e (by simp))
      rw [List.append_cons, addFiles, List.forM, exec_bind]
      rcases hexec : (addFile now e.1 (Bytes.ofText e.2) now).exec m with ⟨err | u, m'⟩
      · rw [hexec] at hstep
        have hno : ¬Fitting (done ++ [e] ++ files) := fun h => by
          cases hstep.1.mpr (h.mono (List.subset_append_left _ _))
        exact ⟨⟨fun h => (by cases h), fun h => absurd h hno⟩, fun h => (by cases h)⟩
      · rw [hexec] at hstep
        obtain ⟨t, rfl, hfilled⟩ := hstep.2 rfl
        exact ih (hstep.1.mp rfl) hfilled fun x hx => htrim x (List.mem_cons_of_mem _ hx)

end Strata.Memory
