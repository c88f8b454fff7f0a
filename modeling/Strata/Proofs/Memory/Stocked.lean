/-
# `Strata.Proofs.Memory.Stocked` — a directory for one file, and the tree without it

Somebody who makes a directory in a tree, works on one file in it and removes the
directory again leaves the tree as it was: the very table of nodes, not only one that
answers alike.  `Stocked` says what the tree is like in between.  It comes about when
the file is made, it is kept when the file is filled and when it gets another name
(`stocked_ensure`, `Stocked.fill`, `Stocked.move`), and its field `rest` says what the
removal leaves.
-/
import Strata.Proofs.Memory.OneName

namespace Strata.Memory.Tree

open Strata.Action Strata.Path

variable {t t₀ : Tree} {top path : String}

/-! ## What a removal does not see -/

theorem filter_putIn {α : Type} (test : String → Bool) {key : String} (h : test key = false)
    (value : α) (entries : List (String × α)) :
    (Table.putIn key value entries).filter (fun e => test e.1)
      = entries.filter fun e => test e.1 := by
  induction entries with
  | nil => simp [Table.putIn, h]
  | cons entry rest ih =>
      obtain ⟨k, v⟩ := entry
      rw [Table.putIn]
      by_cases hk : key = k
      · subst hk
        simp [h]
      · rw [if_neg hk]
        split
        · rw [List.filter_cons_of_neg (by simp [h])]
        · rw [List.filter_cons, List.filter_cons, ih]

theorem removeWithin_put (t : Tree) (node : Node) (h : liesWithin path top = true) :
    (t.put path node).removeWithin top = t.removeWithin top := by
  have hgone : (!liesWithin path top) = false := by rw [h]; rfl
  exact congrArg (fun entries => Tree.mk ⟨entries⟩)
    (filter_putIn (fun p => !liesWithin p top) hgone node t.nodes.entries)

theorem removeWithin_erase (t : Tree) (h : liesWithin path top = true) :
    (t.erase path).removeWithin top = t.removeWithin top := by
  refine congrArg Tree.mk (congrArg Table.mk ?_)
  rw [erase, Table.erase, Table.keep, List.filter_filter]
  refine List.filter_congr fun e _ => ?_
  by_cases he : e.1 = path
  · simp [he, h]
  · simp [he]

theorem removeWithin_move (t : Tree) {source target : String}
    (hsource : liesWithin source top = true) (htarget : liesWithin target top = true) :
    (t.move source target).removeWithin top = t.removeWithin top := by
  rw [move]
  cases t.find? source with
  | none => rfl
  | some node => rw [removeWithin_put _ node htarget, removeWithin_erase t hsource]

/-- What moves from one place to another below a path is removed with the path. -/
theorem removeWithin_moveWithin (t : Tree) {source target : String} (h0 : source ≠ "")
    (h1 : target ≠ "") (hsource : liesWithin source top = true)
    (htarget : liesWithin target top = true) :
    (t.moveWithin source target).removeWithin top = t.removeWithin top := by
  have fold (l : List String) (hl : ∀ p ∈ l, liesWithin p source = true) (t : Tree) :
      (l.foldl (fun t p => t.move p (rebase source target p)) t).removeWithin top
        = t.removeWithin top := by
    induction l generalizing t with
    | nil => rfl
    | cons p l ih =>
        obtain ⟨hp, hl⟩ := List.forall_mem_cons.mp hl
        rw [List.foldl_cons, ih hl, removeWithin_move t (liesWithin_trans hp hsource)
          (liesWithin_trans (liesWithin_rebase h0 h1 hp) htarget)]
  exact fold _ (fun p hp => (List.mem_filter.mp hp).2) t

/-! ## A directory for one file -/

/-- Beside what the first tree has, the second has a directory with one file in it. -/
structure Stocked (t₀ t : Tree) (dir name : String) (data : Bytes) (mtime : Timestamp) : Prop where
  clean : t.Clean
  rest : t.removeWithin dir = t₀
  directory : t.kind dir = .directory
  file : t.find? (ofNames [dir, name]) = some (.file data mtime)
  only : ∀ other, IsName other → other ≠ name → t.kind (ofNames [dir, other]) = .unknown

section
variable {dir name : String} (hdir : IsName dir) (hname : IsName name)
include hdir hname

theorem isName_pair : ∀ n ∈ [dir, name], IsName n := by simp [hdir, hname]

theorem isComponent_pair : ∀ n ∈ [dir, name], IsComponent n :=
  fun n hn => (isName_pair hdir hname n hn).1

theorem liesWithin_pair : liesWithin (ofNames [dir, name]) dir = true := by
  have hcomp : ∀ n ∈ [dir], IsComponent n := by simp [hdir.1]
  have hin : [dir] <+: [dir, name] := ⟨[name], rfl⟩
  have h := (liesWithin_ofNames (isComponent_pair hdir hname) hcomp).mpr hin
  rwa [ofNames_singleton dir] at h

theorem pair_ne : ofNames [dir, name] ≠ dir := by
  have h : ofNames [dir] ≠ ofNames ([dir] ++ [name]) :=
    ofNames_ne_of_snoc (isName_pair hdir hname)
  rw [ofNames_singleton] at h
  exact h.symm

/-- Making a file in a directory: first the step to the directory, then that to the file. -/
theorem exec_ensure_pair (now : Timestamp) (kind : Kind) (t : Tree) :
    (ensure now (ofNames [dir, name]) kind).exec t =
      match t.find? dir with
      | some node =>
        if node.kind = .directory then
          (ensureFrom now (ofNames [dir, name]) kind dir [name]).exec t
        else (.error (.conflict dir), t)
      | none =>
        (ensureFrom now (ofNames [dir, name]) kind dir [name]).exec
          (t.put dir (.directory now)) := by
  have hn : ∀ n ∈ [] ++ [dir] ++ [name], IsName n := isName_pair hdir hname
  have hstep := exec_ensureFrom_cons now kind hn t
  rw [List.nil_append, ofNames_nil, List.nil_append, ofNames_singleton,
    if_neg (List.cons_ne_nil _ _)] at hstep
  rw [ensure, components_ofNames (isComponent_pair hdir hname)]
  exact hstep

theorem exec_ensureFrom_pair (now : Timestamp) (kind : Kind) (t : Tree) :
    (ensureFrom now (ofNames [dir, name]) kind dir [name]).exec t =
      match t.find? (ofNames [dir, name]) with
      | some node =>
        if node.kind = kind then (.ok (), t) else (.error (.conflict (ofNames [dir, name])), t)
      | none => (.ok (), t.put (ofNames [dir, name]) (.empty kind now)) := by
  have hn : ∀ n ∈ [dir] ++ [name] ++ [], IsName n := isName_pair hdir hname
  have hstep := exec_ensureFrom_cons now kind hn t
  rw [if_pos rfl, ofNames_singleton] at hstep
  exact hstep

omit hdir hname in
theorem Clean.missing_pair (h : t.Clean) (hdir : IsName dir) (hmiss : t.kind dir = .unknown)
    (hname : IsName name) : t.kind (ofNames [dir, name]) = .unknown := by
  rw [← ofNames_singleton dir] at hmiss
  exact h.missing_of_append (isName_pair hdir hname) hmiss

/-- A file made in a directory that was missing: the directory is new, and nothing else is in it. -/
theorem stocked_ensure (now : Timestamp) (h : t₀.Clean) (hmiss : t₀.kind dir = .unknown) :
    ∃ t, (ensure now (ofNames [dir, name]) .file).exec t₀ = (.ok (), t) ∧
      Stocked t₀ t dir name [] now := by
  let t₁ := t₀.put dir (.directory now)
  let t := t₁.put (ofNames [dir, name]) (.file [] now)
  have hn := isName_pair hdir hname
  have hkind₁ (q : String) : t₁.kind q = if q = dir then .directory else t₀.kind q :=
    kind_put t₀ dir q (.directory now)
  have hkind (q : String) : t.kind q = if q = ofNames [dir, name] then .file else t₁.kind q :=
    kind_put t₁ (ofNames [dir, name]) q (.file [] now)
  have hbelow {other : String} (ho : IsName other) : t₁.kind (ofNames [dir, other]) = .unknown := by
    rw [hkind₁, if_neg (pair_ne hdir ho)]
    exact h.missing_pair hdir hmiss ho
  have hclean₁ : t₁.Clean := by
    have hput : (t₀.put (ofNames ([] ++ [dir])) (.directory now)).Clean :=
      h.put (by simp [hdir]) h.1 (by rwa [List.nil_append, ofNames_singleton])
    rwa [List.nil_append, ofNames_singleton] at hput
  refine ⟨t, ?_, ?_, ?_, ?_, ?_, ?_⟩
  · have hmiss₁ : t₁.find? (ofNames [dir, name]) = none := kind_eq_unknown.mp (hbelow hname)
    rw [exec_ensure_pair hdir hname, kind_eq_unknown.mp hmiss]
    simp only [exec_ensureFrom_pair hdir hname]
    rw [show (t₀.put dir (.directory now)).find? (ofNames [dir, name]) = none from hmiss₁]
    rfl
  · have hparent : t₁.kind (ofNames [dir]) = .directory := by
      rw [ofNames_singleton, hkind₁, if_pos rfl]
    have hput : (t₁.put (ofNames ([dir] ++ [name])) (.file [] now)).Clean :=
      hclean₁.put hn hparent (hbelow hname)
    exact hput
  · rw [removeWithin_put t₁ _ (liesWithin_pair hdir hname),
      removeWithin_put t₀ _ (liesWithin_refl _), h.removeWithin_missing_name hdir hmiss]
  · rw [hkind, if_neg (pair_ne hdir hname).symm, hkind₁, if_pos rfl]
  · rw [find?_put, if_pos rfl]
  · intro other ho hne
    rw [hkind, if_neg, hbelow ho]
    intro he
    have := ofNames_injective (isComponent_pair hdir ho) (isComponent_pair hdir hname) he
    exact hne (by simpa using this)

namespace Stocked

variable {data : Bytes} {mtime : Timestamp} (h : Stocked t₀ t dir name data mtime)
include h

omit hdir hname in
theorem kind_file : t.kind (ofNames [dir, name]) = .file := by rw [kind, h.file]; rfl

omit hdir hname in
theorem exists_directory : ∃ now, t.find? dir = some (.directory now) := by
  have hd := h.directory
  rw [kind] at hd
  rcases hf : t.find? dir with _ | now | ⟨data, now⟩
  · rw [hf] at hd; cases hd
  · exact ⟨now, rfl⟩
  · rw [hf] at hd; cases hd

omit hdir hname in
/-- The way to a name in the directory passes the directory alone. -/
theorem way (last : String) :
    ∀ ms, ms <+: [last] → ms ≠ [last] → t.kind (ofNames (dir :: ms)) = .directory := by
  intro ms hms hne
  rcases ms with _ | ⟨m, ms⟩
  · rw [ofNames_singleton]
    exact h.directory
  · obtain ⟨rfl, hnil⟩ := List.cons_prefix_cons.mp hms
    exact absurd (congrArg (m :: ·) (List.prefix_nil.mp hnil)) hne

/-- To make the file again makes nothing. -/
theorem exec_ensure_file (now : Timestamp) :
    (ensure now (ofNames [dir, name]) .file).exec t = (.ok (), t) := by
  obtain ⟨then_, hd⟩ := h.exists_directory
  rw [exec_ensure_pair hdir hname, hd]
  simp only [Node.kind, if_true, exec_ensureFrom_pair hdir hname, h.file]

/-- To make a directory in the place of the file is in conflict with it. -/
theorem exec_ensure_directory (now : Timestamp) :
    (ensure now (ofNames [dir, name]) .directory).exec t
      = (.error (.conflict (ofNames [dir, name])), t) := by
  obtain ⟨then_, hd⟩ := h.exists_directory
  rw [exec_ensure_pair hdir hname, hd]
  simp only [Node.kind, if_true, exec_ensureFrom_pair hdir hname, h.file]
  rfl

/-- To fill the file leaves everything else. -/
theorem fill (data' : Bytes) (now : Timestamp) :
    Stocked t₀ (t.put (ofNames [dir, name]) (.file data' now)) dir name data' now where
  clean := h.clean.of_kind fun q => kind_put_file h.file data' now q
  rest := (removeWithin_put t _ (liesWithin_pair hdir hname)).trans h.rest
  directory := (kind_put_file h.file data' now dir).trans h.directory
  file := by rw [find?_put, if_pos rfl]
  only other ho hne := (kind_put_file h.file data' now _).trans (h.only other ho hne)

/-- The file may get another name. -/
theorem movable {other : String} (hother : IsName other) (hne : other ≠ name) :
    Movable t [dir, name] [dir] other where
  clean := h.clean
  source := isName_pair hdir hname
  target := isName_pair hdir hother
  inner := List.cons_ne_nil _ _
  outside := by simp [hne.symm]
  present := by rw [h.kind_file]; rfl
  free := h.only other hother hne
  parent := by rw [ofNames_singleton, h.directory]

/-- To give the file another name leaves everything else. -/
theorem move {other : String} (hother : IsName other) (hne : other ≠ name) :
    Stocked t₀ (t.moveWithin (ofNames [dir, name]) (ofNames [dir, other])) dir other data
      mtime := by
  have hmovable := h.movable hdir hname hother hne
  have hsource := hmovable.source_ne
  have htarget := hmovable.target_ne
  obtain ⟨hmoved, hgone, -⟩ := find?_moveWithin hsource htarget (fun p => hmovable.not_liesWithin) t
  refine ⟨hmovable.clean_moveWithin, ?_, ?_, ?_, ?_⟩
  · exact (removeWithin_moveWithin t hsource htarget (liesWithin_pair hdir hname)
      (liesWithin_pair hdir hother)).trans h.rest
  · have hkept : (t.moveWithin (ofNames [dir, name]) (ofNames [dir, other])).kind (ofNames [dir])
        = t.kind (ofNames [dir]) := hmovable.kind_frame (by simp [hdir]) (by simp) (by simp)
    rw [ofNames_singleton, h.directory] at hkept
    exact hkept
  · have hat := hmoved _ (liesWithin_refl _) (by rw [h.file]; exact Option.some_ne_none _)
    have himage := hmovable.rebase_moving []
    rw [List.append_nil, List.append_nil] at himage
    rw [himage, h.file] at hat
    exact hat
  · intro last hlast hlne
    by_cases hl : last = name
    · rw [hl]
      exact kind_eq_unknown.mpr (hgone _ (liesWithin_refl _))
    · have hframe := hmovable.kind_frame (isName_pair hdir hlast) (by simp [Ne.symm hl])
        (by simp [Ne.symm hlne])
      rw [h.only last hlast hl] at hframe
      exact hframe

end Stocked

end

end Strata.Memory.Tree
