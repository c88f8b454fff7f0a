/-
# `Strata.Proofs.Memory.Runs` — what holds of a memory filesystem however it is used

A filesystem starts with its root and is changed call by call: it is filled, entries
are created, deleted, moved and opened, streams are committed.  Every call keeps the
tree `Normal`, whatever texts it is given; and it keeps the tree `Clean` if the names
that it makes nodes for are trimmed.  So does a run of calls of any length
(`run_keeps_tree`).
-/
import Strata.Proofs.Memory.Changes
import Strata.Proofs.Memory.Normal

namespace Strata.Memory

open Strata.Action Strata.Path

/-- A call that can change a memory filesystem: one that fills it, one on the entry at a path, or
the commit of a stream on the file at a path. -/
inductive Change where
  | addDirectory (path : String)
  | addFile (path : String) (data : Bytes) (modified : Timestamp)
  | create (path : String) (kind : Kind) (name : String)
  | delete (path name : String)
  | rename (path target : String)
  | openBuffer (path : String) (mode : OpenMode)
  | commit (path : String) (data : Bytes)

namespace Change

/-- What the call leaves behind, whether it fails or not. -/
def after (now : Timestamp) (m : Memory) : Change → Memory
  | .addDirectory path => ((Memory.addDirectory now path).exec m).2
  | .addFile path data modified => ((Memory.addFile now path data modified).exec m).2
  | .create path kind name => ((Memory.create now path kind name).exec m).2
  | .delete path name => ((Memory.delete path name).exec m).2
  | .rename path target => ((Memory.rename now path target).exec m).2
  | .openBuffer path mode => ((Memory.openBuffer now path mode).exec m).2
  | .commit path data => ((Memory.commit now path data).run m).2

/-- The text that the call makes nodes along. -/
def target : Change → String
  | .addDirectory path | .addFile path _ _ => path
  | .create _ _ name => name
  | .rename _ target => target
  | .delete _ _ | .openBuffer _ _ | .commit _ _ => ""

/-- The names that the call makes nodes for are trimmed. -/
def IsTrimmed (c : Change) : Prop := ∀ n ∈ components (normalize c.target false), IsName n

instance : DecidablePred IsTrimmed := fun c =>
  inferInstanceAs (Decidable (∀ n ∈ components (normalize c.target false), IsName n))

end Change

/-- What calls leave behind, one after the other, each with the time at which it is made. -/
def run (cs : List (Timestamp × Change)) (m : Memory) : Memory :=
  cs.foldl (fun m c => c.2.after c.1 m) m

variable {m m' : Memory} {path : String}

/-! ## The calls that are not in the interface of entries -/

/-- Adding a file is refused at the root; else it makes the nodes on the way and then puts the file
in its place. -/
theorem addFile_cases (m : Memory) (now : Timestamp) (path : String) (data : Bytes)
    (modified : Timestamp) :
    (normalize path false = "" ∧ ∃ e, (addFile now path data modified).exec m = (.error e, m)) ∨
    (normalize path false ≠ "" ∧
      ∃ r t, (Tree.ensure now (normalize path false) .file).exec m.tree = (r, t) ∧
        (∀ e, r = .error e →
          (addFile now path data modified).exec m = (.error e, { m with tree := t })) ∧
        (r = .ok () → (addFile now path data modified).exec m
          = (.ok (), { m with tree := t.put (normalize path false) (.file data modified) }))) := by
  rw [addFile]
  by_cases h0 : normalize path false = ""
  · simp only [String.isEmpty_iff, if_pos h0, exec_bind, exec_throw]
    exact .inl ⟨h0, _, rfl⟩
  rcases hensure : (Tree.ensure now (normalize path false) .file).exec m.tree with ⟨r, t⟩
  refine .inr ⟨h0, r, t, rfl, ?_⟩
  simp only [String.isEmpty_iff, if_neg h0, exec_onTree, exec_bind, hensure, exec_modify]
  constructor
  · rintro e rfl
    rfl
  · rintro rfl
    rfl

/-- A commit replaces the file at the path; without one it is refused and changes nothing. -/
theorem commit_cases (m : Memory) (now : Timestamp) (path : String) (data : Bytes) :
    (m.kind path ≠ .file ∧ (commit now path data).run m
      = (.error (.stated .notFound s!"file vanished before commit: {path}"), m)) ∨
    ∃ old mtime, m.tree.find? path = some (.file old mtime) ∧
      (commit now path data).run m
        = (.ok (), { m with tree := m.tree.put path (.file data now) }) := by
  have hkind : m.kind path = (m.tree.find? path).elim .unknown Node.kind := by
    rw [Memory.kind, Tree.kind]
    cases m.tree.find? path <;> rfl
  show _ ∧ commit now path data m = _ ∨ ∃ _ _, _ ∧ commit now path data m = _
  rw [commit, hkind]
  rcases hf : m.tree.find? path with _ | mtime | ⟨old, mtime⟩
  · exact .inl ⟨by decide, rfl⟩
  · exact .inl ⟨by simp [Node.kind], rfl⟩
  · exact .inr ⟨old, mtime, rfl, rfl⟩

theorem kind_of_file {data : Bytes} {mtime : Timestamp}
    (h : m.tree.find? path = some (.file data mtime)) : m.kind path = .file := by
  rw [Memory.kind, Tree.kind, h]
  rfl

theorem exists_file_of_kind {t : Tree} (h : t.kind path = .file) :
    ∃ data mtime, t.find? path = some (.file data mtime) := by
  rw [Tree.kind] at h
  rcases hf : t.find? path with _ | mtime | ⟨data, mtime⟩
  · rw [hf] at h
    cases h
  · rw [hf] at h
    cases h
  · exact ⟨data, mtime, rfl⟩

/-! ## One call -/

/-- What a call keeps: the tree stays normal, and also clean if the names of the call are
`trimmed`. -/
structure Kept (trimmed : Prop) (m m' : Memory) : Prop where
  operations : m'.operations = m.operations
  normal : m.tree.Normal → m'.tree.Normal
  clean : trimmed → m.tree.Clean → m'.tree.Clean

theorem Kept.refl (trimmed : Prop) (m : Memory) : Kept trimmed m m :=
  ⟨rfl, id, fun _ h => h⟩

/-- Making nodes along a text. -/
theorem kept_ensure (now : Timestamp) {kind : Kind} (hk : kind.isCreatable = true) {target : String}
    {r : Except Failure Unit} {t : Tree} (he : (Tree.ensure now target kind).exec m.tree = (r, t))
    {trimmed : Prop} (htarget : trimmed → m.tree.Clean → Path.Clean target) :
    Kept trimmed m { m with tree := t } where
  operations := rfl
  normal h := by
    have := h.ensure now target kind
    rwa [he] at this
  clean htrim h := by
    have hp := htarget htrim h
    obtain ⟨r', t', he', herr, hok⟩ := exec_ensure now hk (fun n hn => hp.isName hn) h
    rw [hp.ofNames_components] at he'
    obtain ⟨rfl, rfl⟩ := Prod.mk.inj (he'.symm.trans he)
    cases r' with
    | error e => exact herr e rfl ▸ h
    | ok u => exact (hok rfl).clean

/-- A file in the place of a file. -/
theorem kept_put_file {old data : Bytes} {mtime now : Timestamp} {trimmed : Prop}
    (hf : m.tree.find? path = some (.file old mtime)) :
    Kept trimmed m { m with tree := m.tree.put path (.file data now) } where
  operations := rfl
  normal h := by
    have hkind := Tree.kind_put_file hf data now
    exact ⟨by rw [hkind, h.root], fun p he => h.path p (hkind p ▸ he)⟩
  clean _ h := h.of_kind (Tree.kind_put_file hf data now)

theorem kept_addDirectory (now : Timestamp) (m : Memory) (path : String) :
    Kept (∀ n ∈ components (normalize path false), IsName n) m
      ((addDirectory now path).exec m).2 := by
  rcases hensure : (Tree.ensure now (normalize path false) .directory).exec m.tree with ⟨r, t⟩
  rw [addDirectory, exec_onTree, hensure]
  refine kept_ensure now (rfl : Kind.directory.isCreatable = true) hensure ?_
  intro hn _
  rw [← ofNames_components_normalize]
  exact clean_ofNames hn

theorem kept_addFile (now : Timestamp) (m : Memory) (path : String) (data : Bytes)
    (modified : Timestamp) :
    Kept (∀ n ∈ components (normalize path false), IsName n) m
      ((addFile now path data modified).exec m).2 := by
  obtain ⟨-, e, he⟩ | ⟨h0, r, t, hensure, herr, hok⟩ := addFile_cases m now path data modified
  · rw [he]
    exact .refl _ m
  have hkept : Kept (∀ n ∈ components (normalize path false), IsName n) m { m with tree := t } := by
    refine kept_ensure now (rfl : Kind.file.isCreatable = true) hensure ?_
    intro hn _
    rw [← ofNames_components_normalize]
    exact clean_ofNames hn
  cases r with
  | error e =>
      rw [herr e rfl]
      exact hkept
  | ok u =>
      rw [hok rfl]
      refine ⟨rfl, fun h => (hkept.normal h).put (normalize_normalize path) h0, fun hn h => ?_⟩
      -- what was made at the target is a file, or was one before
      obtain ⟨r, t, he, -, hmade⟩ := exec_ensure now (rfl : Kind.file.isCreatable = true) hn h
      rw [ofNames_components_normalize] at he
      obtain ⟨rfl, rfl⟩ := Prod.mk.inj (he.symm.trans hensure)
      have hfile : t.kind (normalize path false) = .file := by
        have hne := components_normalize_ne_nil h0
        have := (hmade rfl).made _ hne List.prefix_rfl
        rwa [List.nil_append, ofNames_components_normalize, if_pos rfl] at this
      obtain ⟨old, mtime, hf⟩ := exists_file_of_kind hfile
      exact (hkept.clean hn h).of_kind (Tree.kind_put_file hf data modified)

theorem kept_create (now : Timestamp) (m : Memory) (path : String) (kind : Kind) (name : String) :
    Kept (∀ n ∈ components (normalize name false), IsName n) m
      ((create now path kind name).exec m).2 := by
  obtain ⟨-, e, -, he⟩ | ⟨-, hk, hdir, -, r, t, hensure, he⟩ := create_cases m now path kind name
  · rw [he]
    exact .refl _ m
  rw [he]
  refine kept_ensure now hk hensure ?_
  intro hn h
  have hp : Path.Clean path := h.path_clean_of_directory hdir
  rw [← join_normalize_child, join_normalize hp hn]
  exact clean_ofNames (append_isName hp hn)

theorem kept_delete (m : Memory) (path name : String) (trimmed : Prop) :
    Kept trimmed m ((delete path name).exec m).2 := by
  obtain ⟨-, e, he⟩ | ⟨-, -, -, he⟩ | ⟨-, -, h0, hpresent, he⟩ := delete_cases m path name
  · rw [he]
    exact .refl _ m
  · rw [he]
    exact .refl _ m
  · rw [he]
    have htop : join path name ≠ "" := join_ne_empty h0
    refine ⟨rfl, fun h => h.removeWithin htop, fun _ h => ?_⟩
    -- what can be removed from a clean tree has a clean path, whatever the text was
    have hp := h.path_clean hpresent
    rw [← hp.ofNames_components] at htop ⊢
    exact h.removeWithin (fun n hn => hp.isName hn) fun hnil => htop (by rw [hnil, ofNames_nil])

theorem kept_rename (now : Timestamp) (m : Memory) (path target : String) :
    Kept (∀ n ∈ components (normalize target false), IsName n) m
      ((rename now path target).exec m).2 := by
  obtain ⟨e, he⟩ | ⟨h0, hne, -, hex, -, r, t, hensure, herr, hok⟩ :=
    rename_cases m now path target
  · rw [he]
    exact .refl _ m
  have hparent (h : m.tree.Normal) : t.Normal := by
    rw [Tree.ensureParent] at hensure
    split at hensure
    · rename_i parent _
      have := h.ensure now parent .directory
      rwa [hensure] at this
    · obtain ⟨-, rfl⟩ := Prod.mk.inj hensure
      exact h
  refine ⟨?_, fun h => ?_, fun hn h => ?_⟩
  · cases r with
    | error e => rw [herr e rfl]
    | ok u => rw [hok rfl]
  · cases r with
    | error e =>
        rw [herr e rfl]
        exact hparent h
    | ok u =>
        rw [hok rfl]
        exact (hparent h).moveWithin (h.path path hex) h0 (normalize_normalize target) hne
  · obtain ⟨r, m', he, hsame, hmoved⟩ := exec_rename now h (h.path_clean hex) hn
    rw [he]
    cases r with
    | error e => rwa [hsame e rfl]
    | ok u => exact (hmoved rfl).clean

theorem kept_openBuffer (now : Timestamp) (m : Memory) (path : String) (mode : OpenMode)
    (trimmed : Prop) : Kept trimmed m ((openBuffer now path mode).exec m).2 := by
  obtain ⟨r, he⟩ | ⟨r, data, mtime, hf, he⟩ := openBuffer_cases m now path mode
  · rw [he]
    exact .refl _ m
  · rw [he]
    exact kept_put_file hf

theorem kept_commit (now : Timestamp) (m : Memory) (path : String) (data : Bytes)
    (trimmed : Prop) : Kept trimmed m ((commit now path data).run m).2 := by
  obtain ⟨-, he⟩ | ⟨old, mtime, hf, he⟩ := commit_cases m now path data
  · rw [he]
    exact .refl _ m
  · rw [he]
    exact kept_put_file hf

theorem kept_after (now : Timestamp) (m : Memory) (c : Change) :
    Kept c.IsTrimmed m (c.after now m) := by
  cases c with
  | addDirectory path => exact kept_addDirectory now m path
  | addFile path data modified => exact kept_addFile now m path data modified
  | create path kind name => exact kept_create now m path kind name
  | delete path name => exact kept_delete m path name _
  | rename path target => exact kept_rename now m path target
  | openBuffer path mode => exact kept_openBuffer now m path mode _
  | commit path data => exact kept_commit now m path data _

/-! ## Runs -/

theorem kept_run (cs : List (Timestamp × Change)) (m : Memory) :
    Kept (∀ c ∈ cs, c.2.IsTrimmed) m (run cs m) := by
  induction cs generalizing m with
  | nil => exact .refl _ m
  | cons c cs ih =>
      have hstep := kept_after c.1 m c.2
      have hrest := ih (c.2.after c.1 m)
      refine ⟨hrest.operations.trans hstep.operations, fun h => hrest.normal (hstep.normal h), ?_⟩
      intro htrim h
      have hfirst := hstep.clean (htrim c (by simp)) h
      exact hrest.clean (fun d hd => htrim d (List.mem_cons_of_mem _ hd)) hfirst

/-- The paths that listing after listing leads to, from the root on. -/
inductive Listed (m : Memory) : String → Prop
  | root : Listed m ""
  | child {path p : String} {ps : List String} :
      Listed m path → m.children path = .ok ps → p ∈ ps → Listed m p

theorem children_eq (hops : m.operations.covers (.only .read) = true)
    (hd : m.kind path = .directory) : m.children path = .ok (m.tree.childPaths path) := by
  rw [children, require, if_pos hops, requireDirectory, hd]
  rfl

/-- Every node of a clean tree is found by listing, if listing is allowed. -/
theorem listed_of_clean (h : m.tree.Clean) (hops : m.operations.covers (.only .read) = true)
    {ns : List String} (hn : ∀ n ∈ ns, IsName n) (he : (m.kind (ofNames ns)).exists? = true) :
    Listed m (ofNames ns) := by
  induction ns using List.reverseRecOn with
  | nil => exact .root
  | append_singleton ns n ih =>
      have hns : ∀ m ∈ ns, IsName m := fun m hm => hn m (List.mem_append_left _ hm)
      have hd : m.kind (ofNames ns) = .directory :=
        (Tree.outline_clean h).directory_of_snoc (fun m hm => (hn m hm).1) he
      have hmem : ofNames (ns ++ [n]) ∈ m.tree.outline.below (ofNames ns) :=
        (Outline.mem_below (Tree.outline_clean h) fun m hm => (hns m hm).1).mpr
          ⟨n, hn n (by simp), rfl, he⟩
      exact .child (ih hns (by rw [hd]; rfl)) (children_eq hops hd) hmem

/-! ## What a call that succeeds leaves at its target -/

theorem kind_of_addFile {now modified : Timestamp} {data : Bytes}
    (h : (addFile now path data modified).exec m = (.ok (), m')) :
    m'.kind (normalize path false) = .file := by
  obtain ⟨-, e, he⟩ | ⟨-, r, t, -, herr, hok⟩ := addFile_cases m now path data modified
  · rw [he] at h
    cases h
  · cases r with
    | error e =>
        rw [herr e rfl] at h
        cases h
    | ok u =>
        rw [hok rfl] at h
        obtain rfl := (Prod.mk.inj h).2
        show (t.put (normalize path false) (.file data modified)).kind _ = _
        rw [Tree.kind_put, if_pos rfl]
        rfl

/-- Where nodes have been made along names, the last one is of the kind that was asked for. -/
theorem Tree.Ensured.kind_last {t t' : Tree} {kind : Kind} {ns : List String}
    (h : Tree.Ensured t t' kind [] ns) (h0 : ns ≠ []) : t'.kind (ofNames ns) = kind := by
  have := h.made ns h0 List.prefix_rfl
  rwa [List.nil_append, if_pos rfl] at this

theorem kind_of_addDirectory (h : m.tree.Clean) {now : Timestamp}
    (hn : ∀ n ∈ components (normalize path false), IsName n)
    (he : (addDirectory now path).exec m = (.ok (), m')) :
    m'.kind (normalize path false) = .directory := by
  obtain ⟨r, t, hensure, -, hok⟩ := exec_ensure now (rfl : Kind.directory.isCreatable = true) hn h
  rw [ofNames_components_normalize] at hensure
  rw [addDirectory, exec_onTree, hensure] at he
  obtain ⟨rfl, rfl⟩ := Prod.mk.inj he
  rw [← ofNames_components_normalize]
  exact (hok rfl).directory h List.prefix_rfl

theorem kind_of_create (h : m.tree.Clean) {now : Timestamp} {kind : Kind} {name p : String}
    (hn : ∀ n ∈ components (normalize name false), IsName n)
    (he : (create now path kind name).exec m = (.ok p, m')) :
    p = join path name ∧ m'.kind p = kind := by
  obtain ⟨-, e, -, hexec⟩ | ⟨-, hk, hdir, h0, r, t, hensure, hexec⟩ :=
    create_cases m now path kind name
  · rw [hexec] at he
    cases he
  have hp : Path.Clean path := h.path_clean_of_directory hdir
  obtain ⟨r', t', hensure', -, hok⟩ := exec_ensure now hk (append_isName hp hn) h
  rw [← join_normalize hp hn, join_normalize_child] at hensure'
  obtain ⟨rfl, rfl⟩ := Prod.mk.inj (hensure'.symm.trans hensure)
  rw [hexec] at he
  cases r' with
  | error e => cases he
  | ok u =>
      obtain ⟨hr, rfl⟩ := Prod.mk.inj he
      have hkind := (hok rfl).kind_last
        (List.append_ne_nil_of_right_ne_nil _ (components_normalize_ne_nil h0))
      rw [← join_normalize hp hn, join_normalize_child] at hkind
      obtain rfl := Except.ok.inj hr
      exact ⟨rfl, hkind⟩

/-! ## Every run -/

theorem clean_root : Tree.root.Clean := by
  decide

/-- A filesystem that was changed by any calls has a directory as its root, and the paths of its
other nodes are in normal form; a file that is added is there.  If the names that nodes were made
for are trimmed, then every node lies in a directory and is found by listing, where listing is
allowed, and what is made is there, of the kind that was asked for. -/
theorem run_keeps_tree (name : String) (ops : Operations) (cs : List (Timestamp × Change)) :
    let m := run cs { name := name, operations := ops }
    (m.kind "" = .directory ∧ ∀ p ∈ m.tree.paths, normalize p false = p) ∧
    (∀ now path data modified m', (addFile now path data modified).exec m = (.ok (), m') →
      m'.kind (normalize path false) = .file) ∧
    ((∀ c ∈ cs, c.2.IsTrimmed) →
      (∀ p ∈ m.tree.paths, p ≠ "" → m.kind (parentOrRoot p) = .directory) ∧
      (ops.covers (.only .read) = true → ∀ p ∈ m.tree.paths, Listed m p) ∧
      (∀ now path m', (∀ n ∈ components (normalize path false), IsName n) →
        (addDirectory now path).exec m = (.ok (), m') →
          m'.kind (normalize path false) = .directory) ∧
      (∀ now path kind name p m', (∀ n ∈ components (normalize name false), IsName n) →
        (create now path kind name).exec m = (.ok p, m') →
          p = join path name ∧ m'.kind p = kind)) := by
  intro m
  have hkept : Kept (∀ c ∈ cs, c.2.IsTrimmed) { name := name, operations := ops } m :=
    kept_run cs _
  have hnormal : m.tree.Normal := hkept.normal Tree.normal_root
  refine ⟨⟨hnormal.root, fun p hp => hnormal.path p ((m.tree.exists?_kind p).mpr hp)⟩,
    fun now path data modified m' => kind_of_addFile, fun htrim => ?_⟩
  have hclean : m.tree.Clean := hkept.clean htrim clean_root
  refine ⟨fun p hp h0 => (hclean.2 p hp h0).2, fun hread p hp => ?_,
    fun now path m' hn => kind_of_addDirectory hclean hn,
    fun now path kind name p m' hn => kind_of_create hclean hn⟩
  have he := (m.tree.exists?_kind p).mpr hp
  have hpath := hclean.path_clean he
  rw [← hpath.ofNames_components] at he ⊢
  exact listed_of_clean hclean (hkept.operations ▸ hread) (fun n hn => hpath.isName hn) he

theorem run_keeps_tree_filled :
    let cs := [(.epoch, .addFile "a/b" [] .epoch), (.epoch, .create "a" .directory "c/d"),
      (.epoch, .rename "a/c" "e"), (.epoch, .delete "a" "b")]
    (∀ c ∈ cs, c.2.IsTrimmed) ∧ Listed (run cs { name := "memory", operations := .all }) "e/d" := by
  intro cs
  have htrim : ∀ c ∈ cs, c.2.IsTrimmed := by decide
  exact ⟨htrim, ((run_keeps_tree "memory" .all cs).2.2 htrim).2.1 (by decide) "e/d" (by decide)⟩

theorem listed_of_unreadable (h : ¬ m.operations.covers (.only .read) = true) {p : String}
    (hp : Listed m p) : p = "" := by
  induction hp with
  | root => rfl
  | child _ hchildren _ _ =>
      rw [children, require, if_neg h] at hchildren
      cases hchildren

/-- A name that is not trimmed can be created without being there, or be there without its
directory; and where listing is not allowed nothing but the root is found by it. -/
theorem untrimmed_and_unreadable :
    (((create .epoch "" .file "a/ b").exec {}).1.toOption = some "a/ b" ∧
      ((create .epoch "" .file "a/ b").exec {}).2.kind "a/ b" = .unknown) ∧
    (let m := run [(.epoch, .addFile "a / b/c" [] .epoch)] {};
      "a / b/c" ∈ m.tree.paths ∧ m.kind (parentOrRoot "a / b/c") = .unknown) ∧
    (let m := run [(.epoch, .addDirectory "a")] { operations := .only .create };
      "a" ∈ m.tree.paths ∧ ¬ Listed m "a") := by
  refine ⟨by decide +kernel, by decide +kernel, by decide +kernel, fun hp => ?_⟩
  exact absurd (listed_of_unreadable (by decide) hp) (by decide)

end Strata.Memory
