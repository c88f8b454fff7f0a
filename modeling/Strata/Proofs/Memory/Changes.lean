/-
# `Strata.Proofs.Memory.Changes` — what the calls that change a memory filesystem change

A call on a clean tree either fails and leaves the filesystem as it was, or it
leaves a clean tree that differs at few paths: at the first of the names that it
was given and below it, in the directory that it was called on, or, when an entry
is moved, below the entry and below the first part of the target that was missing.
-/
import Strata.Proofs.Memory.Tree

namespace Strata.Memory

open Strata.Action Strata.Path

variable {m m' m'' : Memory} {path : String}

/-- The filesystem allows what it did, keeps a clean tree, and has at all other paths what it
had. -/
structure Shift (m m' : Memory) (touched : List String → Prop) : Prop where
  operations : m'.operations = m.operations
  clean : m'.tree.Clean
  kinds : ∀ ns, (∀ n ∈ ns, IsName n) → ¬ touched ns → m'.kind (ofNames ns) = m.kind (ofNames ns)

theorem Shift.refl (h : m.tree.Clean) (touched : List String → Prop) : Shift m m touched :=
  ⟨rfl, h, fun _ _ _ => rfl⟩

/-- Paths at or below the first of the names in a directory. -/
def Through (top names ns : List String) : Prop :=
  ∃ x, x ∈ names.head? ∧ top ++ [x] <+: ns

/-- A path through some names of a directory and then through others. -/
theorem Through.of_append {top ms names ns : List String} (h : Through (top ++ ms) names ns) :
    Through top (ms ++ names) ns := by
  obtain ⟨x, hx, hpre⟩ := h
  cases ms with
  | nil => exact ⟨x, hx, by simpa using hpre⟩
  | cons c cs =>
      have hc : top ++ [c] <+: top ++ c :: cs ++ [x] := ⟨cs ++ [x], by simp⟩
      exact ⟨c, rfl, hc.trans hpre⟩

theorem Tree.Clean.of_kind {t t' : Tree} (h : t.Clean) (hk : ∀ q, t'.kind q = t.kind q) :
    t'.Clean := by
  rw [clean_iff] at h ⊢
  simpa only [hk] using h

/-- What lies on the way to a directory is there. -/
theorem Tree.Clean.directory_of_prefix {t : Tree} {ns ms : List String} (h : t.Clean)
    (hn : ∀ n ∈ ns, IsName n) (hd : t.kind (ofNames ns) = .directory) (hms : ms <+: ns) :
    t.kind (ofNames ms) = .directory := by
  obtain ⟨ks, rfl⟩ := hms
  by_cases hk : ks = []
  · rwa [hk, List.append_nil] at hd
  · exact (Tree.outline_clean h).directory_of_append (fun n hm => (hn n hm).1) hk (by
      show (t.kind _).exists? = true
      rw [hd]
      rfl)

theorem exec_onTree {α : Type} (x : Action Tree α) (m : Memory) :
    (onTree x).exec m = ((x.exec m.tree).1, { m with tree := (x.exec m.tree).2 }) := rfl

/-- Making nodes in a clean tree, from the root on. -/
theorem exec_ensure (now : Timestamp) {kind : Kind} (hkind : kind.isCreatable = true)
    {ns : List String} (hn : ∀ n ∈ ns, IsName n) {t : Tree} (h : t.Clean) :
    ∃ r t', (Tree.ensure now (ofNames ns) kind).exec t = (r, t') ∧
      (∀ e, r = .error e → t' = t) ∧ (r = .ok () → Tree.Ensured t t' kind [] ns) := by
  have hc : components (ofNames ns) = ns := components_ofNames fun n hm => (hn n hm).1
  rw [← List.nil_append ns] at hn
  obtain ⟨r, t', he, herr, hok, -⟩ := Tree.exec_ensureFrom now hkind hn h fun _ => h.1
  exact ⟨r, t', by rw [Tree.ensure, hc]; exact he, herr, hok⟩

theorem directory_of_require {u : Unit} (h : m.requireDirectory path = .ok u) :
    m.kind path = .directory := by
  rw [requireDirectory] at h
  split at h
  · rename_i hd
    exact beq_iff_eq.mp hd
  · cases h

theorem append_isName {name : String} (hp : Path.Clean path)
    (hname : ∀ n ∈ components (normalize name false), IsName n) :
    ∀ n ∈ components path ++ components (normalize name false), IsName n :=
  fun n hn => (List.mem_append.mp hn).elim hp.isName (hname n)

theorem join_normalize {name : String} (hp : Path.Clean path)
    (hname : ∀ n ∈ components (normalize name false), IsName n) :
    join path (normalize name false)
      = ofNames (components path ++ components (normalize name false)) := by
  have := join_ofNames (fun n hn => (hp.isName hn).1) hname
  rwa [hp.ofNames_components, ofNames_components_normalize] at this

/-- Making nodes below a directory changes nothing but what runs through the first of them. -/
theorem Tree.Ensured.shift {t' : Tree} {kind : Kind} {top rest : List String}
    (he : Tree.Ensured m.tree t' kind [] (top ++ rest)) (h : m.tree.Clean)
    (hd : m.kind (ofNames top) = .directory) (hn : ∀ n ∈ top ++ rest, IsName n) :
    Shift m { m with tree := t' } (Through top rest) := by
  refine ⟨rfl, he.clean, ?_⟩
  intro ns hns hout
  by_contra hne
  obtain ⟨ms, -, hms, heq⟩ := he.frame _ hne
  obtain rfl : ns = ms :=
    ofNames_injective (fun n hm => (hns n hm).1) (fun n hm => (hn n (hms.subset hm)).1) heq
  -- what is on the way to the directory was there already
  have hpresent : ns <+: top → False := fun hpre => hne <| he.kept _ <| by
    have := h.directory_of_prefix (fun n hm => hn n (List.mem_append_left _ hm)) hd hpre
    rw [this]
    rfl
  obtain hpre | ⟨ks, rfl⟩ :=
    List.prefix_or_prefix_of_prefix hms (List.prefix_append top rest)
  · exact hpresent hpre
  · cases ks with
    | nil => exact hpresent (by simp)
    | cons k ks =>
        obtain ⟨ls, rfl⟩ := (List.prefix_append_right_inj top).mp hms
        exact hout ⟨k, rfl, ks, by simp⟩

/-! ## What a call can do -/

/-- Creating is refused where it is not allowed, for a kind that cannot be made, outside of a
directory and without a name; else it makes the nodes on the way to the new entry. -/
theorem create_cases (m : Memory) (now : Timestamp) (path : String) (kind : Kind) (name : String) :
    (¬ (m.operations.covers (.only .create) = true ∧ kind.isCreatable = true ∧
        m.kind path = .directory ∧ normalize name false ≠ "") ∧
      ∃ e, e.isMisuse = true ∧ (create now path kind name).exec m = (.error e, m)) ∨
    (m.operations.covers (.only .create) = true ∧ kind.isCreatable = true ∧
      m.kind path = .directory ∧ normalize name false ≠ "" ∧
      ∃ r t, (Tree.ensure now (join path name) kind).exec m.tree = (r, t) ∧
        (create now path kind name).exec m
          = (r.map fun _ => join path name, { m with tree := t })) := by
  rw [create]
  simp only [exec_bind, exec_get, exec_ofExcept, join_normalize_child]
  by_cases hops : m.operations.covers (.only .create) = true
  swap
  · simp only [require, if_neg hops]
    exact .inl ⟨fun h => hops h.1, _, rfl, rfl⟩
  simp only [require, if_pos hops]
  by_cases hk : kind.isCreatable = true
  swap
  · simp only [if_neg hk, exec_bind, exec_throw]
    exact .inl ⟨fun h => hk h.2.1, _, rfl, rfl⟩
  rcases hd : m.requireDirectory path with e | _
  · simp only [if_pos hk, exec_bind, exec_ofExcept]
    refine .inl ⟨fun h => ?_, e, ?_, rfl⟩
    · rw [requireDirectory, h.2.2.1] at hd
      cases hd
    · rw [requireDirectory] at hd
      split at hd
      · cases hd
      · obtain rfl := Except.error.inj hd
        rfl
  by_cases h0 : normalize name false = ""
  · simp only [if_pos hk, exec_bind, exec_ofExcept, String.isEmpty_iff, if_pos h0, exec_throw]
    exact .inl ⟨fun h => h.2.2.2 h0, _, rfl, rfl⟩
  rcases hensure : (Tree.ensure now (join path name) kind).exec m.tree with ⟨r, t⟩
  refine .inr ⟨hops, hk, directory_of_require hd, h0, r, t, rfl, ?_⟩
  simp only [if_pos hk, exec_bind, exec_ofExcept, String.isEmpty_iff, if_neg h0, exec_pure,
    exec_onTree, hensure]
  cases r <;> rfl

/-- Deleting is refused where it is not allowed or not asked of a directory; else it removes what
the name leads to. -/
theorem delete_cases (m : Memory) (path name : String) :
    (¬ (m.operations.covers (.only .delete) = true ∧ m.kind path = .directory) ∧
      ∃ e, (delete path name).exec m = (.error e, m)) ∨
    (m.operations.covers (.only .delete) = true ∧ m.kind path = .directory ∧
      (normalize name false = "" ∨ m.kind (join path name) = .unknown) ∧
      (delete path name).exec m = (.ok false, m)) ∨
    (m.operations.covers (.only .delete) = true ∧ m.kind path = .directory ∧
      normalize name false ≠ "" ∧ (m.kind (join path name)).exists? = true ∧
      (delete path name).exec m
        = (.ok true, { m with tree := m.tree.removeWithin (join path name) })) := by
  rw [delete]
  simp only [exec_bind, exec_get, exec_ofExcept, join_normalize_child]
  by_cases hops : m.operations.covers (.only .delete) = true
  swap
  · simp only [require, if_neg hops]
    exact .inl ⟨fun h => hops h.1, _, rfl⟩
  simp only [require, if_pos hops]
  rcases hd : m.requireDirectory path with e | _
  · refine .inl ⟨fun h => ?_, e, rfl⟩
    rw [requireDirectory, h.2] at hd
    cases hd
  have hdir := directory_of_require hd
  by_cases h0 : normalize name false = ""
  · simp only [String.isEmpty_iff, if_pos h0, exec_pure]
    exact .inr (.inl ⟨hops, hdir, .inl h0, trivial⟩)
  simp only [String.isEmpty_iff, if_neg h0, exec_ite, exec_bind, exec_pure, exec_set]
  by_cases hf : m.tree.find? (join path name) = none
  · have hmiss : m.kind (join path name) = .unknown := Tree.kind_eq_unknown.mpr hf
    simp only [hf, Option.isNone_none, if_true]
    exact .inr (.inl ⟨hops, hdir, .inr hmiss, trivial⟩)
  · have hpresent : (m.kind (join path name)).exists? = true :=
      Kind.exists?_iff.mpr fun hk => hf (Tree.kind_eq_unknown.mp hk)
    rw [if_neg (by simpa using hf)]
    exact .inr (.inr ⟨hops, hdir, h0, hpresent, rfl⟩)

/-- Makes the directories on the way to a path, that of the path itself not among them. -/
def Tree.ensureParent (now : Timestamp) (target : String) : Action Tree Unit :=
  match parent? target with
  | some parent => Tree.ensure now parent .directory
  | none => pure ()

/-- Moving is refused, or it makes the directories on the way to the target and then moves what is
there to a place where nothing is. -/
theorem rename_cases (m : Memory) (now : Timestamp) (path target : String) :
    (∃ e, (rename now path target).exec m = (.error e, m)) ∨
    (path ≠ "" ∧ normalize target false ≠ "" ∧ ¬ liesWithin (normalize target false) path = true ∧
      (m.kind path).exists? = true ∧ m.kind (normalize target false) = .unknown ∧
      ∃ r t, (Tree.ensureParent now (normalize target false)).exec m.tree = (r, t) ∧
        (∀ e, r = .error e → (rename now path target).exec m = (.error e, { m with tree := t })) ∧
        (r = .ok () → (rename now path target).exec m
          = (.ok (), { m with tree := t.moveWithin path (normalize target false) }))) := by
  rw [rename]
  simp only [exec_bind, exec_get, exec_ofExcept]
  rcases m.require (.only .delete ∪ .only .create) "renaming" path with e | _
  · exact .inl ⟨e, rfl⟩
  by_cases h0 : path = ""
  · simp only [String.isEmpty_iff, if_pos h0, exec_bind, exec_throw]
    exact .inl ⟨_, rfl⟩
  by_cases hin : normalize target false = "" ∨ liesWithin (normalize target false) path = true
  · simp only [String.isEmpty_iff, if_neg h0, exec_bind, Bool.or_eq_true, if_pos hin, exec_throw]
    exact .inl ⟨_, rfl⟩
  by_cases hex : (m.kind path).exists? = true
  swap
  · simp only [String.isEmpty_iff, if_neg h0, exec_bind, Bool.or_eq_true, if_neg hin, if_neg hex,
      exec_throw]
    exact .inl ⟨_, rfl⟩
  by_cases hdest : (m.kind (normalize target false)).exists? = true
  · simp only [String.isEmpty_iff, if_neg h0, exec_bind, Bool.or_eq_true, if_neg hin, if_pos hex,
      if_pos hdest, exec_throw]
    exact .inl ⟨_, rfl⟩
  obtain ⟨hne, hout⟩ := not_or.mp hin
  have hfree : m.kind (normalize target false) = .unknown :=
    of_not_not fun hk => hdest (Kind.exists?_iff.mpr hk)
  rcases hparent : (Tree.ensureParent now (normalize target false)).exec m.tree with ⟨r, t⟩
  refine .inr ⟨h0, hne, hout, hex, hfree, r, t, rfl, ?_⟩
  simp only [String.isEmpty_iff, if_neg h0, Bool.or_eq_true, if_neg hin, if_pos hex, if_neg hdest]
  cases hp : parent? (normalize target false) with
  | none =>
      rw [Tree.ensureParent, hp] at hparent
      obtain ⟨rfl, rfl⟩ := Prod.mk.inj hparent
      exact ⟨fun _ he => (by cases he), fun _ => rfl⟩
  | some parent =>
      rw [Tree.ensureParent, hp] at hparent
      simp only [exec_bind, exec_onTree, hparent]
      constructor
      · rintro e rfl
        rfl
      · rintro rfl
        rfl

/-- A file in the place of a file changes no kind. -/
theorem Tree.kind_put_file {t : Tree} {old : Bytes} {mtime : Timestamp}
    (hf : t.find? path = some (.file old mtime)) (data : Bytes) (now : Timestamp) (q : String) :
    (t.put path (.file data now)).kind q = t.kind q := by
  rw [Tree.kind_put]
  split
  · rename_i hq
    rw [hq, Tree.kind, hf]
    rfl
  · rfl

/-- Opening changes nothing, or it succeeds and empties the file at the path. -/
theorem openBuffer_cases (m : Memory) (now : Timestamp) (path : String) (mode : OpenMode) :
    (∃ r, (openBuffer now path mode).exec m = (r, m)) ∨
    ∃ b data mtime, m.tree.find? path = some (.file data mtime) ∧
      (openBuffer now path mode).exec m
        = (.ok b, { m with tree := m.tree.put path (.file [] now) }) := by
  rw [openBuffer]
  simp only [exec_bind, exec_get, exec_ofExcept]
  rcases mode.checkAgainst m.operations path with e | _
  · exact .inl ⟨_, rfl⟩
  by_cases hmap : mode.mapped = true
  · simp only [if_pos hmap, exec_bind, exec_throw]
    exact .inl ⟨_, rfl⟩
  simp only [if_neg hmap]
  rcases hf : m.tree.find? path with _ | mtime | ⟨data, mtime⟩
  · exact .inl ⟨_, rfl⟩
  · exact .inl ⟨_, rfl⟩
  · simp only [exec_ite, exec_bind, exec_set, exec_pure]
    split
    · exact .inr ⟨_, data, mtime, rfl, rfl⟩
    · split
      · exact .inl ⟨_, rfl⟩
      · exact .inl ⟨_, rfl⟩

/-! ## Making and removing entries -/

/-- A new entry changes the tree where its first name leads, and below. -/
theorem exec_create (now : Timestamp) (h : m.tree.Clean) (hp : Path.Clean path) (kind : Kind)
    {name : String} (hname : ∀ n ∈ components (normalize name false), IsName n) :
    ∃ r m', (create now path kind name).exec m = (r, m') ∧ (∀ e, r = .error e → m' = m) ∧
      ∀ p, r = .ok p →
        p = ofNames (components path ++ components (normalize name false)) ∧
        Shift m m' (Through (components path) (components (normalize name false))) := by
  obtain ⟨-, e, -, hexec⟩ | ⟨-, hk, hdir, -, r, t, hensure, hexec⟩ :=
    create_cases m now path kind name
  · exact ⟨_, m, hexec, fun _ _ => rfl, by simp⟩
  rw [← join_normalize_child, join_normalize hp hname] at hensure hexec
  rw [← hp.ofNames_components] at hdir
  obtain ⟨r, t, he, herr, hok⟩ := exec_ensure now hk (append_isName hp hname) h
  obtain ⟨rfl, rfl⟩ := Prod.mk.inj (he.symm.trans hensure)
  refine ⟨_, _, hexec, ?_, ?_⟩
  · cases r with
    | error e => exact fun _ _ => by rw [herr e rfl]
    | ok u => simp [Except.map]
  · intro p hp'
    cases r with
    | error e => cases hp'
    | ok u =>
        exact ⟨(Except.ok.inj hp').symm, (hok rfl).shift h hdir (append_isName hp hname)⟩

/-- Deleting changes the tree where the first name leads, and below, and fails nowhere in a
directory if deleting is allowed. -/
theorem exec_delete (h : m.tree.Clean) (hp : Path.Clean path) {name : String}
    (hname : ∀ n ∈ components (normalize name false), IsName n) :
    ∃ r m', (delete path name).exec m = (r, m') ∧ (∀ e, r = .error e → m' = m) ∧
      (∀ b, r = .ok b → (b = false → m' = m) ∧
        Shift m m' (Through (components path) (components (normalize name false)))) ∧
      (m.operations.covers (.only .delete) = true → m.kind path = .directory →
        ∃ b, r = .ok b) := by
  obtain ⟨hno, e, hexec⟩ | ⟨-, -, -, hexec⟩ | ⟨-, -, h0, -, hexec⟩ := delete_cases m path name
  · exact ⟨_, m, hexec, fun _ _ => rfl, by simp, fun hops hd => absurd ⟨hops, hd⟩ hno⟩
  · exact ⟨_, m, hexec, fun _ _ => rfl, fun _ _ => ⟨fun _ => rfl, .refl h _⟩,
      fun _ _ => ⟨false, rfl⟩⟩
  have hn := append_isName hp hname
  have hne := components_normalize_ne_nil h0
  rw [← join_normalize_child, join_normalize hp hname] at hexec
  have hclean := h.removeWithin hn (by simp [hne])
  refine ⟨_, _, hexec, by simp, fun b hb => ⟨?_, rfl, hclean, ?_⟩, fun _ _ => ⟨true, rfl⟩⟩
  · intro hf
    rw [← Except.ok.inj hb] at hf
    cases hf
  · intro ns hns hout
    refine (Tree.kind_removeWithin_ofNames (fun n hm => (hns n hm).1)
      fun n hm => (hn n hm).1).trans (if_neg fun hpre => hout ?_)
    obtain ⟨c, cs, hcs⟩ := List.exists_cons_of_ne_nil hne
    rw [hcs] at hpre ⊢
    have hc : components path ++ [c] <+: components path ++ c :: cs := ⟨cs, by simp⟩
    exact ⟨c, rfl, hc.trans hpre⟩

/-- Opening a file empties it at most. -/
theorem exec_openBuffer (now : Timestamp) (h : m.tree.Clean) (path : String) (mode : OpenMode)
    (touched : List String → Prop) :
    ∃ r m', (openBuffer now path mode).exec m = (r, m') ∧ Shift m m' touched := by
  obtain ⟨r, hexec⟩ | ⟨b, data, mtime, hf, hexec⟩ := openBuffer_cases m now path mode
  · exact ⟨r, m, hexec, .refl h touched⟩
  · have hkind := Tree.kind_put_file hf [] now
    exact ⟨.ok b, _, hexec, rfl, h.of_kind hkind, fun ns _ _ => hkind _⟩

/-! ## Moving an entry -/

/-- The first part of a missing path that is missing lies in a directory, unless a file is in the
way. -/
theorem Tree.Clean.exists_gap {t : Tree} {qs : List String} (h : t.Clean)
    (hmiss : t.kind (ofNames qs) = .unknown)
    (hfile : ∀ l, l <+: qs → t.kind (ofNames l) ≠ .file) :
    ∃ front x, front ++ [x] <+: qs ∧ t.kind (ofNames front) = .directory ∧
      t.kind (ofNames (front ++ [x])) = .unknown := by
  induction qs using List.reverseRecOn with
  | nil =>
      rw [ofNames_nil, h.1] at hmiss
      cases hmiss
  | append_singleton l x ih =>
      have hl := List.prefix_append l [x]
      cases hk : t.kind (ofNames l) with
      | directory => exact ⟨l, x, List.prefix_rfl, hk, hmiss⟩
      | file => exact absurd hk (hfile l hl)
      | unknown =>
          obtain ⟨front, y, hpre, hd, hu⟩ := ih hk fun l' hl' => hfile l' (hl'.trans hl)
          exact ⟨front, y, hpre.trans hl, hd, hu⟩

/-- Making the directories on the way to a new path fails before it changes anything. -/
theorem exec_ensureParent (now : Timestamp) {t : Tree} (h : t.Clean) {qs : List String} {x : String}
    (hn : ∀ n ∈ qs ++ [x], IsName n) :
    ∃ r t', (Tree.ensureParent now (ofNames (qs ++ [x]))).exec t = (r, t') ∧
      (∀ e, r = .error e → t' = t) ∧ (r = .ok () → Tree.Ensured t t' .directory [] qs) := by
  rw [Tree.ensureParent, parent?_ofNames_snoc (hn x (by simp)).1]
  by_cases h0 : qs = []
  · subst h0
    refine ⟨.ok (), t, rfl, by simp, fun _ =>
      ⟨h, fun _ _ => rfl, fun q hq => absurd rfl hq, ?_⟩⟩
    exact fun ms hms hpre => absurd (List.prefix_nil.mp hpre) hms
  · obtain ⟨r, t', he, herr, hok⟩ := exec_ensure now (rfl : Kind.directory.isCreatable = true)
      (fun n hm => hn n (List.mem_append_left _ hm)) h
    exact ⟨r, t', by rw [if_neg h0, ← he], herr, hok⟩

/-- What moving an entry leaves behind: the tree differs below the entry and below the first part
of the target that was missing. -/
structure Renamed (m m' : Memory) (source target : List String) : Prop where
  operations : m'.operations = m.operations
  clean : m'.tree.Clean
  inner : source ≠ []
  present : (m.kind (ofNames source)).exists? = true
  moved : ∀ ks, (∀ k ∈ ks, IsName k) →
    m'.kind (ofNames (target ++ ks)) = m.kind (ofNames (source ++ ks))
  shift : ∃ front x, front ++ [x] <+: target ∧ m.kind (ofNames front) = .directory ∧
    m.kind (ofNames (front ++ [x])) = .unknown ∧
    ∀ ns, (∀ n ∈ ns, IsName n) → ¬ source <+: ns → ¬ front ++ [x] <+: ns →
      m'.kind (ofNames ns) = m.kind (ofNames ns)

theorem Tree.Ensured.directory {t t' : Tree} {qs l : List String} (h : t.Clean)
    (he : Tree.Ensured t t' .directory [] qs) (hl : l <+: qs) :
    t'.kind (ofNames l) = .directory := by
  by_cases h0 : l = []
  · have hroot : t.kind "" = .directory := h.1
    rw [h0, ofNames_nil, he.kept "" (by rw [hroot]; rfl), hroot]
  · have := he.made l h0 hl
    rwa [List.nil_append, ite_self] at this

/-- Making directories has changed nothing but parts of the path that were missing. -/
theorem Tree.Ensured.changed {t t' : Tree} {qs ns : List String}
    (he : Tree.Ensured t t' .directory [] qs) (hq : ∀ n ∈ qs, IsName n) (hn : ∀ n ∈ ns, IsName n)
    (hne : t'.kind (ofNames ns) ≠ t.kind (ofNames ns)) :
    ns <+: qs ∧ t.kind (ofNames ns) = .unknown := by
  obtain ⟨ms, -, hms, heq⟩ := he.frame _ hne
  have hm : ∀ m ∈ ms, IsComponent m := fun m hm => (hq m (hms.subset hm)).1
  obtain rfl : ns = ms := ofNames_injective (fun n hm => (hn n hm).1) hm heq
  refine ⟨hms, ?_⟩
  by_contra hk
  exact hne (he.kept _ (Kind.exists?_iff.mpr hk))

/-- There was no file on the way. -/
theorem Tree.Ensured.kind_ne_file {t t' : Tree} {qs l : List String} (h : t.Clean)
    (he : Tree.Ensured t t' .directory [] qs) (hl : l <+: qs) : t.kind (ofNames l) ≠ .file := by
  intro hf
  have hd := he.directory h hl
  have hpresent : (t.kind (ofNames l)).exists? = true := by
    rw [hf]
    rfl
  rw [he.kept _ hpresent, hf] at hd
  cases hd

/-- Once the directories on the way to the target are there, the nodes can be moved. -/
theorem movable_of_ensured {t t' : Tree} {ps qs : List String} {x : String} (h : t.Clean)
    (hp : ∀ n ∈ ps, IsName n) (hq : ∀ n ∈ qs ++ [x], IsName n) (h0 : ps ≠ [])
    (hpq : ¬ ps <+: qs ++ [x]) (hsource : (t.kind (ofNames ps)).exists? = true)
    (htarget : t.kind (ofNames (qs ++ [x])) = .unknown)
    (he : Tree.Ensured t t' .directory [] qs) : Tree.Movable t' ps qs x where
  clean := he.clean
  source := hp
  target := hq
  inner := h0
  outside := hpq
  present := by
    rw [he.kept _ hsource]
    exact hsource
  free := by
    have hqs : ∀ n ∈ qs, IsName n := fun n hn => hq n (List.mem_append_left _ hn)
    by_contra hne
    have hpre := (he.changed hqs hq fun heq => hne (heq.trans htarget)).1
    exact absurd hpre.length_le (by simp)
  parent := he.directory h List.prefix_rfl

/-- First the directories on the way to the target are made, then the nodes move. -/
theorem renamed_moveWithin {t : Tree} {ps qs : List String} {x : String} (h : m.tree.Clean)
    (hp : ∀ n ∈ ps, IsName n) (hq : ∀ n ∈ qs ++ [x], IsName n) (h0 : ps ≠ [])
    (hpq : ¬ ps <+: qs ++ [x]) (hsource : (m.kind (ofNames ps)).exists? = true)
    (htarget : m.kind (ofNames (qs ++ [x])) = .unknown)
    (he : Tree.Ensured m.tree t .directory [] qs) :
    Renamed m { m with tree := t.moveWithin (ofNames ps) (ofNames (qs ++ [x])) } ps
      (qs ++ [x]) := by
  have hqs : ∀ n ∈ qs, IsName n := fun n hn => hq n (List.mem_append_left _ hn)
  have hmoved := (movable_of_ensured h hp hq h0 hpq hsource htarget he).moved
  obtain ⟨front, y, hpre, hdir, hgap⟩ := h.exists_gap htarget fun l hl => by
    rcases List.prefix_concat_iff.mp hl with rfl | hl
    · rw [show m.tree.kind (ofNames (qs ++ [x])) = .unknown from htarget]
      decide
    · exact he.kind_ne_file h hl
  refine ⟨rfl, hmoved.clean, h0, hsource, ?_, front, y, hpre, hdir, hgap, ?_⟩
  · intro ks hk
    refine (hmoved.moved ks hk).trans ?_
    by_contra hne
    have hks : ∀ n ∈ ps ++ ks, IsName n := fun n hn => (List.mem_append.mp hn).elim (hp n) (hk n)
    have hin := (he.changed hqs hks hne).1
    exact hpq ((List.prefix_append ps ks).trans (hin.trans (List.prefix_append qs [x])))
  · intro ns hns hps hfront
    refine (hmoved.frame ns hns hps fun hin => hfront (hpre.trans hin)).trans ?_
    by_contra hne
    obtain ⟨hin, hu⟩ := he.changed hqs hns hne
    -- what was made on the way lies above the first missing part, or at it or below it
    rcases List.prefix_or_prefix_of_prefix (hin.trans (List.prefix_append qs [x])) hpre with hl | hl
    · rcases List.prefix_concat_iff.mp hl with rfl | hl
      · exact hfront List.prefix_rfl
      · have hnames : ∀ n ∈ front, IsName n := by
          intro n hn
          exact hq n (hpre.subset (List.mem_append_left _ hn))
        have hd := h.directory_of_prefix hnames hdir hl
        rw [hd] at hu
        cases hu
    · exact hfront hl

/-- Moving an entry of a clean tree: it fails before it changes anything. -/
theorem exec_rename (now : Timestamp) (h : m.tree.Clean) (hp : Path.Clean path) {target : String}
    (htarget : ∀ n ∈ components (normalize target false), IsName n) :
    ∃ r m', (rename now path target).exec m = (r, m') ∧ (∀ e, r = .error e → m' = m) ∧
      (r = .ok () →
        Renamed m m' (components path) (components (normalize target false))) := by
  obtain ⟨e, hexec⟩ | ⟨h0, hne, hin, hex, hdest, r, t, hensure, herr, hok⟩ :=
    rename_cases m now path target
  · exact ⟨_, m, hexec, fun _ _ => rfl, by simp⟩
  rw [← ofNames_components_normalize] at hne hin hdest hensure hok
  generalize components (normalize target false) = ns at htarget hne hin hdest hensure hok ⊢
  rcases List.eq_nil_or_concat' ns with rfl | ⟨qs, x, rfl⟩
  · exact absurd ofNames_nil hne
  obtain ⟨r, t, he, hsame, hmade⟩ := exec_ensureParent now h htarget
  obtain ⟨rfl, rfl⟩ := Prod.mk.inj (he.symm.trans hensure)
  cases r with
  | error e => exact ⟨_, _, herr e rfl, fun _ _ => by rw [hsame e rfl], by simp⟩
  | ok u =>
      refine ⟨_, _, hok rfl, by simp, fun _ => ?_⟩
      have hcomp : ∀ n ∈ components path, IsName n := fun n hn => hp.isName hn
      have hpath := hp.ofNames_components
      generalize components path = ps at hcomp hpath ⊢
      subst hpath
      refine renamed_moveWithin h hcomp htarget (fun hnil => h0 (by rw [hnil, ofNames_nil]))
        (fun hpre => hin ?_) hex hdest (hmade rfl)
      exact (liesWithin_ofNames (fun n hn => (htarget n hn).1) fun n hn => (hcomp n hn).1).mpr hpre

end Strata.Memory
