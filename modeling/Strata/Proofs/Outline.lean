/-
# `Strata.Proofs.Outline` — what a filesystem holds, as far as looking up goes

Memory filesystems and archives keep their nodes in different tables.  To look a
name up, or to list a directory, only the kind at each path and the list of the
paths count: the outline.  In a clean outline each node but the root lies in a
directory and every component is trimmed, so a walk from the root along names
arrives exactly where there is a node.
-/
import Strata.Archive.Basic
import Strata.Memory.Basic
import Strata.Proofs.Action
import Strata.Proofs.Path

namespace Strata

open Strata.Path

theorem Kind.exists?_iff {k : Kind} : k.exists? = true ↔ k ≠ .unknown := by
  cases k <;> decide

/-- The kinds at all paths, and the paths that hold a node. -/
structure Outline where
  kind : String → Kind
  paths : List String

namespace Outline

/-- The paths directly below a directory, in order. -/
def below (t : Outline) (path : String) : List String :=
  t.paths.filter fun p => !p.isEmpty && parentOrRoot p == path

/-- The root is a directory, each other node lies in one, and every path is clean. -/
structure Clean (t : Outline) : Prop where
  root : t.kind "" = .directory
  path : ∀ p ∈ t.paths, p ≠ "" → Path.Clean p
  parent : ∀ p ∈ t.paths, p ≠ "" → t.kind (parentOrRoot p) = .directory
  listed : ∀ p, p ≠ "" → ((t.kind p).exists? = true ↔ p ∈ t.paths)

variable {t : Outline}

theorem Clean.isName {ns : List String} (h : t.Clean) (hn : ∀ n ∈ ns, IsComponent n)
    (he : (t.kind (ofNames ns)).exists? = true) : ∀ n ∈ ns, IsName n := by
  by_cases h0 : ns = []
  · subst h0; simp
  · have hp := (h.listed _ (by simpa [ofNames_eq_empty hn] using h0)).mp he
    have hc := h.path _ hp (by simpa [ofNames_eq_empty hn] using h0)
    intro n hm
    exact hc.isName (by rwa [components_ofNames hn])

theorem Clean.clean_of_exists {p : String} (h : t.Clean) (he : (t.kind p).exists? = true) :
    Path.Clean p := by
  by_cases h0 : p = ""
  · subst h0
    exact clean_empty
  · exact h.path p ((h.listed p h0).mp he) h0

theorem Clean.directory_of_snoc {ns : List String} {n : String} (h : t.Clean)
    (hn : ∀ m ∈ ns ++ [n], IsComponent m)
    (he : (t.kind (ofNames (ns ++ [n]))).exists? = true) : t.kind (ofNames ns) = .directory := by
  have h0 : ofNames (ns ++ [n]) ≠ "" := by simp [ofNames_eq_empty hn]
  have := h.parent _ ((h.listed _ h0).mp he) h0
  rwa [parentOrRoot_ofNames_snoc (hn n (by simp))] at this

/-- What lies above a node is a directory. -/
theorem Clean.directory_of_append {ns ms : List String} (h : t.Clean)
    (hn : ∀ m ∈ ns ++ ms, IsComponent m) (hm : ms ≠ [])
    (he : (t.kind (ofNames (ns ++ ms))).exists? = true) : t.kind (ofNames ns) = .directory := by
  induction ms using List.reverseRecOn with
  | nil => exact absurd rfl hm
  | append_singleton ms m ih =>
      rw [← List.append_assoc] at hn he
      have hd := h.directory_of_snoc hn he
      by_cases h0 : ms = []
      · subst h0; simpa using hd
      · exact ih (fun x hx => hn x (List.mem_append_left _ hx)) h0 (by rw [hd]; rfl)

theorem mem_below {ns : List String} {p : String} (h : t.Clean) (hn : ∀ n ∈ ns, IsComponent n) :
    p ∈ t.below (ofNames ns) ↔
      ∃ n, IsName n ∧ p = ofNames (ns ++ [n]) ∧ (t.kind p).exists? = true := by
  simp only [below, List.mem_filter, Bool.and_eq_true, Bool.not_eq_true', beq_iff_eq]
  constructor
  · rintro ⟨hp, he, hd⟩
    have h0 : p ≠ "" := fun h0 => by simp [h0] at he
    have hc := h.path p hp h0
    have heq := hc.ofNames_components
    rcases List.eq_nil_or_concat (components p) with hnil | ⟨ms, n, hs⟩
    · rw [hnil] at heq; exact absurd heq.symm h0
    · rw [List.concat_eq_append] at hs
      have hms : ∀ m ∈ ms ++ [n], IsName m := fun m hm => hc.isName (hs ▸ hm)
      rw [← heq, hs, parentOrRoot_ofNames_snoc (hms n (by simp)).1] at hd
      have : ms = ns := ofNames_injective (fun m hm => (hms m (by simp [hm])).1) hn hd
      exact ⟨n, hms n (by simp), by rw [← heq, hs, this], (h.listed p h0).mpr hp⟩
  · rintro ⟨n, hname, rfl, he⟩
    have h0 : ofNames (ns ++ [n]) ≠ "" := by
      rw [Ne, ofNames_eq_empty (forall_mem_snoc hn hname.1)]
      simp
    exact ⟨(h.listed _ h0).mp he, by simpa using h0, parentOrRoot_ofNames_snoc hname.1⟩

/-! ## Walking from the root -/

/-- Along directories the walk arrives. -/
theorem descend_of_directories {ns ms : List String} (hn : ∀ m ∈ ns ++ ms, IsName m)
    (hd : ∀ ks, ks <+: ms → ks ≠ ms → t.kind (ofNames (ns ++ ks)) = .directory)
    (he : (t.kind (ofNames (ns ++ ms))).exists? = true) :
    Lookup.descend (fun p => .ok (t.kind p)) (ofNames ns) ms
      = .ok (some (ofNames (ns ++ ms))) := by
  induction ms generalizing ns with
  | nil => simp_all [Lookup.descend, bind, Except.bind, pure, Except.pure]
  | cons m ms ih =>
      have hhere : t.kind (ofNames ns) = .directory := by
        have := hd [] List.nil_prefix (by simp)
        rwa [List.append_nil] at this
      have hj : join (ofNames ns) m = ofNames (ns ++ [m]) :=
        join_ofNames_name (fun x hx => (hn x (by simp [hx])).1) (hn m (by simp))
      rw [List.append_cons] at hn he ⊢
      have hrest := ih hn (fun ks hks hne => by
        have := hd (m :: ks) (List.cons_prefix_cons.mpr ⟨rfl, hks⟩) (by simpa using hne)
        rwa [List.append_cons] at this) he
      simpa [Lookup.descend, hhere, hj, bind, Except.bind] using hrest

theorem descend_of_exists (h : t.Clean) {ns ms : List String}
    (hn : ∀ m ∈ ns ++ ms, IsName m) (he : (t.kind (ofNames (ns ++ ms))).exists? = true) :
    Lookup.descend (fun p => .ok (t.kind p)) (ofNames ns) ms
      = .ok (some (ofNames (ns ++ ms))) := by
  refine descend_of_directories hn ?_ he
  rintro ks ⟨ls, rfl⟩ hne
  have hls : ls ≠ [] := fun h0 => hne (by rw [h0, List.append_nil])
  rw [← List.append_assoc] at hn he
  exact h.directory_of_append (fun x hx => (hn x hx).1) hls he

/-- What a walk along any components arrives at has trimmed names. -/
theorem isName_of_descend {kindOf : String → Except Failure Kind} {ns cs : List String} {p : String}
    (hn : ∀ n ∈ ns, IsName n) (hcs : ∀ c ∈ cs, IsComponent c)
    (h : Lookup.descend kindOf (ofNames ns) cs = .ok (some p)) :
    ∃ ms, (∀ m ∈ ms, IsName m) ∧ p = ofNames ms := by
  induction cs generalizing ns with
  | nil =>
      obtain ⟨kind, -, h⟩ := bind_eq_ok.mp h
      split at h
      · exact ⟨ns, hn, (Option.some.inj (Except.ok.inj h)).symm⟩
      · cases h
  | cons c cs ih =>
      obtain ⟨hc, hcs⟩ := List.forall_mem_cons.mp hcs
      obtain ⟨kind, -, h⟩ := bind_eq_ok.mp h
      cases kind with
      | unknown => cases h
      | file => cases h
      | directory =>
          have hjoin := join_eq_ofNames (fun n hm => (hn n hm).1) c
          refine ih (fun m hm => ?_) hcs (hjoin ▸ h)
          rcases List.mem_append.mp hm with hm | hm
          · exact hn m hm
          · rcases components_of_component hc with hblank | ⟨n, hname, hone⟩
            · simp [hblank] at hm
            · rw [hone, List.mem_singleton] at hm
              exact hm ▸ hname

theorem descend_of_not_exists {ns ms : List String}
    (hn : ∀ m ∈ ns ++ ms, IsName m) (he : (t.kind (ofNames (ns ++ ms))).exists? = false) :
    Lookup.descend (fun p => .ok (t.kind p)) (ofNames ns) ms = .ok none ∨
      ∃ p, Lookup.descend (fun p => .ok (t.kind p)) (ofNames ns) ms
        = .error (.notADirectory p) := by
  induction ms generalizing ns with
  | nil => simp_all [Lookup.descend, bind, Except.bind, pure, Except.pure]
  | cons m ms ih =>
      have hj : join (ofNames ns) m = ofNames (ns ++ [m]) :=
        join_ofNames_name (fun x hx => (hn x (by simp [hx])).1) (hn m (by simp))
      rw [Lookup.descend]
      cases hk : t.kind (ofNames ns) with
      | directory =>
          rw [List.append_cons] at hn he
          simpa [hj, bind, Except.bind] using ih hn he
      | file => exact Or.inr ⟨ofNames ns, rfl⟩
      | unknown => exact Or.inl rfl

/-- The walk that looks a clean path up from the root. -/
def find (t : Outline) (path : String) : Except Failure (Option String) :=
  Lookup.child (fun p => .ok (t.kind p)) "" path

theorem find_eq {ns : List String} (hn : ∀ n ∈ ns, IsName n) (h0 : ns ≠ []) :
    t.find (ofNames ns) = Lookup.descend (fun p => .ok (t.kind p)) (ofNames []) ns := by
  have hc : ∀ n ∈ ns, IsComponent n := fun n hm => (hn n hm).1
  simp [find, Lookup.child, normalize_ofNames hn, components_ofNames hc, ofNames_eq_empty hc, h0,
    ofNames_nil]

end Outline

/-! ## The outlines of memory filesystems and archives -/

theorem mem_keys_iff {α : Type} {l : List (String × α)} {k : String} :
    k ∈ l.map (·.1) ↔ (l.lookup k).isSome = true := by
  rw [List.lookup_isSome_iff, List.mem_map]
  exact exists_congr fun e => and_congr_right' (by rw [beq_iff_eq]; exact eq_comm)

namespace Memory

namespace Tree

/-- The outline of a tree. -/
def outline (t : Tree) : Outline := ⟨t.kind, t.paths⟩

/-- The root is a directory, each other node lies in one, and every path is clean. -/
def Clean (t : Tree) : Prop :=
  t.kind "" = .directory ∧
    ∀ p ∈ t.paths, p ≠ "" → Path.Clean p ∧ t.kind (parentOrRoot p) = .directory

instance : DecidablePred Clean := fun t =>
  inferInstanceAs (Decidable (t.kind "" = .directory ∧
    ∀ p ∈ t.paths, p ≠ "" → Path.Clean p ∧ t.kind (parentOrRoot p) = .directory))

theorem exists?_kind (t : Tree) (p : String) : (t.kind p).exists? = true ↔ p ∈ t.paths := by
  have hs : p ∈ t.paths ↔ (t.find? p).isSome = true := mem_keys_iff
  rw [hs, kind]
  cases t.find? p with
  | none => simp [Kind.exists?]
  | some node => cases node <;> simp [Node.kind, Kind.exists?]

theorem outline_clean {t : Tree} (h : t.Clean) : t.outline.Clean where
  root := h.1
  path p hp h0 := (h.2 p hp h0).1
  parent p hp h0 := (h.2 p hp h0).2
  listed p _ := t.exists?_kind p

end Tree

/-- The outline of a memory filesystem. -/
def outline (m : Memory) : Outline := m.tree.outline

end Memory

namespace Archive

/-- The outline of an archive. -/
def outline (a : Archive) : Outline := ⟨a.kind, a.index.paths⟩

/-- Each node is a directory or a file, lies in a directory, and has a clean path that is not the
root's. -/
def Index.Clean (ix : Index) : Prop :=
  ∀ p ∈ ix.paths, p ≠ "" ∧ Path.Clean p ∧ ix.kind (parentOrRoot p) = .directory ∧
    (ix.kind p).exists? = true

instance : DecidablePred Index.Clean := fun ix =>
  inferInstanceAs (Decidable (∀ p ∈ ix.paths, p ≠ "" ∧ Path.Clean p ∧
    ix.kind (parentOrRoot p) = .directory ∧ (ix.kind p).exists? = true))

theorem outline_clean {a : Archive} (h : a.index.Clean) : a.outline.Clean where
  root := rfl
  path p hp _ := (h p hp).2.1
  parent p hp _ := (h p hp).2.2.1
  listed p h0 := by
    refine ⟨?_, fun hp => (h p hp).2.2.2⟩
    intro he
    have hs : p ∈ a.index.paths ↔ (a.index.find? p).isSome = true := mem_keys_iff
    simp only [outline, Archive.kind, Index.kind, String.isEmpty_iff, h0, if_false] at he
    cases hf : a.index.find? p with
    | none => simp [hf, Kind.exists?] at he
    | some node => exact hs.mpr (by simp [hf])

end Archive

end Strata
