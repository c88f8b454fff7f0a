/-
# `Strata.Proofs.Archive.Index` — what an index is built from

Records are added one by one, each with the directories on its way.  A path that is
there never goes and keeps its kind (`Grows`), so what one record has put into the
index is still there at the end, whatever records come before and after it
(`holds_addFrom`).  Where the names of the records are trimmed, the paths of the index
are those of the records and of what is on their way, and no others (`mem_addFrom`).
-/
import Strata.Proofs.Outline

namespace Strata.Archive

open Strata.Path

/-- The names of the path of a record. -/
def Record.names (r : Record) : List String := components (normalize r.path false)

/-- The names of the path of a record are trimmed. -/
def Record.IsTrimmed (r : Record) : Prop := ∀ n ∈ r.names, IsName n

instance : DecidablePred Record.IsTrimmed := fun r =>
  inferInstanceAs (Decidable (∀ n ∈ r.names, IsName n))

/-- The path is the one of the record, or of a directory on the way to it. -/
def Record.LeadsThrough (r : Record) (p : String) : Prop :=
  ∃ ns, ns ≠ [] ∧ ns <+: r.names ∧ p = ofNames ns

theorem Record.ofNames_names (r : Record) : ofNames r.names = normalize r.path false :=
  ofNames_components_normalize r.path

theorem Record.isComponent {r : Record} {n : String} (h : n ∈ r.names) : IsComponent n :=
  isComponent_of_mem h

namespace Index

variable {ix ix' ix'' : Index} {path here name : String} {cs : List String} {r : Record}

theorem normalize_ne_empty (h : isUsable r = true) : normalize r.path false ≠ "" := by
  simp only [isUsable, Bool.and_eq_true, Bool.not_eq_true', String.isEmpty_eq_false_iff] at h
  exact h.1

theorem exists?_of_isUsable (h : isUsable r = true) : r.kind.exists? = true := by
  simp only [isUsable, Bool.and_eq_true] at h
  exact h.2

/-! ## One path more -/

theorem find?_push (h : ix.find? path = none) (node : Node) (q : String) :
    (ix.push path node).find? q = if q = path then some node else ix.find? q := by
  show (ix.nodes ++ [(path, node)]).lookup q = _
  rw [List.lookup_append, Table.lookup_cons]
  by_cases hq : q = path
  · subst hq
    rw [show ix.nodes.lookup q = none from h, if_pos rfl, if_pos rfl]
    rfl
  · rw [if_neg hq, if_neg hq, List.lookup_nil, Option.or_none]
    rfl

theorem find?_replace (path : String) (node : Node) (q : String) :
    (ix.replace path node).find? q
      = if q = path then (ix.find? path).map fun _ => node else ix.find? q := by
  obtain ⟨nodes⟩ := ix
  simp only [replace, find?]
  induction nodes with
  | nil => simp
  | cons entry nodes ih =>
      obtain ⟨k, v⟩ := entry
      rw [List.map_cons, Table.lookup_cons, Table.lookup_cons]
      by_cases hk : k = path
      · subst hk
        rw [if_pos rfl, Table.lookup_cons, ih, if_pos rfl]
        by_cases hq : q = k
        · simp [hq]
        · simp [hq]
      · rw [if_neg hk, Table.lookup_cons, ih, if_neg (Ne.symm hk)]
        by_cases hq : q = k
        · subst hq
          simp [hk]
        · simp [hq]

theorem mem_paths : path ∈ ix.paths ↔ (ix.find? path).isSome = true := mem_keys_iff

theorem paths_push (ix : Index) (path : String) (node : Node) :
    (ix.push path node).paths = ix.paths ++ [path] := by
  simp [paths, push]

theorem paths_replace (ix : Index) (path : String) (node : Node) :
    (ix.replace path node).paths = ix.paths := by
  rw [paths, paths, replace, List.map_map]
  refine List.map_congr_left fun e _ => ?_
  by_cases he : e.1 = path
  · simp [he]
  · simp [he]

theorem kind_root (ix : Index) : ix.kind "" = .directory := rfl

theorem kind_of_ne_empty (h0 : path ≠ "") :
    ix.kind path = ((ix.find? path).map Node.kind).getD .unknown := by
  rw [kind, if_neg (by simpa using h0)]
  cases ix.find? path <;> rfl

theorem kind_of_find? {node : Node} (hf : ix.find? path = some node)
    (hroot : path = "" → node.kind = .directory) : ix.kind path = node.kind := by
  by_cases h0 : path = ""
  · rw [hroot h0, h0, kind_root]
  · rw [kind_of_ne_empty h0, hf]
    rfl

theorem mem_paths_of_exists (h0 : path ≠ "") (he : (ix.kind path).exists? = true) :
    path ∈ ix.paths := by
  rw [mem_paths]
  rw [kind_of_ne_empty h0] at he
  cases hf : ix.find? path with
  | none => simp [hf, Kind.exists?] at he
  | some node => rfl

/-- A path that is there is no path more. -/
theorem mem_or_eq {node : Node} (hf : ix.find? path = some node) (q : String) :
    q ∈ ix.paths ↔ q ∈ ix.paths ∨ q = path := by
  have hin : path ∈ ix.paths := by simp [mem_paths, hf]
  exact ⟨.inl, fun h => h.elim id fun hq => hq ▸ hin⟩

/-- No path goes, none changes its kind, and each is still there once. -/
structure Grows (ix ix' : Index) : Prop where
  kept : ∀ q, (ix.kind q).exists? = true → ix'.kind q = ix.kind q
  nodup : ix.paths.Nodup → ix'.paths.Nodup

theorem Grows.refl (ix : Index) : Grows ix ix := ⟨fun _ _ => rfl, id⟩

theorem Grows.trans (h : Grows ix ix') (h' : Grows ix' ix'') : Grows ix ix'' where
  kept q he := by
    have hq := h.kept q he
    rw [h'.kept q (hq ▸ he), hq]
  nodup hnd := h'.nodup (h.nodup hnd)

/-- The index has grown by one path, which is there now with this kind. -/
structure Adds (ix ix' : Index) (path : String) (kind : Kind) : Prop extends Grows ix ix' where
  here : ix'.kind path = kind
  mem : ∀ q, q ∈ ix'.paths ↔ q ∈ ix.paths ∨ q = path

theorem adds_push (hf : ix.find? path = none) {node : Node}
    (hroot : path = "" → node.kind = .directory) :
    Adds ix (ix.push path node) path node.kind where
  kept q he := by
    by_cases h0 : q = ""
    · rw [h0, kind_root, kind_root]
    · rw [kind_of_ne_empty h0, kind_of_ne_empty h0, find?_push hf]
      by_cases hq : q = path
      · rw [hq, kind_of_ne_empty (hq ▸ h0), hf] at he
        cases he
      · rw [if_neg hq]
  nodup hnd := by
    have hout : path ∉ ix.paths := by simp [mem_paths, hf]
    rw [paths_push]
    refine List.nodup_append.mpr ⟨hnd, by simp, ?_⟩
    rintro q hq p hp rfl
    exact hout (List.mem_singleton.mp hp ▸ hq)
  here := kind_of_find? (by rw [find?_push hf, if_pos rfl]) hroot
  mem q := by simp [paths_push]

/-- A directory takes the place of a directory. -/
theorem adds_replace {old node : Node} (hf : ix.find? path = some old)
    (hold : old.kind = .directory) (hnew : node.kind = .directory) :
    Adds ix (ix.replace path node) path node.kind where
  kept q _ := by
    by_cases h0 : q = ""
    · rw [h0, kind_root, kind_root]
    · rw [kind_of_ne_empty h0, kind_of_ne_empty h0, find?_replace]
      by_cases hq : q = path
      · rw [if_pos hq, hq, hf, Option.map_some, Option.map_some, Option.map_some, hold, hnew]
      · rw [if_neg hq]
  nodup hnd := by rwa [paths_replace]
  here := by
    refine kind_of_find? ?_ fun _ => hnew
    rw [find?_replace, if_pos rfl, hf, Option.map_some]
  mem q := by
    rw [paths_replace]
    exact mem_or_eq hf q

/-- A directory that is there already. -/
theorem adds_directory {node : Node} (hf : ix.find? path = some node)
    (hk : node.kind = .directory) : Adds ix ix path .directory where
  toGrows := .refl ix
  here := hk ▸ kind_of_find? hf fun _ => hk
  mem := mem_or_eq hf

/-! ## The directories on the way -/

/-- The step at the first of the components: a directory is there then. -/
theorem implyFrom_cons {c : String} (h : implyFrom name here (c :: cs) ix = .ok ix') :
    ∃ ix₁, Adds ix ix₁ (join here c) .directory ∧
      implyFrom name (join here c) cs ix₁ = .ok ix' := by
  rw [implyFrom] at h
  cases hf : ix.find? (join here c) with
  | none =>
      rw [hf] at h
      exact ⟨_, adds_push hf fun _ => rfl, h⟩
  | some node =>
      rw [hf] at h
      dsimp only at h
      split at h
      · rename_i hd
        exact ⟨ix, adds_directory hf (beq_iff_eq.mp hd), h⟩
      · cases h

theorem grows_implyFrom (h : implyFrom name here cs ix = .ok ix') : Grows ix ix' := by
  induction cs generalizing here ix with
  | nil =>
      obtain rfl := Except.ok.inj h
      exact .refl ix
  | cons c cs ih =>
      obtain ⟨ix₁, hadds, hrest⟩ := implyFrom_cons h
      exact hadds.toGrows.trans (ih hrest)

/-- What is there once the directories along some names are. -/
theorem implyFrom_names {done : List String} (hn : ∀ n ∈ done ++ cs, IsName n)
    (h : implyFrom name (ofNames done) cs ix = .ok ix') :
    (∀ ks, ks ≠ [] → ks <+: cs → ix'.kind (ofNames (done ++ ks)) = .directory) ∧
    ∀ q, q ∈ ix'.paths ↔
      q ∈ ix.paths ∨ ∃ ks, ks ≠ [] ∧ ks <+: cs ∧ q = ofNames (done ++ ks) := by
  induction cs generalizing done ix with
  | nil =>
      obtain rfl := Except.ok.inj h
      refine ⟨fun ks h0 hks => absurd (List.prefix_nil.mp hks) h0, fun q => ⟨.inl, ?_⟩⟩
      rintro (hq | ⟨ks, h0, hks, -⟩)
      · exact hq
      · exact absurd (List.prefix_nil.mp hks) h0
  | cons c cs ih =>
      obtain ⟨ix₁, hadds, hrest⟩ := implyFrom_cons h
      rw [List.append_cons] at hn
      have hjoin : join (ofNames done) c = ofNames (done ++ [c]) :=
        join_ofNames_name (fun m hm => (hn m (by simp [hm])).1) (hn c (by simp))
      rw [hjoin] at hadds hrest
      obtain ⟨hdirs, hmem⟩ := ih hn hrest
      constructor
      · intro ks h0 hks
        obtain ⟨k, ks, rfl⟩ := List.exists_cons_of_ne_nil h0
        obtain ⟨rfl, htail⟩ := List.cons_prefix_cons.mp hks
        rw [List.append_cons]
        by_cases h1 : ks = []
        · rw [h1, List.append_nil, (grows_implyFrom hrest).kept _ (by rw [hadds.here]; rfl),
            hadds.here]
        · exact hdirs ks h1 htail
      · intro q
        rw [hmem, hadds.mem, or_assoc]
        refine or_congr_right ⟨?_, ?_⟩
        · rintro (rfl | ⟨ks, -, hks, rfl⟩)
          · exact ⟨[c], by simp, by simp, rfl⟩
          · exact ⟨c :: ks, by simp, by simpa using hks, by simp⟩
        · rintro ⟨ks, h0, hks, rfl⟩
          obtain ⟨k, ks, rfl⟩ := List.exists_cons_of_ne_nil h0
          obtain ⟨rfl, htail⟩ := List.cons_prefix_cons.mp hks
          by_cases h1 : ks = []
          · exact .inl (by rw [h1])
          · exact .inr ⟨ks, h1, htail, by simp⟩

theorem grows_implyParents (h : implyParents name path ix = .ok ix') : Grows ix ix' := by
  rw [implyParents] at h
  split at h
  · exact grows_implyFrom h
  · obtain rfl := Except.ok.inj h
    exact .refl ix

theorem implyParents_snoc {ns : List String} {x : String} (hn : ∀ n ∈ ns ++ [x], IsName n)
    (h : implyParents name (ofNames (ns ++ [x])) ix = .ok ix') :
    (∀ ks, ks <+: ns → ix'.kind (ofNames ks) = .directory) ∧
    ∀ q, q ∈ ix'.paths ↔ q ∈ ix.paths ∨ ∃ ks, ks ≠ [] ∧ ks <+: ns ∧ q = ofNames ks := by
  have hns : ∀ n ∈ ns, IsName n := fun n hm => hn n (List.mem_append_left _ hm)
  rw [implyParents, parent?_ofNames_snoc (hn x (by simp)).1] at h
  by_cases h0 : ns = []
  · subst h0
    rw [if_pos rfl] at h
    obtain rfl := Except.ok.inj h
    refine ⟨fun ks hks => ?_, fun q => ⟨.inl, ?_⟩⟩
    · rw [List.prefix_nil.mp hks]
      rfl
    · rintro (hq | ⟨ks, h0, hks, -⟩)
      · exact hq
      · exact absurd (List.prefix_nil.mp hks) h0
  · rw [if_neg h0] at h
    dsimp only at h
    rw [components_ofNames fun n hm => (hns n hm).1, ← ofNames_nil] at h
    have hall : ∀ n ∈ [] ++ ns, IsName n := hns
    obtain ⟨hdirs, hmem⟩ := implyFrom_names hall h
    refine ⟨fun ks hks => ?_, hmem⟩
    by_cases h1 : ks = []
    · rw [h1]
      rfl
    · exact hdirs ks h1 hks

/-! ## One record -/

/-- A record takes a free path, or the path of a directory if it is one itself. -/
theorem adds_place {node : Node} (h0 : path ≠ "") (h : place name path node ix = .ok ix') :
    Adds ix ix' path node.kind := by
  rw [place] at h
  cases hf : ix.find? path with
  | none =>
      rw [hf] at h
      obtain rfl := Except.ok.inj h
      exact adds_push hf fun he => absurd he h0
  | some old =>
      rw [hf] at h
      dsimp only at h
      split at h
      · rename_i hd
        obtain ⟨hold, hnew⟩ := Bool.and_eq_true_iff.mp hd
        obtain rfl := Except.ok.inj h
        exact adds_replace hf (beq_iff_eq.mp hold) (beq_iff_eq.mp hnew)
      · cases h

theorem add_of_not_isUsable (hu : ¬ isUsable r = true) (name : String) (ix : Index) (i : Nat) :
    add name ix i r = .ok ix := by
  rw [add, if_neg hu]
  rfl

theorem add_of_isUsable (hu : isUsable r = true) {i : Nat} (h : add name ix i r = .ok ix') :
    ∃ ix₁, implyParents name (normalize r.path false) ix = .ok ix₁ ∧
      Adds ix₁ ix' (normalize r.path false) r.kind := by
  rw [add, if_pos hu] at h
  obtain ⟨ix₁, himply, hplace⟩ := bind_eq_ok.mp h
  exact ⟨ix₁, himply, adds_place (normalize_ne_empty hu) hplace⟩

theorem grows_add {i : Nat} (h : add name ix i r = .ok ix') : Grows ix ix' := by
  by_cases hu : isUsable r = true
  · obtain ⟨ix₁, himply, hadds⟩ := add_of_isUsable hu h
    exact (grows_implyParents himply).trans hadds.toGrows
  · rw [add_of_not_isUsable hu] at h
    obtain rfl := Except.ok.inj h
    exact .refl ix

/-- The record has its place in the index, and if its names are trimmed, directories lead there. -/
structure Holds (ix : Index) (r : Record) : Prop where
  kind : ix.kind (normalize r.path false) = r.kind
  ways : r.IsTrimmed → ∀ ns, ns <+: r.names → ns ≠ r.names → ix.kind (ofNames ns) = .directory

theorem Holds.exists? (h : Holds ix r) (hu : isUsable r = true) :
    (ix.kind (normalize r.path false)).exists? = true := by
  rw [h.kind]
  exact exists?_of_isUsable hu

theorem Holds.grow (h : Holds ix r) (hu : isUsable r = true) (hg : Grows ix ix') :
    Holds ix' r where
  kind := by rw [hg.kept _ (h.exists? hu), h.kind]
  ways ht ns hns hne := by
    have hd := h.ways ht ns hns hne
    rw [hg.kept _ (hd ▸ rfl), hd]

/-- The path of a usable record has a last name. -/
theorem exists_snoc (hu : isUsable r = true) : ∃ ns x, r.names = ns ++ [x] := by
  rcases List.eq_nil_or_concat' r.names with hnil | ⟨ns, x, hsnoc⟩
  · have := r.ofNames_names
    rw [hnil, ofNames_nil] at this
    exact absurd this.symm (normalize_ne_empty hu)
  · exact ⟨ns, x, hsnoc⟩

theorem holds_add (hu : isUsable r = true) {i : Nat} (h : add name ix i r = .ok ix') :
    Holds ix' r := by
  obtain ⟨ix₁, himply, hadds⟩ := add_of_isUsable hu h
  refine ⟨hadds.here, ?_⟩
  intro ht ns hns hne
  obtain ⟨ks, x, hsnoc⟩ := exists_snoc hu
  rw [← r.ofNames_names, hsnoc] at himply
  rw [hsnoc] at hns hne
  have hks := (List.prefix_concat_iff.mp hns).resolve_left hne
  have hd := (implyParents_snoc (hsnoc ▸ ht) himply).1 ns hks
  rw [hadds.kept _ (hd ▸ rfl), hd]

theorem mem_add (hu : isUsable r = true) (ht : r.IsTrimmed) {i : Nat}
    (h : add name ix i r = .ok ix') (q : String) :
    q ∈ ix'.paths ↔ q ∈ ix.paths ∨ r.LeadsThrough q := by
  obtain ⟨ix₁, himply, hadds⟩ := add_of_isUsable hu h
  obtain ⟨ks, x, hsnoc⟩ := exists_snoc hu
  rw [← r.ofNames_names] at himply hadds
  rw [Record.LeadsThrough]
  rw [Record.IsTrimmed] at ht
  rw [hsnoc] at himply hadds ht ⊢
  rw [hadds.mem, (implyParents_snoc ht himply).2, or_assoc]
  refine or_congr_right ⟨?_, ?_⟩
  · rintro (⟨ns, h0, hns, rfl⟩ | rfl)
    · exact ⟨ns, h0, hns.trans (List.prefix_append ks [x]), rfl⟩
    · exact ⟨ks ++ [x], by simp, List.prefix_rfl, rfl⟩
  · rintro ⟨ns, h0, hns, rfl⟩
    rcases List.prefix_concat_iff.mp hns with rfl | hns
    · exact .inr rfl
    · exact .inl ⟨ns, h0, hns, rfl⟩

/-! ## All records -/

theorem grows_addFrom {i : Nat} {rs : List Record} (h : addFrom name i rs ix = .ok ix') :
    Grows ix ix' := by
  induction rs generalizing i ix with
  | nil =>
      obtain rfl := Except.ok.inj h
      exact .refl ix
  | cons r rs ih =>
      obtain ⟨ix₁, hadd, hrest⟩ := bind_eq_ok.mp h
      exact (grows_add hadd).trans (ih hrest)

/-- Every record that is not skipped has its place, whatever the other records are. -/
theorem holds_addFrom {i : Nat} {rs : List Record} (h : addFrom name i rs ix = .ok ix') :
    ∀ r ∈ rs, isUsable r = true → Holds ix' r := by
  induction rs generalizing i ix with
  | nil => exact List.forall_mem_nil _
  | cons r rs ih =>
      obtain ⟨ix₁, hadd, hrest⟩ := bind_eq_ok.mp h
      refine List.forall_mem_cons.mpr ⟨fun hu => ?_, ih hrest⟩
      exact (holds_add hu hadd).grow hu (grows_addFrom hrest)

theorem mem_addFrom {i : Nat} {rs : List Record} (h : addFrom name i rs ix = .ok ix')
    (ht : ∀ r ∈ rs, isUsable r = true → r.IsTrimmed) (q : String) :
    q ∈ ix'.paths ↔ q ∈ ix.paths ∨ ∃ r ∈ rs, isUsable r = true ∧ r.LeadsThrough q := by
  induction rs generalizing i ix with
  | nil =>
      obtain rfl := Except.ok.inj h
      simp
  | cons r rs ih =>
      obtain ⟨ix₁, hadd, hrest⟩ := bind_eq_ok.mp h
      obtain ⟨hr, hrs⟩ := List.forall_mem_cons.mp ht
      rw [ih hrest hrs]
      by_cases hu : isUsable r = true
      · rw [mem_add hu (hr hu) hadd, or_assoc]
        simp [hu]
      · rw [add_of_not_isUsable hu] at hadd
        obtain rfl := Except.ok.inj hadd
        simp [hu]

end Index

end Strata.Archive
