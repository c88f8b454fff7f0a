/-
# `Strata.Proofs.Archive.Consistency` — which records make an archive, in any order

The records are added one after the other, and a conflict shows at the later of the two
records that it is between.  Which records conflict is a matter of the records alone,
though (`Consistent`): `Built` says what the index of a part of the records holds in
terms of these records, and on such an index the next record is refused exactly if it
conflicts with one before it (`fits_iff`).  A list of records is therefore accepted
exactly if it is consistent, in any order, and gives each path the same kind and each
file the same record.
-/
import Strata.Proofs.Archive.Reachable

namespace Strata.Archive

open Strata.Path Strata.Archive.Index

/-- The paths that are passed from `here` on, as one name after the other is joined. -/
def along : String → List String → List String
  | _, [] => []
  | here, n :: ns => join here n :: along (join here n) ns

namespace Record

/-- The directories that the path of the record implies. -/
def implied (r : Record) : List String := along "" r.names.dropLast

/-- The record is one of a file at this path. -/
def GivesFile (r : Record) (p : String) : Prop :=
  isUsable r = true ∧ r.kind = .file ∧ normalize r.path false = p

/-- The record is one of a directory at this path, or implies this directory. -/
def GivesDirectory (r : Record) (p : String) : Prop :=
  isUsable r = true ∧ (r.kind = .directory ∧ normalize r.path false = p ∨ p ∈ r.implied)

instance (r : Record) (p : String) : Decidable (r.GivesFile p) :=
  inferInstanceAs (Decidable (_ ∧ _ ∧ _))

instance (r : Record) (p : String) : Decidable (r.GivesDirectory p) :=
  inferInstanceAs (Decidable (_ ∧ (_ ∧ _ ∨ _)))

end Record

/-- The paths of the file records that are not skipped. -/
def filePaths (rs : List Record) : List String :=
  (rs.filter fun r => isUsable r && r.kind.isFile).map fun r => normalize r.path false

/-- No two file records have the same path, and no file is where a record has a directory. -/
structure Consistent (rs : List Record) : Prop where
  once : (filePaths rs).Nodup
  apart : ∀ p ∈ filePaths rs, ∀ r ∈ rs, ¬ r.GivesDirectory p

instance (rs : List Record) : Decidable (Consistent rs) :=
  decidable_of_iff ((filePaths rs).Nodup ∧ ∀ p ∈ filePaths rs, ∀ r ∈ rs, ¬ r.GivesDirectory p)
    ⟨fun h => ⟨h.1, h.2⟩, fun h => ⟨h.once, h.apart⟩⟩

/-- The record conflicts with none of these. -/
structure Joins (done : List Record) (r : Record) : Prop where
  directory : ∀ p, r.GivesDirectory p → ∀ f ∈ done, ¬ f.GivesFile p
  file : ∀ p, r.GivesFile p → ∀ f ∈ done, ¬ f.GivesFile p ∧ ¬ f.GivesDirectory p

variable {ix ix' : Index} {here name p : String} {cs ns : List String} {r : Record} {i : Nat}
  {done rs rs' : List Record}

/-! ## The directories that a path implies -/

/-- Joining names one by one makes no more names than there are. -/
theorem exists_of_mem_along {hs : List String} (hh : ∀ n ∈ hs, IsComponent n)
    (hn : ∀ n ∈ ns, IsComponent n) (h : p ∈ along (ofNames hs) ns) :
    ∃ ms, (∀ m ∈ ms, IsComponent m) ∧ p = ofNames ms ∧ ms.length ≤ hs.length + ns.length := by
  induction ns generalizing hs with
  | nil => exact absurd h List.not_mem_nil
  | cons n ns ih =>
      obtain ⟨hhead, htail⟩ := List.forall_mem_cons.mp hn
      have hjoin := join_eq_ofNames hh n
      have hc : ∀ m ∈ hs ++ components (normalize n false), IsComponent m :=
        List.forall_mem_append.mpr ⟨hh, fun _ => isComponent_of_mem⟩
      have hlen : (components (normalize n false)).length ≤ 1 := by
        rcases components_of_component hhead with hnil | ⟨m, -, hm⟩
        · rw [hnil]
          exact Nat.zero_le 1
        · rw [hm, List.length_singleton]
      rw [along, hjoin] at h
      rcases List.mem_cons.mp h with rfl | h
      · refine ⟨_, hc, rfl, ?_⟩
        rw [List.length_append, List.length_cons]
        omega
      · obtain ⟨ms, hms, hp, hle⟩ := ih hc htail h
        refine ⟨ms, hms, hp, ?_⟩
        rw [List.length_append] at hle
        rw [List.length_cons]
        omega

/-- No record implies a directory at its own path. -/
theorem Record.not_mem_implied (hu : isUsable r = true) : normalize r.path false ∉ r.implied := by
  intro h
  obtain ⟨ks, x, hsnoc⟩ := exists_snoc hu
  have hc : ∀ m ∈ r.names, IsComponent m := fun _ => Record.isComponent
  have hfront : ∀ n ∈ r.names.dropLast, IsComponent n :=
    fun n hn => hc n (List.dropLast_subset _ hn)
  rw [Record.implied, ← ofNames_nil] at h
  obtain ⟨ms, hms, hp, hle⟩ := exists_of_mem_along (List.forall_mem_nil _) hfront h
  rw [← r.ofNames_names] at hp
  have heq := ofNames_injective hc hms hp
  rw [← heq, hsnoc, List.dropLast_concat, List.length_append, List.length_singleton,
    List.length_nil] at hle
  omega

theorem Record.GivesFile.not_givesDirectory (h : r.GivesFile p) : ¬ r.GivesDirectory p := by
  obtain ⟨hu, hk, rfl⟩ := h
  rintro ⟨-, ⟨hd, -⟩ | himplied⟩
  · rw [hk] at hd
    cases hd
  · exact Record.not_mem_implied hu himplied

/-- Where the names are trimmed, the directories are those of the beginnings of the path. -/
theorem mem_along_names {hs : List String} (hn : ∀ n ∈ hs ++ ns, IsName n) :
    p ∈ along (ofNames hs) ns ↔ ∃ ks, ks ≠ [] ∧ ks <+: ns ∧ p = ofNames (hs ++ ks) := by
  induction ns generalizing hs with
  | nil =>
      refine ⟨fun h => absurd h List.not_mem_nil, ?_⟩
      rintro ⟨ks, h0, hks, -⟩
      exact absurd (List.prefix_nil.mp hks) h0
  | cons n ns ih =>
      rw [List.append_cons] at hn
      have hjoin : join (ofNames hs) n = ofNames (hs ++ [n]) :=
        join_ofNames_name (fun m hm => (hn m (by simp [hm])).1) (hn n (by simp))
      rw [along, hjoin, List.mem_cons, ih hn]
      constructor
      · rintro (rfl | ⟨ks, -, hks, rfl⟩)
        · exact ⟨[n], by simp, by simp, rfl⟩
        · exact ⟨n :: ks, by simp, by simpa using hks, by simp⟩
      · rintro ⟨ks, h0, hks, rfl⟩
        obtain ⟨k, ks, rfl⟩ := List.exists_cons_of_ne_nil h0
        obtain ⟨rfl, htail⟩ := List.cons_prefix_cons.mp hks
        by_cases h1 : ks = []
        · exact .inl (by rw [h1])
        · exact .inr ⟨ks, h1, htail, by simp⟩

/-- The path of a record with trimmed names leads through the directories that it implies, and to
the record. -/
theorem Record.leadsThrough_iff (hu : isUsable r = true) (ht : r.IsTrimmed) :
    r.LeadsThrough p ↔ p ∈ r.implied ∨ p = normalize r.path false := by
  obtain ⟨ks, x, hsnoc⟩ := exists_snoc hu
  rw [Record.IsTrimmed, hsnoc] at ht
  have hfront : ∀ n ∈ [] ++ ks, IsName n := fun n hn => ht n (List.mem_append_left _ hn)
  rw [Record.implied, hsnoc, List.dropLast_concat, ← ofNames_nil, mem_along_names hfront,
    ← r.ofNames_names, Record.LeadsThrough, hsnoc]
  constructor
  · rintro ⟨ns, h0, hns, rfl⟩
    rcases List.prefix_concat_iff.mp hns with rfl | hns
    · exact .inr rfl
    · exact .inl ⟨ns, h0, hns, rfl⟩
  · rintro (⟨ns, h0, hns, rfl⟩ | rfl)
    · exact ⟨ns, h0, hns.trans (List.prefix_append ks [x]), rfl⟩
    · exact ⟨ks ++ [x], by simp, List.prefix_rfl, rfl⟩

/-! ## Consistent records -/

theorem mem_filePaths : p ∈ filePaths rs ↔ ∃ r ∈ rs, r.GivesFile p := by
  simp [filePaths, Record.GivesFile, Kind.isFile, and_assoc]

theorem filePaths_snoc_of_givesFile (h : r.GivesFile p) :
    filePaths (done ++ [r]) = filePaths done ++ [p] := by
  obtain ⟨hu, hk, rfl⟩ := h
  simp [filePaths, hu, hk, Kind.isFile]

theorem filePaths_snoc_of_not_givesFile (h : ∀ p, ¬ r.GivesFile p) :
    filePaths (done ++ [r]) = filePaths done := by
  have hr : (isUsable r && r.kind.isFile) = false := by
    rw [Bool.eq_false_iff]
    intro ht
    obtain ⟨hu, hk⟩ := Bool.and_eq_true_iff.mp ht
    exact h _ ⟨hu, beq_iff_eq.mp hk, rfl⟩
  simp [filePaths, hr]

theorem Consistent.of_append (h : Consistent (done ++ rs)) : Consistent done where
  once := by
    have := h.once
    rw [filePaths, List.filter_append, List.map_append] at this
    exact (List.nodup_append.mp this).1
  apart p hp r hr := by
    obtain ⟨f, hf, hgives⟩ := mem_filePaths.mp hp
    have hall := mem_filePaths.mpr ⟨f, List.mem_append_left rs hf, hgives⟩
    exact h.apart p hall r (List.mem_append_left _ hr)

/-- One record more is consistent with those before it exactly if it conflicts with none. -/
theorem consistent_snoc : Consistent (done ++ [r]) ↔ Consistent done ∧ Joins done r := by
  constructor
  · intro h
    refine ⟨h.of_append, ?_, ?_⟩
    · intro p hp f hf hfile
      exact h.apart p (mem_filePaths.mpr ⟨f, List.mem_append_left _ hf, hfile⟩) r (by simp) hp
    · intro p hp f hf
      have hmem : p ∈ filePaths (done ++ [r]) := mem_filePaths.mpr ⟨r, by simp, hp⟩
      refine ⟨fun hfile => ?_, h.apart p hmem f (List.mem_append_left _ hf)⟩
      have honce := h.once
      rw [filePaths_snoc_of_givesFile hp] at honce
      exact (List.nodup_append.mp honce).2.2 p (mem_filePaths.mpr ⟨f, hf, hfile⟩) p
        (List.mem_singleton_self p) rfl
  · rintro ⟨hdone, hjoins⟩
    constructor
    · by_cases hfile : ∃ p, r.GivesFile p
      · obtain ⟨p, hp⟩ := hfile
        rw [filePaths_snoc_of_givesFile hp]
        refine List.nodup_append.mpr ⟨hdone.once, List.nodup_singleton p, ?_⟩
        rintro q hq q' hq' rfl
        obtain ⟨f, hf, hgives⟩ := mem_filePaths.mp hq
        rw [List.mem_singleton.mp hq'] at hgives
        exact (hjoins.file p hp f hf).1 hgives
      · rw [filePaths_snoc_of_not_givesFile (not_exists.mp hfile)]
        exact hdone.once
    · intro p hp d hd
      obtain ⟨f, hf, hfile⟩ := mem_filePaths.mp hp
      rcases List.mem_append.mp hf with hf | hf
      · rcases List.mem_append.mp hd with hd | hd
        · exact hdone.apart p (mem_filePaths.mpr ⟨f, hf, hfile⟩) d hd
        · rw [List.mem_singleton.mp hd]
          exact fun hdir => hjoins.directory p hdir f hf hfile
      · rw [List.mem_singleton.mp hf] at hfile
        rcases List.mem_append.mp hd with hd | hd
        · exact (hjoins.file p hfile d hd).2
        · rw [List.mem_singleton.mp hd]
          exact hfile.not_givesDirectory

theorem Consistent.perm (h : Consistent rs) (hp : rs.Perm rs') : Consistent rs' where
  once := ((hp.filter _).map _).nodup_iff.mp h.once
  apart p hmem r hr :=
    h.apart p (((hp.filter _).map _).mem_iff.mpr hmem) r (hp.mem_iff.mpr hr)

/-! ## One record more in the index -/

namespace Index

theorem implyParents_eq (hu : isUsable r = true) :
    implyParents name (normalize r.path false) ix = implyFrom name "" r.names.dropLast ix := by
  obtain ⟨ns, x, hsnoc⟩ := exists_snoc hu
  have hc : ∀ m ∈ ns ++ [x], IsComponent m := fun m hm => Record.isComponent (hsnoc ▸ hm)
  rw [implyParents, ← r.ofNames_names, hsnoc, parent?_ofNames_snoc (hc x (by simp)),
    List.dropLast_concat]
  by_cases h0 : ns = []
  · rw [if_pos h0, h0]
    rfl
  · rw [if_neg h0]
    show implyFrom name "" (components (ofNames ns)) ix = _
    rw [components_ofNames fun m hm => hc m (List.mem_append_left _ hm)]

/-- The way is free exactly if what is on it already are directories. -/
theorem implyFrom_isOk_iff : (∃ ix', implyFrom name here cs ix = .ok ix') ↔
    ∀ p ∈ along here cs, ∀ node, ix.find? p = some node → node.kind = .directory := by
  induction cs generalizing here ix with
  | nil => exact ⟨fun _ => List.forall_mem_nil _, fun _ => ⟨ix, rfl⟩⟩
  | cons c cs ih =>
      rw [along, List.forall_mem_cons, implyFrom]
      cases hf : ix.find? (join here c) with
      | none =>
          show (∃ ix', implyFrom name (join here c) cs _ = .ok ix') ↔ _
          rw [ih]
          constructor
          · refine fun h => ⟨fun node hn => absurd hn (by simp), fun p hp node hn => ?_⟩
            refine h p hp node ?_
            have hne : p ≠ join here c := by
              rintro rfl
              rw [hf] at hn
              cases hn
            rw [find?_push hf, if_neg hne]
            exact hn
          · rintro ⟨-, h⟩ p hp node hn
            rw [find?_push hf] at hn
            by_cases he : p = join here c
            · rw [if_pos he] at hn
              obtain rfl := Option.some.inj hn
              rfl
            · rw [if_neg he] at hn
              exact h p hp node hn
      | some there =>
          by_cases hd : there.kind.isDirectory = true
          · dsimp only
            rw [if_pos hd, ih]
            refine ⟨fun h => ⟨fun node hn => ?_, h⟩, fun h => h.2⟩
            rw [← Option.some.inj hn]
            exact beq_iff_eq.mp hd
          · dsimp only
            rw [if_neg hd]
            refine ⟨fun h => h.elim fun _ hx => (by cases hx), fun h => ?_⟩
            exact absurd (beq_iff_eq.mpr (h.1 there rfl)) hd

/-- What is on the way stays, and the rest of the way are implied directories. -/
theorem find?_implyFrom (h : implyFrom name here cs ix = .ok ix') (q : String) :
    ix'.find? q = (ix.find? q).or (if q ∈ along here cs then some .implied else none) := by
  induction cs generalizing here ix with
  | nil =>
      obtain rfl := Except.ok.inj h
      rw [along, if_neg List.not_mem_nil, Option.or_none]
  | cons c cs ih =>
      rw [implyFrom] at h
      cases hf : ix.find? (join here c) with
      | none =>
          rw [hf] at h
          rw [ih h, find?_push hf, along]
          by_cases hq : q = join here c
          · rw [if_pos hq, hq, hf, if_pos List.mem_cons_self]
            rfl
          · simp only [List.mem_cons, hq, false_or, if_false]
      | some there =>
          rw [hf] at h
          dsimp only at h
          split at h
          · rw [ih h, along]
            by_cases hq : q = join here c
            · rw [hq, hf]
              rfl
            · simp only [List.mem_cons, hq, false_or]
          · cases h

theorem place_isOk_iff {node : Node} : (∃ ix', place name p node ix = .ok ix') ↔
    ∀ there, ix.find? p = some there → there.kind = .directory ∧ node.kind = .directory := by
  rw [place]
  cases hf : ix.find? p with
  | none => exact ⟨fun _ there hn => (by cases hn), fun _ => ⟨_, rfl⟩⟩
  | some there =>
      dsimp only
      by_cases hd : (there.kind.isDirectory && node.kind.isDirectory) = true
      · rw [if_pos hd]
        refine ⟨fun _ there' hn => ?_, fun _ => ⟨_, rfl⟩⟩
        obtain rfl := Option.some.inj hn
        exact (Bool.and_eq_true_iff.mp hd).imp beq_iff_eq.mp beq_iff_eq.mp
      · rw [if_neg hd]
        refine ⟨fun h => h.elim fun _ hx => (by cases hx), fun h => absurd ?_ hd⟩
        exact Bool.and_eq_true_iff.mpr ((h there rfl).imp beq_iff_eq.mpr beq_iff_eq.mpr)

theorem find?_place {node : Node} (h : place name p node ix = .ok ix') (q : String) :
    ix'.find? q = if q = p then some node else ix.find? q := by
  rw [place] at h
  cases hf : ix.find? p with
  | none =>
      rw [hf] at h
      obtain rfl := Except.ok.inj h
      exact find?_push hf node q
  | some there =>
      rw [hf] at h
      dsimp only at h
      split at h
      · obtain rfl := Except.ok.inj h
        rw [find?_replace, hf]
        rfl
      · cases h

/-- There is a place for the record: what is on its way are directories, and its own path is free,
or there is a directory and the record is one of a directory. -/
structure Fits (ix : Index) (r : Record) : Prop where
  way : ∀ p ∈ r.implied, ∀ node, ix.find? p = some node → node.kind = .directory
  path : ∀ node, ix.find? (normalize r.path false) = some node →
    node.kind = .directory ∧ r.kind = .directory

theorem find?_implied (hu : isUsable r = true) {ix₁ : Index}
    (h : implyFrom name "" r.names.dropLast ix = .ok ix₁) :
    ix₁.find? (normalize r.path false) = ix.find? (normalize r.path false) := by
  have hout := Record.not_mem_implied hu
  rw [Record.implied] at hout
  rw [find?_implyFrom h, if_neg hout, Option.or_none]

theorem add_isOk_iff (hu : isUsable r = true) :
    (∃ ix', add name ix i r = .ok ix') ↔ Fits ix r := by
  rw [add, if_pos hu]
  show (∃ ix', (implyParents name (normalize r.path false) ix >>= fun ix₁ =>
    place name (normalize r.path false) (.ofRecord i r) ix₁) = .ok ix') ↔ _
  rw [implyParents_eq hu]
  constructor
  · rintro ⟨ix', h⟩
    obtain ⟨ix₁, himply, hplace⟩ := bind_eq_ok.mp h
    refine ⟨implyFrom_isOk_iff.mp ⟨ix₁, himply⟩, fun node hn => ?_⟩
    rw [← find?_implied hu himply] at hn
    exact place_isOk_iff.mp ⟨ix', hplace⟩ node hn
  · rintro ⟨hway, hpath⟩
    obtain ⟨ix₁, himply⟩ := implyFrom_isOk_iff.mpr hway
    have hfree : ∀ there, ix₁.find? (normalize r.path false) = some there →
        there.kind = .directory ∧ (Node.ofRecord i r).kind = .directory := by
      rw [find?_implied hu himply]
      exact hpath
    obtain ⟨ix', hplace⟩ := place_isOk_iff.mpr hfree
    exact ⟨ix', bind_eq_ok.mpr ⟨ix₁, himply, hplace⟩⟩

theorem find?_add (hu : isUsable r = true) (h : add name ix i r = .ok ix') (q : String) :
    ix'.find? q = if q = normalize r.path false then some (.ofRecord i r)
      else (ix.find? q).or (if q ∈ r.implied then some .implied else none) := by
  rw [add, if_pos hu] at h
  obtain ⟨ix₁, himply, hplace⟩ := bind_eq_ok.mp h
  rw [implyParents_eq hu] at himply
  rw [find?_place hplace, find?_implyFrom himply]
  rfl

/-! ## The index of the records so far -/

theorem exists_getElem?_snoc {P : Nat → Record → Prop} :
    (∃ i f, (done ++ [r])[i]? = some f ∧ P i f) ↔
      (∃ i f, done[i]? = some f ∧ P i f) ∨ P done.length r := by
  constructor
  · rintro ⟨i, f, hi, hP⟩
    rcases Nat.lt_trichotomy i done.length with hlt | rfl | hgt
    · rw [List.getElem?_append_left hlt] at hi
      exact .inl ⟨i, f, hi, hP⟩
    · rw [List.getElem?_concat_length] at hi
      obtain rfl := Option.some.inj hi
      exact .inr hP
    · rw [List.getElem?_eq_none (by simp; omega)] at hi
      cases hi
  · rintro (⟨i, f, hi, hP⟩ | hP)
    · refine ⟨i, f, ?_, hP⟩
      rwa [List.getElem?_append_left (List.getElem?_eq_some_iff.mp hi).1]
    · exact ⟨done.length, r, List.getElem?_concat_length, hP⟩

theorem exists_mem_snoc {P : Record → Prop} :
    (∃ f ∈ done ++ [r], P f) ↔ (∃ f ∈ done, P f) ∨ P r := by
  simp only [List.mem_append, List.mem_singleton, or_and_right, exists_or, exists_eq_left]

/-- What the index holds in terms of the records that are in it. -/
structure Built (done : List Record) (ix : Index) : Prop where
  file : ∀ p node, ix.find? p = some node ∧ node.kind = .file ↔
    ∃ i r, done[i]? = some r ∧ r.GivesFile p ∧ node = .ofRecord i r
  directory : ∀ p, (∃ node, ix.find? p = some node ∧ node.kind = .directory) ↔
    ∃ r ∈ done, r.GivesDirectory p
  known : ∀ p node, ix.find? p = some node → node.kind = .directory ∨ node.kind = .file

theorem built_empty : Built [] empty where
  file p node := by simp [find?, empty]
  directory p := by simp [find?, empty]
  known p node h := by cases h

namespace Built

theorem not_givesFile (h : Built done ix) (hnode : ∀ node, ix.find? p = some node →
    node.kind = .directory) : ∀ f ∈ done, ¬ f.GivesFile p := by
  intro f hf hfile
  obtain ⟨i, hi⟩ := List.mem_iff_getElem?.mp hf
  obtain ⟨hfind, hk⟩ := (h.file p _).mpr ⟨i, f, hi, hfile, rfl⟩
  rw [hnode _ hfind] at hk
  cases hk

theorem kind_directory (h : Built done ix) (hfile : ∀ f ∈ done, ¬ f.GivesFile p) {node : Node}
    (hn : ix.find? p = some node) : node.kind = .directory := by
  refine (h.known p node hn).resolve_right fun hk => ?_
  obtain ⟨i, f, hi, hgives, -⟩ := (h.file p node).mp ⟨hn, hk⟩
  exact hfile f (List.mem_of_getElem? hi) hgives

theorem find?_eq_none (h : Built done ix)
    (hfree : ∀ f ∈ done, ¬ f.GivesFile p ∧ ¬ f.GivesDirectory p) : ix.find? p = none := by
  cases hn : ix.find? p with
  | none => rfl
  | some node =>
      have hk := h.kind_directory (fun f hf => (hfree f hf).1) hn
      obtain ⟨f, hf, hgives⟩ := (h.directory p).mp ⟨node, hn, hk⟩
      exact absurd hgives (hfree f hf).2

/-- A record has a place exactly if it conflicts with none of those in the index. -/
theorem fits_iff (h : Built done ix) (hu : isUsable r = true) : Fits ix r ↔ Joins done r := by
  constructor
  · rintro ⟨hway, hpath⟩
    constructor
    · rintro p ⟨-, ⟨-, rfl⟩ | hp⟩
      · exact h.not_givesFile fun node hn => (hpath node hn).1
      · exact h.not_givesFile (hway p hp)
    · rintro p ⟨-, hk, rfl⟩ f hf
      have hfree : ∀ node, ix.find? (normalize r.path false) ≠ some node := by
        intro node hn
        have := (hpath node hn).2
        rw [hk] at this
        cases this
      refine ⟨h.not_givesFile (fun node hn => absurd hn (hfree node)) f hf, fun hdir => ?_⟩
      obtain ⟨node, hn, -⟩ := (h.directory _).mpr ⟨f, hf, hdir⟩
      exact hfree node hn
  · rintro ⟨hdirectory, hfile⟩
    constructor
    · exact fun p hp node hn => h.kind_directory (hdirectory p ⟨hu, .inr hp⟩) hn
    · intro node hn
      have hk := exists?_of_isUsable hu
      cases hkind : r.kind with
      | unknown =>
          rw [hkind] at hk
          cases hk
      | file =>
          rw [h.find?_eq_none (hfile _ ⟨hu, hkind, rfl⟩)] at hn
          cases hn
      | directory => exact ⟨h.kind_directory (hdirectory _ ⟨hu, .inl ⟨hkind, rfl⟩⟩) hn, rfl⟩

theorem skip (h : Built done ix) (hu : ¬ isUsable r = true) : Built (done ++ [r]) ix where
  file p node := by
    rw [h.file, exists_getElem?_snoc]
    exact ⟨.inl, fun hor => hor.resolve_right fun hr => hu hr.1.1⟩
  directory p := by
    rw [h.directory, exists_mem_snoc]
    exact ⟨.inl, fun hor => hor.resolve_right fun hr => hu hr.1⟩
  known := h.known

/-- A record that is not skipped adds itself and the directories that it implies. -/
theorem add (h : Built done ix) (hu : isUsable r = true)
    (hadd : Index.add name ix done.length r = .ok ix') : Built (done ++ [r]) ix' := by
  have hfits : Fits ix r := (add_isOk_iff hu).mp ⟨ix', hadd⟩
  have hjoins := (h.fits_iff hu).mp hfits
  have hfind := find?_add hu hadd
  constructor
  · intro p node
    rw [exists_getElem?_snoc, ← h.file, hfind]
    by_cases hp : p = normalize r.path false
    · subst hp
      rw [if_pos rfl]
      constructor
      · rintro ⟨hn, hk⟩
        obtain rfl := Option.some.inj hn
        exact .inr ⟨⟨hu, hk, rfl⟩, rfl⟩
      · rintro (⟨hn, hk⟩ | ⟨hfile, rfl⟩)
        · rw [(hfits.path node hn).1] at hk
          cases hk
        · exact ⟨rfl, hfile.2.1⟩
    · rw [if_neg hp]
      have hout : ¬ r.GivesFile p := fun hfile => hp hfile.2.2.symm
      cases hn : ix.find? p with
      | some there => exact ⟨.inl, fun hor => hor.resolve_right fun hr => hout hr.1⟩
      | none =>
          constructor
          · rintro ⟨hi, hk⟩
            split at hi
            · obtain rfl := Option.some.inj hi
              cases hk
            · cases hi
          · rintro (⟨hi, -⟩ | ⟨hfile, -⟩)
            · cases hi
            · exact absurd hfile hout
  · intro p
    rw [exists_mem_snoc, ← h.directory, hfind]
    by_cases hp : p = normalize r.path false
    · subst hp
      rw [if_pos rfl]
      constructor
      · rintro ⟨node, hn, hk⟩
        obtain rfl := Option.some.inj hn
        exact .inr ⟨hu, .inl ⟨hk, rfl⟩⟩
      · rintro (⟨node, hn, -⟩ | ⟨-, ⟨hk, -⟩ | himplied⟩)
        · exact ⟨_, rfl, (hfits.path node hn).2⟩
        · exact ⟨_, rfl, hk⟩
        · exact absurd himplied (Record.not_mem_implied hu)
    · rw [if_neg hp]
      have hgives : r.GivesDirectory p ↔ p ∈ r.implied :=
        ⟨fun hd => hd.2.resolve_left fun hpath => hp hpath.2.symm, fun hd => ⟨hu, .inr hd⟩⟩
      rw [hgives]
      cases hn : ix.find? p with
      | some there =>
          refine ⟨.inl, fun hor => hor.elim id fun himplied => ?_⟩
          exact ⟨there, rfl, hfits.way p himplied there hn⟩
      | none =>
          constructor
          · rintro ⟨node, hi, -⟩
            split at hi
            · rename_i himplied
              exact .inr himplied
            · cases hi
          · rintro (⟨node, hi, -⟩ | himplied)
            · cases hi
            · exact ⟨.implied, by rw [if_pos himplied]; rfl, rfl⟩
  · intro p node hn
    rw [hfind] at hn
    split at hn
    · obtain rfl := Option.some.inj hn
      have hk := exists?_of_isUsable hu
      show r.kind = .directory ∨ r.kind = .file
      cases hkind : r.kind with
      | unknown =>
          rw [hkind] at hk
          cases hk
      | directory => exact .inl rfl
      | file => exact .inr rfl
    · rcases Option.or_eq_some_iff.mp hn with hn | ⟨-, hn⟩
      · exact h.known p node hn
      · split at hn
        · obtain rfl := Option.some.inj hn
          exact .inl rfl
        · cases hn

theorem exists_file_iff (h : Built done ix) :
    (∃ node, ix.find? p = some node ∧ node.kind = .file) ↔ ∃ f ∈ done, f.GivesFile p := by
  constructor
  · rintro ⟨node, hnode⟩
    obtain ⟨i, f, hi, hgives, -⟩ := (h.file p node).mp hnode
    exact ⟨f, List.mem_of_getElem? hi, hgives⟩
  · rintro ⟨f, hf, hgives⟩
    obtain ⟨i, hi⟩ := List.mem_iff_getElem?.mp hf
    exact ⟨_, (h.file p _).mpr ⟨i, f, hi, hgives, rfl⟩⟩

/-- The kinds of what is at the paths are a matter of which records there are. -/
theorem map_kind_eq (h : Built rs ix) (h' : Built rs' ix') (hp : ∀ r, r ∈ rs ↔ r ∈ rs') :
    (ix.find? p).map Node.kind = (ix'.find? p).map Node.kind := by
  refine Option.ext fun k => ?_
  rw [Option.map_eq_some_iff, Option.map_eq_some_iff]
  cases k with
  | file => simp only [h.exists_file_iff, h'.exists_file_iff, hp]
  | directory => simp only [h.directory, h'.directory, hp]
  | unknown =>
      constructor
      · rintro ⟨node, hn, hk⟩
        rcases h.known p node hn with hd | hf
        · rw [hd] at hk; cases hk
        · rw [hf] at hk; cases hk
      · rintro ⟨node, hn, hk⟩
        rcases h'.known p node hn with hd | hf
        · rw [hd] at hk; cases hk
        · rw [hf] at hk; cases hk

end Built

theorem built_add (h : Built done ix) (hadd : add name ix done.length r = .ok ix') :
    Built (done ++ [r]) ix' := by
  by_cases hu : isUsable r = true
  · exact h.add hu hadd
  · rw [add_of_not_isUsable hu] at hadd
    obtain rfl := Except.ok.inj hadd
    exact h.skip hu

/-- The next record is refused exactly if it conflicts with one before it. -/
theorem add_isOk_iff_consistent (h : Built done ix) (hc : Consistent done) :
    (∃ ix', add name ix i r = .ok ix') ↔ Consistent (done ++ [r]) := by
  rw [consistent_snoc]
  by_cases hu : isUsable r = true
  · rw [add_isOk_iff hu, h.fits_iff hu]
    exact ⟨fun hjoins => ⟨hc, hjoins⟩, fun hboth => hboth.2⟩
  · refine ⟨fun _ => ⟨hc, ?_, ?_⟩, fun _ => ⟨ix, add_of_not_isUsable hu name ix i⟩⟩
    · exact fun p hp => absurd hp.1 hu
    · exact fun p hp => absurd hp.1 hu

theorem built_addFrom (h : Built done ix) (hadd : addFrom name done.length rs ix = .ok ix') :
    Built (done ++ rs) ix' := by
  induction rs generalizing done ix with
  | nil =>
      obtain rfl := Except.ok.inj hadd
      rwa [List.append_nil]
  | cons r rs ih =>
      obtain ⟨ix₁, hr, hrest⟩ := bind_eq_ok.mp hadd
      have hlen : done.length + 1 = (done ++ [r]).length := by simp
      rw [hlen] at hrest
      rw [List.append_cons]
      exact ih (built_add h hr) hrest

theorem addFrom_isOk_iff (h : Built done ix) (hc : Consistent done) :
    (∃ ix', addFrom name done.length rs ix = .ok ix') ↔ Consistent (done ++ rs) := by
  induction rs generalizing done ix with
  | nil =>
      rw [List.append_nil]
      exact ⟨fun _ => hc, fun _ => ⟨ix, rfl⟩⟩
  | cons r rs ih =>
      have hlen : done.length + 1 = (done ++ [r]).length := by simp
      rw [List.append_cons]
      constructor
      · rintro ⟨ix', hadd⟩
        obtain ⟨ix₁, hr, hrest⟩ := bind_eq_ok.mp hadd
        have hc₁ := (add_isOk_iff_consistent h hc).mp ⟨ix₁, hr⟩
        rw [hlen] at hrest
        exact (ih (built_add h hr) hc₁).mp ⟨ix', hrest⟩
      · intro hall
        have hfirst : ∃ ix₁, Index.add name ix done.length r = .ok ix₁ :=
          (add_isOk_iff_consistent h hc).mpr hall.of_append
        obtain ⟨ix₁, hr⟩ := hfirst
        obtain ⟨ix', hrest⟩ := (ih (built_add h hr) hall.of_append).mpr hall
        rw [← hlen] at hrest
        exact ⟨ix', bind_eq_ok.mpr ⟨ix₁, hr, hrest⟩⟩

theorem ofRecords_isOk_iff : (∃ ix, ofRecords name rs = .ok ix) ↔ Consistent rs := by
  have hnone : Consistent [] := ⟨List.nodup_nil, List.forall_mem_nil _⟩
  exact addFrom_isOk_iff built_empty hnone

theorem built_ofRecords (h : ofRecords name rs = .ok ix) : Built rs ix :=
  built_addFrom built_empty h

end Index

/-! ## Every archive -/

variable {reader reader' : Reader}

theorem ofReader_isOk_iff (hr : reader.records = .ok rs) :
    (∃ a, ofReader name reader = .ok a) ↔ Consistent rs := by
  have hindex : (∃ ix, Index.ofRecords name rs = .ok ix) ↔ Consistent rs := ofRecords_isOk_iff
  rw [← hindex]
  constructor
  · rintro ⟨a, h⟩
    exact ⟨a.index, index_of_ofReader hr h⟩
  · rintro ⟨ix, h⟩
    exact ⟨_, (ofReader_eq_ok hr).mpr h⟩

theorem built_ofReader {a : Archive} (hr : reader.records = .ok rs)
    (h : ofReader name reader = .ok a) : Built rs a.index :=
  built_ofRecords (index_of_ofReader hr h)

/-- Records are accepted exactly if they are consistent, in any order.  In any order the same paths
are in the index, with the same kinds, and the node of a file is that of the same record. -/
theorem ofReader_perm (hr : reader.records = .ok rs) (hr' : reader'.records = .ok rs')
    (hp : rs.Perm rs') (name : String) :
    ((∃ a, ofReader name reader = .ok a) ↔ Consistent rs) ∧
    ((∃ a, ofReader name reader = .ok a) ↔ ∃ a, ofReader name reader' = .ok a) ∧
    ∀ a a', ofReader name reader = .ok a → ofReader name reader' = .ok a' → ∀ p,
      (p ∈ a.index.paths ↔ p ∈ a'.index.paths) ∧ a.kind p = a'.kind p ∧
      (a.kind p = .file → ∃ r i i', r.GivesFile p ∧ rs[i]? = some r ∧ rs'[i']? = some r ∧
        a.index.find? p = some (.ofRecord i r) ∧ a'.index.find? p = some (.ofRecord i' r)) := by
  refine ⟨ofReader_isOk_iff hr, ?_, ?_⟩
  · rw [ofReader_isOk_iff hr, ofReader_isOk_iff hr']
    exact ⟨fun h => h.perm hp, fun h => h.perm hp.symm⟩
  intro a a' ha ha' p
  have hb := built_ofReader hr ha
  have hb' := built_ofReader hr' ha'
  have hkinds := hb.map_kind_eq (p := p) hb' fun r => hp.mem_iff
  refine ⟨?_, ?_, ?_⟩
  · rw [mem_paths, mem_paths, ← Option.isSome_map, hkinds, Option.isSome_map]
  · by_cases h0 : p = ""
    · rw [h0]
      rfl
    · show a.index.kind p = a'.index.kind p
      rw [kind_of_ne_empty h0, kind_of_ne_empty h0, hkinds]
  · intro hk
    have h0 : p ≠ "" := by
      rintro rfl
      cases hk
    rw [show a.kind p = a.index.kind p from rfl, kind_of_ne_empty h0] at hk
    cases hn : a.index.find? p with
    | none =>
        rw [hn] at hk
        cases hk
    | some node =>
        rw [hn] at hk
        obtain ⟨i, r, hi, hgives, rfl⟩ := (hb.file p node).mp ⟨hn, hk⟩
        obtain ⟨i', hi'⟩ := List.mem_iff_getElem?.mp (hp.mem_iff.mp (List.mem_of_getElem? hi))
        have hn' := ((hb'.file p _).mpr ⟨i', r, hi', hgives, rfl⟩).1
        exact ⟨r, i, i', hgives, hi, hi', rfl, hn'⟩

/-- The record of a directory comes after a file in it, and before. -/
theorem ofReader_perm_directory_late :
    let file : Record := ⟨"a/b", .file, 1, none, none⟩
    let directory : Record := ⟨"/a/", .directory, 0, none, none⟩
    let reader : Reader := ⟨.ok [file, directory], fun _ => .ok [1]⟩
    let reader' : Reader := ⟨.ok [directory, file], fun _ => .ok [1]⟩
    ∃ a a', ofReader "archive" reader = .ok a ∧ ofReader "archive" reader' = .ok a' ∧
      ("a" ∈ a.index.paths ↔ "a" ∈ a'.index.paths) ∧ a.kind "a/b" = a'.kind "a/b" := by
  intro file directory reader reader'
  have hr : reader.records = .ok [file, directory] := rfl
  have hr' : reader'.records = .ok [directory, file] := rfl
  have hconsistent : Consistent [file, directory] := by decide +kernel
  obtain ⟨haccept, hboth, hsame⟩ := ofReader_perm hr hr' (.swap directory file []) "archive"
  obtain ⟨a, ha⟩ := haccept.mpr hconsistent
  obtain ⟨a', ha'⟩ := hboth.mp ⟨a, ha⟩
  exact ⟨a, a', ha, ha', (hsame a a' ha ha' "a").1, (hsame a a' ha ha' "a/b").2.1⟩

end Strata.Archive
