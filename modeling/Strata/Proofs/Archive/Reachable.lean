/-
# `Strata.Proofs.Archive.Reachable` — from the root of an archive to its records

A record is found under its own path exactly if the names of the path are trimmed, and
then listing leads to it, too; this does not depend on the other records.  Where all
records are so, listing leads to them and to the directories on their way, and nowhere
else.
-/
import Mathlib.Data.List.Nodup
import Strata.Proofs.Archive.Index

namespace Strata.Archive

open Strata.Path Strata.Archive.Index

variable {a : Archive} {name : String} {reader : Reader} {records : List Record} {r : Record}
  {path : String} {ns : List String}

theorem ofReader_eq_ok (hr : reader.records = .ok records) {ix : Index} :
    ofReader name reader = .ok ⟨name, ix, reader.extract⟩ ↔
      Index.ofRecords name records = .ok ix := by
  rw [ofReader, hr]
  show (Index.ofRecords name records >>= _) = _ ↔ _
  rw [bind_eq_ok]
  constructor
  · rintro ⟨ix', hix, h⟩
    cases h
    exact hix
  · intro hix
    exact ⟨ix, hix, rfl⟩

theorem index_of_ofReader (hr : reader.records = .ok records)
    (h : ofReader name reader = .ok a) : addFrom name 0 records empty = .ok a.index := by
  have hparts := h
  rw [ofReader, hr] at hparts
  obtain ⟨ix, hix, ha⟩ := bind_eq_ok.mp (show (Index.ofRecords name records >>= _) = _ from hparts)
  obtain rfl := Except.ok.inj ha
  exact hix

/-! ## Looking a record up -/

theorem child_of_isUsable (hu : isUsable r = true) :
    a.child "" r.path = Lookup.descend (fun p => .ok (a.kind p)) (ofNames []) r.names := by
  simp [Archive.child, Lookup.child, normalize_ne_empty hu, Record.names, ofNames_nil]

theorem child_of_holds (h : Holds a.index r) (hu : isUsable r = true) (ht : r.IsTrimmed) :
    a.child "" r.path = .ok (some (normalize r.path false)) := by
  have hkind : a.outline.kind = a.index.kind := rfl
  have hdirs : ∀ ks, ks <+: r.names → ks ≠ r.names →
      a.outline.kind (ofNames ([] ++ ks)) = .directory := by
    intro ks hks hne
    rw [List.nil_append, hkind]
    exact h.ways ht ks hks hne
  have hhere : (a.outline.kind (ofNames ([] ++ r.names))).exists? = true := by
    rw [List.nil_append, r.ofNames_names, hkind]
    exact h.exists? hu
  have hnames : ∀ n ∈ [] ++ r.names, IsName n := by
    rw [List.nil_append]
    exact ht
  have harrive := Outline.descend_of_directories hnames hdirs hhere
  rw [List.nil_append, r.ofNames_names] at harrive
  rw [child_of_isUsable hu]
  exact harrive

/-- What is found has trimmed names. -/
theorem isTrimmed_of_child (hu : isUsable r = true)
    (h : a.child "" r.path = .ok (some (normalize r.path false))) : r.IsTrimmed := by
  rw [child_of_isUsable hu] at h
  obtain ⟨ms, hms, heq⟩ := Outline.isName_of_descend (List.forall_mem_nil IsName)
    (fun c hc => Record.isComponent hc) h
  rw [Record.IsTrimmed, Record.names, heq, components_ofNames fun m hm => (hms m hm).1]
  exact hms

/-! ## Listing -/

theorem children_eq (hd : a.kind path = .directory) :
    a.children path = .ok (a.index.childPaths path) := by
  rw [Archive.children, hd]
  rfl

/-- A directory lists what is in it once. -/
theorem count_childPaths {ix : Index} (hnd : ix.paths.Nodup) (hp : path ∈ ix.paths) :
    (ix.childPaths (parentOrRoot path)).count path = 1 :=
  List.count_eq_one_of_mem (hnd.filter _) (List.mem_filter.mpr ⟨hp, by simp⟩)

/-- The paths that listing after listing leads to, from the root on. -/
inductive Listed (a : Archive) : String → Prop
  | root : Listed a ""
  | child {path p : String} {ps : List String} :
      Listed a path → a.children path = .ok ps → p ∈ ps → Listed a p

/-- What is on the way to a record is there, and it is a directory if it is not the record. -/
theorem kind_of_holds (h : Holds a.index r) (hu : isUsable r = true) (ht : r.IsTrimmed)
    (hns : ns <+: r.names) :
    (a.kind (ofNames ns)).exists? = true ∧ (ns ≠ r.names → a.kind (ofNames ns) = .directory) := by
  by_cases hne : ns = r.names
  · refine ⟨?_, fun hn => absurd hne hn⟩
    rw [hne, r.ofNames_names]
    exact h.exists? hu
  · have hd : a.kind (ofNames ns) = .directory := h.ways ht ns hns hne
    exact ⟨hd ▸ rfl, fun _ => hd⟩

theorem listed_of_holds (h : Holds a.index r) (hu : isUsable r = true) (ht : r.IsTrimmed)
    (hns : ns <+: r.names) : Listed a (ofNames ns) := by
  induction ns using List.reverseRecOn with
  | nil => exact .root
  | append_singleton ns n ih =>
      have hfront : ns <+: r.names := (List.prefix_append ns [n]).trans hns
      have hne : ns ≠ r.names := by
        intro he
        have := hns.length_le
        rw [he, List.length_append, List.length_singleton] at this
        omega
      have hc : ∀ m ∈ ns ++ [n], IsComponent m := fun m hm => Record.isComponent (hns.subset hm)
      have hmem : ofNames (ns ++ [n]) ∈ a.index.paths :=
        mem_paths_of_exists (by simp [ofNames_eq_empty hc]) (kind_of_holds h hu ht hns).1
      have hd := (kind_of_holds h hu ht hfront).2 hne
      refine .child (ih hfront) (children_eq hd) (List.mem_filter.mpr ⟨hmem, ?_⟩)
      rw [parentOrRoot_ofNames_snoc (hc n (by simp)), beq_self_eq_true]

theorem mem_paths_of_listed {p : String} (h : Listed a p) : p = "" ∨ p ∈ a.index.paths := by
  cases h with
  | root => exact .inl rfl
  | child _ hchildren hp =>
      rw [Archive.children] at hchildren
      split at hchildren
      · obtain rfl := Except.ok.inj hchildren
        exact .inr (List.mem_filter.mp hp).1
      · cases hchildren

/-! ## Every archive -/

/-- Every record that is not skipped has its place, of its kind.  It is found under its own path
exactly if the names of the path are trimmed; then its directory lists it once, and it and the
directories on its way are reached by listing from the root on.  If the names of all records are
trimmed, nothing else is reached. -/
theorem records_reachable (hr : reader.records = .ok records) (h : ofReader name reader = .ok a) :
    (∀ r ∈ records, isUsable r = true →
      a.kind (normalize r.path false) = r.kind ∧
      (a.child "" r.path = .ok (some (normalize r.path false)) ↔ r.IsTrimmed) ∧
      (r.IsTrimmed →
        (∃ ps, a.children (parentOrRoot (normalize r.path false)) = .ok ps ∧
          ps.count (normalize r.path false) = 1) ∧
        ∀ p, r.LeadsThrough p →
          Listed a p ∧ (p ≠ normalize r.path false → a.kind p = .directory))) ∧
    ((∀ r ∈ records, isUsable r = true → r.IsTrimmed) →
      ∀ p, Listed a p ↔ p = "" ∨ ∃ r ∈ records, isUsable r = true ∧ r.LeadsThrough p) := by
  have hindex := index_of_ofReader hr h
  have hholds := holds_addFrom hindex
  constructor
  · intro r hmem hu
    have hrecord := hholds r hmem hu
    refine ⟨hrecord.kind, ⟨isTrimmed_of_child hu, child_of_holds hrecord hu⟩, fun ht => ⟨?_, ?_⟩⟩
    · obtain ⟨ns, x, hsnoc⟩ := exists_snoc hu
      have hx : IsComponent x := Record.isComponent (r := r) (by simp [hsnoc])
      have hd : a.kind (parentOrRoot (normalize r.path false)) = .directory := by
        rw [← r.ofNames_names, hsnoc, parentOrRoot_ofNames_snoc hx]
        refine hrecord.ways ht ns ?_ ?_
        · simp [hsnoc]
        · simp [hsnoc]
      refine ⟨_, children_eq hd, count_childPaths ((grows_addFrom hindex).nodup List.nodup_nil) ?_⟩
      exact mem_paths_of_exists (normalize_ne_empty hu) (hrecord.exists? hu)
    · rintro p ⟨ns, -, hns, rfl⟩
      refine ⟨listed_of_holds hrecord hu ht hns, fun hne => ?_⟩
      refine (kind_of_holds hrecord hu ht hns).2 fun he => hne ?_
      rw [he, r.ofNames_names]
  · intro ht p
    constructor
    · intro hp
      refine (mem_paths_of_listed hp).imp id fun hmem => ?_
      exact ((mem_addFrom hindex ht p).mp hmem).resolve_left (List.not_mem_nil)
    · rintro (rfl | ⟨r, hmem, hu, ns, -, hns, rfl⟩)
      · exact .root
      · exact listed_of_holds (hholds r hmem hu) hu (ht r hmem hu) hns

/-- A file comes before the record of its directory, and one record is skipped. -/
theorem records_reachable_late_directory :
    let file : Record := ⟨"a/b/c", .file, 1, none, none⟩
    let directory : Record := ⟨"/a/b/", .directory, 0, none, none⟩
    let skipped : Record := ⟨" ", .file, 1, none, none⟩
    let reader : Reader := ⟨.ok [file, directory, skipped], fun _ => .ok [1]⟩
    ∃ a, ofReader "archive" reader = .ok a ∧ a.child "" "a/b/c" = .ok (some "a/b/c") ∧
      Listed a "a" ∧ a.kind "a/b" = .directory := by
  intro file directory skipped reader
  have hix : Index.ofRecords "archive" [file, directory, skipped]
      = .ok ⟨[("a", .implied), ("a/b", .ofRecord 1 directory), ("a/b/c", .ofRecord 0 file)]⟩ := by
    decide +kernel
  have hr : reader.records = .ok [file, directory, skipped] := rfl
  have h := (ofReader_eq_ok hr).mpr hix
  obtain ⟨hrecords, hlisted⟩ := records_reachable hr h
  have hpath : normalize file.path false = "a/b/c" := by decide +kernel
  have hfile := hrecords file (by simp) (by decide +kernel)
  have hdirectory := hrecords directory (by simp) (by decide +kernel)
  rw [hpath] at hfile
  have htrimmed : ∀ r ∈ [file, directory, skipped], isUsable r = true → r.IsTrimmed := by
    decide +kernel
  refine ⟨_, h, hfile.2.1.mpr (by decide +kernel), ?_, ?_⟩
  · refine (hlisted htrimmed "a").mpr (.inr ⟨file, by simp, by decide +kernel, ["a"], ?_⟩)
    decide +kernel
  · have hplace : normalize directory.path false = "a/b" := by decide +kernel
    rw [hplace] at hdirectory
    exact hdirectory.1

/-- The index holds the record "a /b" at its path, but the directory that is made for it is "a": the
record is found neither under its path nor by listing. -/
theorem untrimmed_record_missed :
    let file : Record := ⟨"a /b", .file, 1, none, none⟩
    let reader : Reader := ⟨.ok [file], fun _ => .ok [1]⟩
    ∃ a, ofReader "archive" reader = .ok a ∧ isUsable file = true ∧ a.kind "a /b" = .file ∧
      a.child "" "a /b" = .ok none ∧
      a.children (parentOrRoot "a /b") = .error (.notADirectory "a ") ∧
      a.children "" = .ok ["a"] ∧ a.children "a" = .ok [] := by
  intro file reader
  have hix : Index.ofRecords "archive" [file]
      = .ok ⟨[("a", .implied), ("a /b", .ofRecord 0 file)]⟩ := by
    decide +kernel
  have hr : reader.records = .ok [file] := rfl
  refine ⟨_, (ofReader_eq_ok hr).mpr hix, ?_⟩
  decide +kernel

end Strata.Archive
