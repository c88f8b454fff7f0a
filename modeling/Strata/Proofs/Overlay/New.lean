/-
# `Strata.Proofs.Overlay.New` — a union over memory filesystems that was just made

Such a union has listed nothing, so all that it shows comes from the trees of its
layers: a path is shown as its owner has it, unless a file stands in the way
(`exec_entry_new`).  What is seen and read at a path are functions of the store
(`sightAt_new`, `bytesAt_new`), and so two stores can be compared by what new
unions over them show.
-/
import Strata.Proofs.Memory.Runs
import Strata.Proofs.Overlay.Nesting
import Strata.Proofs.Overlay.Planting

namespace Strata.Overlay

open Strata.Action Strata.Path

/-- A union over memory filesystems that was just made. -/
def newUnion (s : Store) (ids : List Nat) (policy : Policy) : Store × Overlay Filesystem Entry :=
  (s, { layers := ids.map .memory, policy := policy })

variable {s : Store} {ids : List Nat}

theorem over_new (s : Store) (ids : List Nat) (policy : Policy) :
    Over s (ids.map .memory) (newUnion s ids policy) := ⟨.refl s, rfl, rfl, rfl⟩

theorem holds_new {fits : String → List (String × Offer Entry) → Prop} (s : Store) (ids : List Nat)
    (policy : Policy) :
    Holds (ids.map .memory) (fun _ => "") fits (newUnion s ids policy).2 .root :=
  holds_root Nat.zero_lt_one rfl rfl

section
variable (n : Nat) (hs : ∀ id ∈ ids, (s.memory id).tree.Clean) (policy : Policy) (path : String)
include hs

theorem sightAt_new :
    ((sightAt (Store.provider (n + 1)) path).exec (newUnion s ids policy)).1
      = (found s (ids.map .memory) path).map (·.map (shown s)) :=
  have hsame : s.SameTrees s := .refl s
  (pristine_root hsame policy).sightAt_eq (renders_plain n hs) (cleanTree_memory hs) path

theorem bytesAt_new :
    ((bytesAt (Store.provider (n + 1)) path).exec (newUnion s ids policy)).1
      = atPlace (found s (ids.map .memory) path) (readAt s (ids.map .memory)) :=
  have hsame : s.SameTrees s := .refl s
  (pristine_root hsame policy).bytesAt_eq (renders_plain n hs) (cleanTree_memory hs) path

omit n policy path in
/-- What is read at the path of a file. -/
theorem readAt_file {id i : Nat} {path : String} {data : Bytes} {mtime : Timestamp}
    (hid : id ∈ ids) (hread : Filesystem.canRead s (.memory id) = true)
    (hf : (s.memory id).tree.find? path = some (.file data mtime)) :
    readAt s (ids.map .memory) (some ⟨path, .memory id path, i⟩) = .ok data := by
  have hcan : (allowed s (ids.map .memory)).covers (.only .read) = true := by
    rw [allowed_covers (cleanTree_memory hs), List.any_map, List.any_eq_true]
    exact ⟨id, hid, hread⟩
  have hcheck : OpenMode.reading.checkAgainst (allowed s (ids.map .memory)) path
      = .ok (.only .read) := if_pos hcan
  have hkind : (Entry.memory id path).kind s = .file := Memory.kind_of_file hf
  have hbytes : (Entry.memory id path).bytes s = data := by rw [Entry.bytes, hf]
  rw [readAt, shown, hkind, hcheck]
  exact congrArg Except.ok hbytes

/-- To ask a new union for a path changes nothing but its listings. -/
theorem exec_entry_new :
    ∃ r label o, (entry (Store.provider (n + 1)) path).exec (newUnion s ids policy) = (r, (s, o)) ∧
      Over s (ids.map .memory) (s, o) ∧
      r.map (·.map Node.offer?) = found s (ids.map .memory) path ∧
      ∀ node, r = .ok (some node) →
        Sound (ids.map .memory) label Whatever o node ∧ node.path = normalize path false := by
  have hclean := cleanTree_memory hs
  obtain ⟨r, label, ⟨t, o⟩, he, hq, -, hr, hcached⟩ :=
    exec_entry hclean n (asMerged s _) path (over_new s ids policy)
      (holds_new s ids policy)
  have hstore := (ensures_entry (observed_memory (t := s) n ids) path (newUnion s ids policy)
    ⟨rfl, rfl⟩).1.1
  rw [he] at hstore
  obtain rfl : t = s := hstore
  refine ⟨r, label, o, he, hq.base, hr (guides_merged hclean fun _ => isComponent_of_mem), ?_⟩
  intro node hnode
  have hroot := hq.holds _ _ (asMerged t _) (holds_new t ids policy)
  have hheld := hroot.of_cached (hcached node hnode)
  have hpath := hroot.path_of_cached (hcached node hnode)
  rw [show components (Node.root : Node Entry).path = [] from components_empty,
    List.nil_append] at hpath
  have hsound := (hheld.mono fun _ _ _ _ _ => (trivial : Whatever _ _)).sound
  refine ⟨hsound, ?_⟩
  rw [← hsound.path.ofNames_components, hpath, ofNames_components_normalize]

end

/-! ## Making an entry from the root of a new union -/

variable {kind : Kind} {place name : String}

/-- A new node of a kind at a path goes to this memory filesystem, the layer of this position, and
nothing of another kind is in its way there. -/
structure Accepts (s : Store) (ids : List Nat) (kind : Kind) (place : String) (id i : Nat) :
    Prop where
  named : place ≠ ""
  taker : taker? s (ids.map .memory) "" = some (.memory id, i)
  admits : (s.memory id).tree.Admits kind (components place)

section
variable (n : Nat) (hs : ∀ id ∈ ids, (s.memory id).tree.Clean)
  (hstored : ∀ id ∈ ids, id < s.memories.size) (hk : kind.isCreatable = true)
  (hp : Path.Clean place) (hname : normalize name false = place)
include hs hstored hk hp hname

/-- An entry at a path with trimmed names is made exactly if some layer accepts it; else nothing is
changed. -/
theorem exec_create_root {o : Overlay Filesystem Entry} (hl : o.layers = ids.map .memory)
    (hlive : o.released = false) :
    ∃ r w', (create (Store.provider (n + 1)) .root kind name).exec (s, o) = (r, w') ∧
      ((∃ e, r = .error e) ∧ w' = (s, o) ∧ (∀ id i, ¬ Accepts s ids kind place id i) ∨
        ∃ node id i offer, r = .ok node ∧ Accepts s ids kind place id i ∧
          s.Planted w'.1 id kind (components place) ∧ w'.2 = ((noted o 0).addNode offer).2) := by
  obtain ⟨hnone, e, hexec⟩ | ⟨id, i, r, t, h0, htaker, hensure, herror, hok⟩ :=
    create_root_cases n (cleanTree_memory hs) (isBare_memory ids) hk hl hlive name
  · refine ⟨_, _, hexec, .inl ⟨⟨e, rfl⟩, rfl, fun id i h => ?_⟩⟩
    rcases hnone with h0 | hnone
    · exact h.named (hname.symm.trans h0)
    · cases hnone.symm.trans h.taker
  · have hid : id ∈ ids := List.mem_of_getElem? (getElem?_of_taker htaker)
    rw [hname] at h0 hensure
    obtain ⟨hadmits, hplanted⟩ := Memory.Tree.planted_of_ensure hk hp h0 (hs id hid) hensure
    cases r with
    | error e =>
        refine ⟨_, _, herror e rfl, .inl ⟨⟨e, rfl⟩, rfl, fun j k h => ?_⟩⟩
        obtain ⟨hf, rfl⟩ := Prod.mk.inj (Option.some.inj (htaker.symm.trans h.taker))
        obtain rfl := Filesystem.memory.inj hf
        cases hadmits.mpr h.admits
    | ok u =>
        have haccepts : Accepts s ids kind place id i := ⟨h0, htaker, hadmits.mp rfl⟩
        let offer : Offer Entry := ⟨normalize name false, .memory id (normalize name false), i⟩
        refine ⟨_, _, hok rfl, .inr ⟨_, id, i, offer, rfl, haccepts, ?_, rfl⟩⟩
        exact Store.planted_setMemory (hstored id hid) (hplanted rfl)

theorem exec_create_new (policy : Policy) :
    ∃ r s' o', (create (Store.provider (n + 1)) .root kind name).exec (newUnion s ids policy)
        = (r, (s', o')) ∧
      ((∃ e, r = .error e) ∧ s' = s ∧ (∀ id i, ¬ Accepts s ids kind place id i) ∨
        ∃ node id i, r = .ok node ∧ Accepts s ids kind place id i ∧
          s.Planted s' id kind (components place)) := by
  have ho : (newUnion s ids policy).2.layers = ids.map .memory := rfl
  obtain ⟨r, ⟨s', o'⟩, hexec, hcases⟩ := exec_create_root n hs hstored hk hp hname ho rfl
  refine ⟨r, s', o', hexec, ?_⟩
  rcases hcases with ⟨he, hsame, hno⟩ | ⟨node, id, i, -, hr, haccepts, hplanted, -⟩
  · exact .inl ⟨he, congrArg Prod.fst hsame, hno⟩
  · exact .inr ⟨node, id, i, hr, haccepts, hplanted⟩

end

end Strata.Overlay
