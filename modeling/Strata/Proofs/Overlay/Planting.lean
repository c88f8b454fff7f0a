/-
# `Strata.Proofs.Overlay.Planting` — a new node in one layer, as a union shows it

A path is shown as its owner has it, unless a file is shown on the way to it; that a
file is on the way of a layer that is not the owner does not matter (`Passable`).  When
a layer gets a node at the path, the directories on the way are new in that layer, too;
so it may come to own parts of the path, but none of them stops being a directory, and
the path itself is shown as its owner has it afterwards (`Planted.found_eq`).
-/
import Strata.Proofs.Memory.Planting
import Strata.Proofs.Overlay.Creation
import Strata.Proofs.Overlay.Nesting
import Strata.Proofs.Overlay.Precedence

namespace Strata

open Strata.Action Strata.Path

namespace Overlay

variable {s s' : Store} {layers : List Filesystem} {ns : List String}

/-! ## Ways without a file -/

/-- No file is provided on the way along the names. -/
def Passable (s : Store) (layers : List Filesystem) (ns : List String) : Prop :=
  ∀ ms, ms <+: ns → ms ≠ ns → ∀ o, provided s layers (ofNames ms) = some o →
    (kindAt s (some o)).isDirectory = true

/-- Below a path that no layer provides none is provided. -/
theorem provided_eq_none_of_append (hs : ∀ f ∈ layers, f.CleanTree s) {ms : List String}
    (hn : ∀ m ∈ ns ++ ms, IsComponent m) (hnone : provided s layers (ofNames ns) = none) :
    provided s layers (ofNames (ns ++ ms)) = none := by
  by_contra hsome
  obtain ⟨f, hf, hheld⟩ := isSome_provided.mp (Option.isSome_iff_ne_none.mpr hsome)
  rw [holds, Bool.and_eq_true] at hheld
  have hpresent : ((f.outline s).kind (ofNames ns)).exists? = true := by
    by_cases h0 : ms = []
    · rw [h0, List.append_nil] at hheld
      exact hheld.2
    · rw [(hs f hf).outline_clean.directory_of_append hn h0 hheld.2]
      rfl
  have := isSome_provided.mpr ⟨f, hf, Bool.and_eq_true_iff.mpr ⟨hheld.1, hpresent⟩⟩
  rw [hnone] at this
  cases this

/-- The rest of a way without a file leads to what is provided at its end. -/
theorem follow_of_passable (hs : ∀ f ∈ layers, f.CleanTree s) {done rest : List String}
    {place : Option (Offer Entry)} (hd : (kindAt s place).isDirectory = true) (h0 : rest ≠ [])
    (hn : ∀ m ∈ done ++ rest, IsComponent m)
    (hpass : ∀ ms, ms ≠ [] → ms <+: rest → ms ≠ rest → ∀ o,
      provided s layers (ofNames (done ++ ms)) = some o → (kindAt s (some o)).isDirectory = true) :
    follow s layers done place rest
      = .ok ((provided s layers (ofNames (done ++ rest))).map some) := by
  induction rest generalizing done place with
  | nil => exact absurd rfl h0
  | cons c rest ih =>
      rw [List.append_cons] at hn ⊢
      rw [follow, if_pos hd]
      by_cases hrest : rest = []
      · subst hrest
        rw [List.append_nil]
        cases provided s layers (ofNames (done ++ [c])) <;> rfl
      cases hp : provided s layers (ofNames (done ++ [c])) with
      | none =>
          rw [provided_eq_none_of_append hs hn hp]
          rfl
      | some o =>
          have hdir := hpass [c] (by simp) (by simp) (by simpa [eq_comm] using hrest) o hp
          apply ih hdir hrest hn
          intro ms hne hms hproper o' ho'
          apply hpass (c :: ms) (by simp) (List.cons_prefix_cons.mpr ⟨rfl, hms⟩) (by simpa) o'
          rwa [List.append_cons]

/-- There is no file on a way that does not end in a failure. -/
theorem passable_of_follow (hs : ∀ f ∈ layers, f.CleanTree s) {done rest : List String}
    {place : Option (Offer Entry)} (hn : ∀ m ∈ done ++ rest, IsComponent m)
    {r : Option (Option (Offer Entry))} (hfollow : follow s layers done place rest = .ok r) :
    ∀ ms, ms ≠ [] → ms <+: rest → ms ≠ rest → ∀ o,
      provided s layers (ofNames (done ++ ms)) = some o →
        (kindAt s (some o)).isDirectory = true := by
  induction rest generalizing done place with
  | nil =>
      intro ms h0 hms
      exact absurd (List.prefix_nil.mp hms) h0
  | cons c rest ih =>
      intro ms h0 hms hproper o ho
      obtain ⟨ms, rfl⟩ : ∃ ms', ms = c :: ms' := by
        cases ms with
        | nil => exact absurd rfl h0
        | cons x ms' => exact ⟨ms', by rw [(List.cons_prefix_cons.mp hms).1]⟩
      have hms := (List.cons_prefix_cons.mp hms).2
      have hproper : ms ≠ rest := fun he => hproper (by rw [he])
      rw [List.append_cons] at hn ho
      rw [follow] at hfollow
      split at hfollow
      swap
      · cases hfollow
      cases hp : provided s layers (ofNames (done ++ [c])) with
      | none =>
          have hall : ∀ m ∈ done ++ [c] ++ ms, IsComponent m := by
            intro m hm
            rcases List.mem_append.mp hm with hm | hm
            · exact hn m (List.mem_append_left _ hm)
            · exact hn m (List.mem_append_right _ (hms.subset hm))
          rw [provided_eq_none_of_append hs hall hp] at ho
          cases ho
      | some next =>
          rw [hp] at hfollow
          have hfollow : follow s layers (done ++ [c]) (some next) rest = .ok r := hfollow
          by_cases hnil : ms = []
          · -- the walk goes on from here, so it found a directory
            rw [hnil, List.append_nil, hp] at ho
            obtain rfl := Option.some.inj ho
            obtain ⟨d, ds, rfl⟩ := List.exists_cons_of_ne_nil fun h => hproper (hnil.trans h.symm)
            by_contra hdir
            rw [follow, if_neg hdir] at hfollow
            cases hfollow
          · exact ih hn hfollow ms hnil hms hproper o ho

/-- A path is shown as its owner has it if no file is shown on the way. -/
theorem found_of_passable (hs : ∀ f ∈ layers, f.CleanTree s) {path : String}
    (h0 : normalize path false ≠ "")
    (hpass : Passable s layers (components (normalize path false))) :
    found s layers path = .ok ((provided s layers (normalize path false)).map some) := by
  have hne := components_normalize_ne_nil h0
  have hdir : (kindAt s none).isDirectory = true := rfl
  have hn : ∀ m ∈ [] ++ components (normalize path false), IsComponent m := by
    rw [List.nil_append]
    exact fun _ => isComponent_of_mem
  rw [found, follow_of_passable hs hdir hne hn fun ms _ => hpass ms, List.nil_append,
    ofNames_components_normalize]

theorem passable_of_found (hs : ∀ f ∈ layers, f.CleanTree s) {path : String}
    {r : Option (Option (Offer Entry))} (hfound : found s layers path = .ok r) :
    Passable s layers (components (normalize path false)) := by
  intro ms hms hproper o ho
  by_cases h0 : ms = []
  · -- the root of a layer is a directory
    obtain ⟨f, hf, -, -, heq⟩ := provided_eq_some.mp ho
    have hclean := hs f (List.mem_of_getElem? hf)
    rw [h0, ofNames_nil] at heq
    have hsource : o.source = f.entryAt "" := congrArg Offer.source heq
    rw [kindAt, hsource, hclean.kind_entryAt, hclean.outline_clean.root]
    rfl
  · have hfollow : follow s layers [] none (components (normalize path false)) = .ok r := hfound
    have hn : ∀ m ∈ [] ++ components (normalize path false), IsComponent m := by
      rw [List.nil_append]
      exact fun _ => isComponent_of_mem
    exact passable_of_follow hs hn hfollow ms h0 hms hproper o ho

/-- What is found at a path is what its owner has there. -/
theorem provided_of_found (hs : ∀ f ∈ layers, f.CleanTree s) {path : String}
    (h0 : normalize path false ≠ "") {r : Option (Option (Offer Entry))}
    (hfound : found s layers path = .ok r) :
    (provided s layers (normalize path false)).map some = r :=
  Except.ok.inj ((found_of_passable hs h0 (passable_of_found hs hfound)).symm.trans hfound)

theorem provided_of_found_some (hs : ∀ f ∈ layers, f.CleanTree s) {path : String}
    (h0 : normalize path false ≠ "") {o : Offer Entry}
    (hfound : found s layers path = .ok (some (some o))) :
    provided s layers (normalize path false) = some o := by
  obtain ⟨o', hprovided, heq⟩ := Option.map_eq_some_iff.mp (provided_of_found hs h0 hfound)
  rw [hprovided, Option.some.inj heq]

end Overlay

/-! ## A new node in a memory filesystem -/

/-- A memory filesystem of the store has a new node of a kind, and what lies on the way to it. -/
structure Store.Planted (s s' : Store) (id : Nat) (kind : Kind) (ns : List String) : Prop where
  others : ∀ j, j ≠ id → s'.memory j = s.memory j
  operations : (s'.memory id).operations = (s.memory id).operations
  tree : Memory.Tree.Planted s.clock kind ns (s.memory id).tree (s'.memory id).tree

theorem Store.planted_setMemory {s : Store} {id : Nat} {kind : Kind} {ns : List String}
    {t : Memory.Tree} (hid : id < s.memories.size)
    (h : Memory.Tree.Planted s.clock kind ns (s.memory id).tree t) :
    s.Planted (s.setMemory id { s.memory id with tree := t }) id kind ns where
  others j hj := by rw [memory_setMemory, if_neg fun h => hj h.1]
  operations := by rw [memory_setMemory, if_pos ⟨rfl, hid⟩]
  tree := by rwa [memory_setMemory, if_pos ⟨rfl, hid⟩]

namespace Store.Planted

open Overlay

variable {s s' : Store} {ids : List Nat} {id : Nat} {kind : Kind} {ns : List String}
  (h : s.Planted s' id kind ns)
include h

/-- Nothing is lost. -/
theorem kept (j : Nat) {q : String} (hpresent : (s.memory j).tree.find? q ≠ none) :
    (s'.memory j).tree.find? q = (s.memory j).tree.find? q := by
  by_cases hj : j = id
  · rw [hj] at hpresent ⊢
    exact h.tree.kept hpresent
  · rw [h.others j hj]

theorem kind_kept (j : Nat) {q : String} (hpresent : (s.memory j).kind q ≠ .unknown) :
    (s'.memory j).kind q = (s.memory j).kind q :=
  Memory.Tree.kind_congr (h.kept j fun hnone => hpresent (Memory.Tree.kind_eq_unknown.mpr hnone))

theorem operations_eq (j : Nat) : (s'.memory j).operations = (s.memory j).operations := by
  by_cases hj : j = id
  · rw [hj, h.operations]
  · rw [h.others j hj]

theorem clean (hs : ∀ j ∈ ids, (s.memory j).tree.Clean) :
    ∀ j ∈ ids, (s'.memory j).tree.Clean := by
  intro j hj
  by_cases hid : j = id
  · rw [hid]
    exact h.tree.clean
  · rw [h.others j hid]
    exact hs j hj

theorem canRead_eq (j : Nat) :
    Filesystem.canRead s' (.memory j) = Filesystem.canRead s (.memory j) :=
  congrArg (fun ops : Operations => ops.covers (.only .read)) (h.operations_eq j)

/-- What a layer holds it goes on holding. -/
theorem holds_kept {j : Nat} {q : String} (hheld : holds s q (.memory j) = true) :
    holds s' q (.memory j) = true := by
  rw [holds, Bool.and_eq_true] at hheld ⊢
  obtain ⟨hread, hpresent⟩ := hheld
  refine ⟨(h.canRead_eq j).trans hread, ?_⟩
  have hkind : (s'.memory j).kind q = (s.memory j).kind q :=
    h.kind_kept j (Kind.exists?_iff.mp hpresent)
  show ((s'.memory j).kind q).exists? = true
  rw [hkind]
  exact hpresent

/-- What a layer holds it held before, but for the parts of the path. -/
theorem holds_cases {j : Nat} {q : String} (hheld : holds s' q (.memory j) = true) :
    holds s q (.memory j) = true ∨ j = id ∧ ∃ ms, ms ≠ [] ∧ ms <+: ns ∧ q = ofNames ms := by
  rw [holds, Bool.and_eq_true, h.canRead_eq] at hheld
  obtain ⟨hread, hpresent⟩ := hheld
  have hpresent : ((s'.memory j).kind q).exists? = true := hpresent
  have hsame (heq : (s'.memory j).tree.find? q = (s.memory j).tree.find? q) :
      holds s q (.memory j) = true :=
    Bool.and_eq_true_iff.mpr ⟨hread, by
      rw [show (s'.memory j).kind q = (s.memory j).kind q from Memory.Tree.kind_congr heq] at hpresent
      exact hpresent⟩
  by_cases hj : j = id
  · subst hj
    rcases h.tree.grown q with heq | ⟨-, -, ⟨ms, h0, hms, hq, -⟩, -⟩
    · exact .inl (hsame heq)
    · exact .inr ⟨rfl, ms, h0, hms, hq⟩
  · exact .inl (hsame (by rw [h.others j hj]))

/-- A part of the path is held by the layers that held it, and by those that have the new node. -/
theorem holds_iff {ms : List String} (hms : ms <+: ns) (hk : kind.isCreatable = true) (j : Nat) :
    holds s' (ofNames ms) (.memory j) = true ↔
      holds s (ofNames ms) (.memory j) = true ∨
        Filesystem.canRead s (.memory j) = true ∧ j = id := by
  have hread := h.canRead_eq j
  have hpresent : ((s'.memory id).kind (ofNames ms)).exists? = true := by
    by_cases hne : ms = ns
    · rw [hne, show (s'.memory id).kind (ofNames ns) = kind from h.tree.target]
      exact hk
    · rw [show (s'.memory id).kind (ofNames ms) = .directory from h.tree.way ms hms hne]
      rfl
  rw [holds, holds, hread, Bool.and_eq_true, Bool.and_eq_true]
  show _ ∧ ((s'.memory j).kind _).exists? = true ↔ _ ∧ ((s.memory j).kind _).exists? = true ∨ _
  by_cases hj : j = id
  · subst hj
    constructor
    · exact fun hheld => .inr ⟨hheld.1, rfl⟩
    · rintro (hheld | hnew)
      · exact ⟨hheld.1, hpresent⟩
      · exact ⟨hnew.1, hpresent⟩
  · rw [h.others j hj]
    simp [hj]

/-- What was provided is of the kind that it was. -/
theorem kindAt_eq {q : String} {o : Offer Entry}
    (ho : provided s (ids.map .memory) q = some o) :
    kindAt s' (some o) = kindAt s (some o) := by
  obtain ⟨f, hat, hheld, -, heq⟩ := provided_eq_some.mp ho
  obtain ⟨j, -, rfl⟩ := List.mem_map.mp (List.mem_of_getElem? hat)
  rw [holds, Bool.and_eq_true] at hheld
  have hsource : o.source = .memory j q := congrArg Offer.source heq
  rw [kindAt, kindAt, hsource]
  exact h.kind_kept j (Kind.exists?_iff.mp hheld.2)

theorem allowed_eq (ids : List Nat) :
    allowed s' (ids.map .memory) = allowed s (ids.map .memory) := by
  refine List.foldl_ext _ _ _ fun acc f hf => congrArg (acc ∪ ·) ?_
  obtain ⟨j, -, rfl⟩ := List.mem_map.mp hf
  exact h.operations_eq j

/-- What was provided is read as it was. -/
theorem readAt_eq {q : String} {o : Offer Entry}
    (ho : provided s (ids.map .memory) q = some o) :
    readAt s' (ids.map .memory) (some o) = readAt s (ids.map .memory) (some o) := by
  have hshown : shown s' (some o) = shown s (some o) := congrArg (Prod.mk o.path) (h.kindAt_eq ho)
  obtain ⟨f, hat, hheld, -, heq⟩ := provided_eq_some.mp ho
  obtain ⟨j, -, rfl⟩ := List.mem_map.mp (List.mem_of_getElem? hat)
  rw [holds, Bool.and_eq_true] at hheld
  have hpresent : (s.memory j).tree.find? q ≠ none := fun hnone =>
    Kind.exists?_iff.mp hheld.2 (Memory.Tree.kind_eq_unknown.mpr hnone)
  have hsource : o.source = .memory j q := congrArg Offer.source heq
  have hbytes : o.source.bytes s' = o.source.bytes s := by
    rw [hsource, Entry.bytes, Entry.bytes, h.kept j hpresent]
  rw [readAt, readAt, hshown, h.allowed_eq, Option.map_some, Option.map_some, hbytes]

section
variable {i : Nat} (hk : kind.isCreatable = true)
  (hs : ∀ j ∈ ids, (s.memory j).tree.Clean)
  (htaker : taker? s (ids.map .memory) "" = some (.memory id, i))
include hk hs htaker

/-- A part of the path is provided by the taker now, if it can read and stands before whoever
provided it, and else as it was. -/
theorem provided_cases {ms : List String} (hms : ms <+: ns) :
    Filesystem.canRead s (.memory id) = true ∧
        (∀ o ∈ provided s (ids.map .memory) (ofNames ms), i < o.layer) ∧
        provided s' (ids.map .memory) (ofNames ms)
          = some ⟨ofNames ms, .memory id (ofNames ms), i⟩ ∨
      (Filesystem.canRead s (.memory id) = true →
        ∃ o ∈ provided s (ids.map .memory) (ofNames ms), o.layer ≤ i) ∧
        provided s' (ids.map .memory) (ofNames ms) = provided s (ids.map .memory) (ofNames ms) := by
  have hclean := cleanTree_memory hs
  obtain ⟨hat, -, -⟩ := find?_zipIdx_eq_some.mp htaker
  by_cases hread : Filesystem.canRead s (.memory id) = true
  · have hholds : ∀ g ∈ ids.map Filesystem.memory, holds s' (ofNames ms) g = true ↔
        holds s (ofNames ms) g = true ∨ .memory id = g := by
      refine List.forall_mem_map.mpr fun j _ => ?_
      rw [h.holds_iff hms hk, Filesystem.memory.injEq]
      exact or_congr_right ⟨fun hnew => hnew.2.symm, fun hj => ⟨hj ▸ hread, hj.symm⟩⟩
    obtain ⟨hlt, hnew⟩ | ⟨hle, hold⟩ := provided_gain hat rfl
      (fun j g hg hgain => (le_of_memory_of_taker hclean htaker rfl hg (hgain ▸ rfl)).2) hholds
    · exact .inl ⟨hread, hlt, hnew⟩
    · exact .inr ⟨fun _ => hle, hold⟩
  · refine .inr ⟨fun hcan => absurd hcan hread, ?_⟩
    rw [provided, provided]
    congr 1
    refine List.find?_congr fun f hf => ?_
    obtain ⟨j, -, heq⟩ := List.mem_map.mp (List.fst_mem_of_mem_zipIdx hf)
    rw [Bool.eq_iff_iff, ← heq, h.holds_iff hms hk, or_iff_left]
    rintro ⟨hcan, rfl⟩
    exact hread hcan

theorem passable (hpass : Passable s (ids.map .memory) ns) :
    Passable s' (ids.map .memory) ns := by
  intro ms hms hproper o ho
  rcases h.provided_cases hk hs htaker hms with ⟨-, -, hnew⟩ | ⟨-, hold⟩
  · obtain rfl := Option.some.inj (ho.symm.trans hnew)
    show ((s'.memory id).kind (ofNames ms)).isDirectory = true
    rw [show (s'.memory id).kind (ofNames ms) = .directory from h.tree.way ms hms hproper]
    rfl
  · rw [hold] at ho
    rw [h.kindAt_eq ho]
    exact hpass ms hms hproper o ho

/-- The path is shown as its owner has it afterwards. -/
theorem found_eq {path : String} (h0 : normalize path false ≠ "")
    (hns : components (normalize path false) = ns)
    (hpass : Passable s (ids.map .memory) ns) :
    found s' (ids.map .memory) path
      = .ok ((provided s' (ids.map .memory) (normalize path false)).map some) := by
  apply found_of_passable (cleanTree_memory (h.clean hs)) h0
  rw [hns]
  exact h.passable hk hs htaker hpass

/-- What was shown at the path is shown afterwards, unless the taker can read and stands before the
layer that showed it: then the new node hides it. -/
theorem found_cases {path : String} {o : Offer Entry} (h0 : normalize path false ≠ "")
    (hns : components (normalize path false) = ns)
    (hfound : found s (ids.map .memory) path = .ok (some (some o))) :
    (Filesystem.canRead s (.memory id) = true ∧ i < o.layer) ∧
        found s' (ids.map .memory) path
          = .ok (some (some ⟨ofNames ns, .memory id (ofNames ns), i⟩)) ∨
      ¬ (Filesystem.canRead s (.memory id) = true ∧ i < o.layer) ∧
        found s' (ids.map .memory) path = .ok (some (some o)) := by
  have hclean := cleanTree_memory hs
  have hpass := passable_of_found hclean hfound
  have hofNames : normalize path false = ofNames ns := by rw [← hns, ofNames_components_normalize]
  have hprovided := provided_of_found_some hclean h0 hfound
  rw [hofNames] at hprovided
  rw [hns] at hpass
  rw [h.found_eq hk hs htaker h0 hns hpass, hofNames]
  rcases h.provided_cases hk hs htaker List.prefix_rfl with ⟨hread, hlt, hnew⟩ | ⟨hle, hold⟩
  · exact .inl ⟨⟨hread, hlt o hprovided⟩, by rw [hnew]; rfl⟩
  · refine .inr ⟨?_, by rw [hold, hprovided]; rfl⟩
    rintro ⟨hread, hlt⟩
    obtain ⟨o', ho', hle⟩ := hle hread
    obtain rfl := Option.some.inj (hprovided.symm.trans ho')
    exact absurd hlt (Nat.not_lt.mpr hle)

end

end Store.Planted

/-! ## Making an entry from the root of a union -/

namespace Overlay

variable {s : Store} {layers : List Filesystem} {kind : Kind} {name : String}

theorem isBare_memory (ids : List Nat) : ∀ f ∈ ids.map Filesystem.memory, f.isBare = true :=
  List.forall_mem_map.mpr fun _ _ => rfl

theorem getElem?_of_taker {ids : List Nat} {path : String} {id i : Nat}
    (htaker : taker? s (ids.map .memory) path = some (.memory id, i)) : ids[i]? = some id := by
  obtain ⟨hlayer, -, -⟩ := find?_zipIdx_eq_some.mp htaker
  rw [List.getElem?_map] at hlayer
  obtain ⟨j, hat, hj⟩ := Option.map_eq_some_iff.mp hlayer
  rwa [Filesystem.memory.inj hj] at hat

/-- What a memory filesystem that can create makes at its root. -/
theorem exec_createInLayer_root (n : Nat) {id : Nat} (hclean : (s.memory id).tree.Clean)
    (hcan : (s.memory id).operations.covers (.only .create) = true)
    (hk : kind.isCreatable = true) (h0 : normalize name false ≠ "") :
    (createInLayer (Store.provider (n + 1)) "" kind (normalize name false) (.memory id)).exec s =
      let made := (Memory.Tree.ensure s.clock (normalize name false) kind).exec (s.memory id).tree
      (made.1.map fun _ => some (.memory id (normalize name false)),
        s.setMemory id { s.memory id with tree := made.2 }) := by
  have hfs : (Filesystem.memory id).CleanTree s := hclean
  have hroot : ((Filesystem.memory id).outline s).kind "" = .directory := hclean.1
  have h0' : normalize (normalize name false) false ≠ "" := by rwa [normalize_normalize]
  have hf : (Filesystem.memory id).memory? = some id := rfl
  have hmake : ((Store.provider (n + 1)).create ((Filesystem.memory id).entryAt "") kind
      (normalize name false)).exec s = _ :=
    Filesystem.exec_create_handle (Store.provider n) hf "" kind (normalize name false)
  simp only [Filesystem.createFault, Memory.exec_create_root s.clock hcan hk hclean.1 h0',
    normalize_normalize] at hmake
  simp only [createInLayer, exec_bind, Filesystem.exec_resolveDirectory n hfs clean_empty, hroot,
    if_true, hmake]
  cases ((Memory.Tree.ensure s.clock (normalize name false) kind).exec (s.memory id).tree).1 <;> rfl

/-- What the first layer makes that can create; after it no other one is asked. -/
theorem createFrom_root_cases (n : Nat) (hs : ∀ f ∈ layers, f.CleanTree s)
    (hbare : ∀ f ∈ layers, f.isBare = true) (hk : kind.isCreatable = true)
    (h0 : normalize name false ≠ "") (layer : Nat) :
    let found := (layers.zipIdx layer).find? fun f => takes s "" f.1
    let exec := (createFrom (Store.provider (n + 1)) "" kind (normalize name false) layer
      layers).exec s
    found = none ∧ exec = (.ok none, s) ∨
    ∃ id i r t, found = some (.memory id, i) ∧
      (Memory.Tree.ensure s.clock (normalize name false) kind).exec (s.memory id).tree = (r, t) ∧
      exec = (r.map fun _ =>
          some ⟨normalize name false, .memory id (normalize name false), i⟩,
        s.setMemory id { s.memory id with tree := t }) := by
  induction layers generalizing layer with
  | nil => exact .inl ⟨rfl, rfl⟩
  | cons f rest ih =>
      obtain ⟨hf, hrest⟩ := List.forall_mem_cons.mp hs
      obtain ⟨hfbare, hrestbare⟩ := List.forall_mem_cons.mp hbare
      have hops : (Store.provider (n + 1)).operations f s = f.allows s := hf.operations _
      rw [List.zipIdx_cons, List.find?_cons, createFrom]
      simp only [exec_bind, exec_get, hops]
      by_cases hcan : (f.allows s).covers (.only .create) = true
      · obtain ⟨id, hid⟩ := hf.memory_of_creates hcan
        obtain rfl := Filesystem.eq_memory_of_isBare hfbare hid
        have hclean : (s.memory id).tree.Clean := hf
        have hyes : takes s "" (.memory id) = true := by
          rw [takes, Bool.and_eq_true, beq_iff_eq]
          exact ⟨hcan, hclean.1⟩
        rcases hensure : (Memory.Tree.ensure s.clock (normalize name false) kind).exec
          (s.memory id).tree with ⟨r, t⟩
        have hmake : (createInLayer (Store.provider (n + 1)) "" kind (normalize name false)
              (.memory id)).exec s
            = (r.map fun _ => some (.memory id (normalize name false)),
              s.setMemory id { s.memory id with tree := t }) := by
          rw [exec_createInLayer_root n hclean hcan hk h0, hensure]
        simp only [hyes, if_pos hcan, exec_bind, exec_consult, hmake]
        refine .inr ⟨id, layer, r, t, rfl, hensure, ?_⟩
        cases r with
        | error e =>
            have hmisuse := (Memory.Tree.ensure_whole s.clock hk hclean.parented hensure).1
            simp [Except.map, hmisuse]
        | ok u =>
            have hpath : (Store.provider (n + 1)).path (.memory id (normalize name false))
                = normalize name false := rfl
            simp only [Except.map, exec_pure, hpath, normalize_normalize]
      · have hno : takes s "" f = false := by
          rw [← Bool.not_eq_true, takes, Bool.and_eq_true]
          exact fun h => hcan h.1
        simp only [hno, if_neg hcan]
        exact ih hrest hrestbare (layer + 1)

/-- Making an entry from the root of a union: where no layer can create, or nothing is named, it
fails; else the taker makes the entry or fails. -/
theorem create_root_cases (n : Nat) (hs : ∀ f ∈ layers, f.CleanTree s)
    (hbare : ∀ f ∈ layers, f.isBare = true) (hk : kind.isCreatable = true)
    {o : Overlay Filesystem Entry} (hl : o.layers = layers) (hlive : o.released = false)
    (name : String) :
    (normalize name false = "" ∨ taker? s layers "" = none) ∧
      (∃ e, (create (Store.provider (n + 1)) .root kind name).exec (s, o) = (.error e, (s, o))) ∨
    ∃ id i r t, normalize name false ≠ "" ∧ taker? s layers "" = some (.memory id, i) ∧
      (Memory.Tree.ensure s.clock (normalize name false) kind).exec (s.memory id).tree = (r, t) ∧
      let made := (noted o 0).addNode
        ⟨normalize name false, .memory id (normalize name false), i⟩
      (∀ e, r = .error e →
        (create (Store.provider (n + 1)) .root kind name).exec (s, o) = (.error e, (s, o))) ∧
      (r = .ok () → (create (Store.provider (n + 1)) .root kind name).exec (s, o)
        = (.ok made.1, (s.setMemory id { s.memory id with tree := t }, made.2))) := by
  have hops := operations_covers_of_trees hs n (w := (s, o)) (.refl s) hl .create
  obtain ⟨hno, hrefused⟩ | ⟨hcan, -, -, h0, he⟩ :=
    create_cases (Store.provider (n + 1)) (s, o) hlive .root kind name
  · refine .inl ⟨?_, hrefused⟩
    by_contra hyes
    obtain ⟨h0, htaker⟩ := not_or.mp hyes
    obtain ⟨⟨f, i⟩, hf⟩ := Option.ne_none_iff_exists'.mp htaker
    obtain ⟨hat, htakes, -⟩ := find?_zipIdx_eq_some.mp hf
    rw [takes, Bool.and_eq_true] at htakes
    refine hno ⟨?_, hk, rfl, h0⟩
    rw [hops, List.any_eq_true]
    exact ⟨f, List.mem_of_getElem? hat, htakes.1⟩
  · have hroot : (Node.root : Node Entry).path = "" := rfl
    simp only [hl, hroot] at he
    obtain ⟨hnone, hexec⟩ | ⟨id, i, r, t, hfound, hensure, hexec⟩ :=
      createFrom_root_cases n hs hbare hk h0 0
    · simp only [hexec] at he
      exact .inl ⟨.inr hnone, _, he⟩
    · simp only [hexec] at he
      refine .inr ⟨id, i, r, t, h0, hfound, hensure, ?_, ?_⟩
      · rintro e rfl
        obtain ⟨hat, -, -⟩ := find?_zipIdx_eq_some.mp hfound
        have hclean : (s.memory id).tree.Clean := hs _ (List.mem_of_getElem? hat)
        obtain ⟨-, rfl⟩ := Memory.Tree.ensure_whole s.clock hk hclean.parented hensure
        rw [he]
        exact congrArg (fun t => (_, (t, o))) (s.setMemory_self id)
      · rintro rfl
        exact he

end Overlay

end Strata
