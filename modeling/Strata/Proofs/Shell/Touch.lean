/-
# `Strata.Proofs.Shell.Touch` — what touching a path that is shown does to it

To touch a path is to make a file there from the root of the union.  The union does
not look whether it shows something at the path: the layer that takes new entries
gets an empty file, unless something of another kind is in its way.  Nothing in any
layer is lost by this, but the new file may hide what was shown.  That it does
exactly if its layer can read and stands before the layer that showed it
(`touch_hides_only_below_taker`).
-/
import Strata.Proofs.Overlay.New
import Strata.Proofs.Shell.Runs

namespace Strata.Shell

open Strata.Action Strata.Overlay Strata.Path

/-- The layer that takes new entries of the root can read and stands before the layer of the node. -/
def BelowTaker (s : Store) (layers : List Filesystem) (node : Node Entry) : Prop :=
  ∃ f i, taker? s layers "" = some (f, i) ∧ f.canRead s = true ∧ ∀ j ∈ node.layer?, i < j

variable {s s' : Store} {ids : List Nat} {id i : Nat} {o : Offer Entry} {path : String}

theorem belowTaker_iff {layers : List Filesystem} {f : Filesystem}
    (htaker : taker? s layers "" = some (f, i)) (child : Child Entry) :
    BelowTaker s layers (.entry child) ↔ f.canRead s = true ∧ i < child.offer.layer := by
  constructor
  · rintro ⟨g, j, htaker', hread, hlt⟩
    obtain ⟨rfl, rfl⟩ := Prod.mk.inj (Option.some.inj (htaker.symm.trans htaker'))
    exact ⟨hread, hlt _ rfl⟩
  · rintro ⟨hread, hlt⟩
    refine ⟨f, i, htaker, hread, ?_⟩
    rintro j ⟨⟩
    exact hlt

section
variable (n : Nat) (policy policy' : Policy) (hs : ∀ id ∈ ids, (s.memory id).tree.Clean)
include hs

/-- A new file that hides what was shown is seen in its place, with nothing in it. -/
theorem hidden_by_planted {ns : List String} (h : s.Planted s' id .file ns)
    (hn : ∀ m ∈ ns, IsName m) (hat : (ids.map Filesystem.memory)[i]? = some (.memory id))
    (hread : Filesystem.canRead s (.memory id) = true) (hlt : i < o.layer)
    (hprovided : provided s (ids.map .memory) (ofNames ns) = some o)
    (hfound : found s' (ids.map .memory) path
      = .ok (some (some ⟨ofNames ns, .memory id (ofNames ns), i⟩))) :
    ((sightAt (Store.provider (n + 1)) path).exec (newUnion s' ids policy)).1
        = .ok (some (ofNames ns, .file)) ∧
      ((bytesAt (Store.provider (n + 1)) path).exec (newUnion s' ids policy)).1
        = .ok (some []) := by
  obtain ⟨-, -, -, hfirst, -⟩ := provided_eq_some.mp hprovided
  have hmiss : (s.memory id).tree.find? (ofNames ns) = none := by
    have hno := hfirst i _ hlt hat
    rw [holds, hread, Bool.true_and, ← Bool.not_eq_true, Kind.exists?_iff, not_not] at hno
    exact Memory.Tree.kind_eq_unknown.mp hno
  have hid : id ∈ ids := by simpa using List.mem_of_getElem? hat
  have hread' : Filesystem.canRead s' (.memory id) = true := by
    rw [← hread]
    exact congrArg (fun ops : Operations => ops.covers (.only .read)) h.operations
  have hkind : (Entry.memory id (ofNames ns)).kind s' = .file := h.tree.target
  constructor
  · rw [sightAt_new n (h.clean hs), hfound]
    show Except.ok (some (ofNames ns, (Entry.memory id (ofNames ns)).kind s')) = _
    rw [hkind]
  · rw [bytesAt_new n (h.clean hs), hfound, atPlace]
    show (readAt _ _ _).map some = _
    rw [readAt_file (h.clean hs) hid hread' (h.tree.find?_target hn hmiss rfl)]
    rfl

/-- Where the same is found, the same is seen. -/
theorem same_of_planted {kind : Kind} {ns : List String} (h : s.Planted s' id kind ns)
    {place : String} (hprovided : provided s (ids.map .memory) place = some o)
    (hfound : found s (ids.map .memory) path = .ok (some (some o)))
    (hfound' : found s' (ids.map .memory) path = .ok (some (some o))) :
    ((sightAt (Store.provider (n + 1)) path).exec (newUnion s' ids policy)).1
        = ((sightAt (Store.provider (n + 1)) path).exec (newUnion s ids policy')).1 ∧
      ((bytesAt (Store.provider (n + 1)) path).exec (newUnion s' ids policy)).1
        = ((bytesAt (Store.provider (n + 1)) path).exec (newUnion s ids policy')).1 := by
  constructor
  · have hshown : shown s' (some o) = shown s (some o) :=
      congrArg (Prod.mk o.path) (h.kindAt_eq hprovided)
    rw [sightAt_new n (h.clean hs), sightAt_new n hs, hfound, hfound']
    exact congrArg (fun sight => Except.ok (some sight)) hshown
  · rw [bytesAt_new n (h.clean hs), bytesAt_new n hs, hfound, hfound']
    exact congrArg (Except.map some) (h.readAt_eq hprovided)

end

/-- Let a new union over memory filesystems show an entry at a path.  To touch the path succeeds
exactly if some layer accepts a file there; else nothing is changed.  No layer loses anything by it.
Afterwards a new union sees and reads at the path what it did, unless the touch succeeded, and the
layer that takes new entries can read and stands before the layer of the entry: then an empty file
is seen there, whatever was seen before. -/
theorem touch_hides_only_below_taker (n : Nat) (hs : ∀ id ∈ ids, (s.memory id).tree.Clean)
    (hstored : ∀ id ∈ ids, id < s.memories.size) (policy policy' : Policy) {node : Node Entry}
    {w : Store × Overlay Filesystem Entry}
    (hentry : (entry (Store.provider (n + 1)) path).exec (newUnion s ids policy)
      = (.ok (some node), w)) (input out : Bytes) :
    let P := Store.provider (n + 1)
    ∃ r s' o', (execute P input (.touch path)).exec (newUnion s ids policy) out
        = (r, ((s', o'), out)) ∧
      (r = .ok () ↔ ∃ id i, Accepts s ids .file node.path id i) ∧
      (r ≠ .ok () → s' = s) ∧
      (∀ id q, (s.memory id).tree.find? q ≠ none →
        (s'.memory id).tree.find? q = (s.memory id).tree.find? q) ∧
      (¬ (r = .ok () ∧ BelowTaker s (ids.map .memory) node) →
        ((sightAt P path).exec (newUnion s' ids policy')).1
            = ((sightAt P path).exec (newUnion s ids policy')).1 ∧
          ((bytesAt P path).exec (newUnion s' ids policy')).1
            = ((bytesAt P path).exec (newUnion s ids policy')).1) ∧
      (r = .ok () → BelowTaker s (ids.map .memory) node →
        ((sightAt P path).exec (newUnion s' ids policy')).1 = .ok (some (node.path, .file)) ∧
          ((bytesAt P path).exec (newUnion s' ids policy')).1 = .ok (some [])) := by
  intro P
  obtain ⟨r, label, o, he, -, hfound, hnode⟩ := exec_entry_new n hs policy path
  obtain ⟨rfl, rfl⟩ := Prod.mk.inj (hentry.symm.trans he)
  obtain ⟨hsound, hpath⟩ := hnode node rfl
  have hfound : found s (ids.map .memory) path = .ok (some node.offer?) := hfound.symm
  have hk : Kind.file.isCreatable = true := rfl
  obtain ⟨r, s', o', hexec, ⟨⟨e, rfl⟩, rfl, hno⟩ | ⟨made, id, i, rfl, haccepts, hplanted⟩⟩ :=
    exec_create_new n hs hstored hk hsound.path hpath.symm policy
  · have htouch := exec_touch P input (newUnion s' ids policy) out path
    rw [hexec] at htouch
    refine ⟨_, s', o', htouch, ⟨fun hr => ?_, ?_⟩, fun _ => rfl, fun _ _ _ => rfl,
      fun _ => ⟨rfl, rfl⟩, fun hr => ?_⟩
    · cases hr
    · rintro ⟨id, i, h⟩
      exact absurd h (hno id i)
    · cases hr
  · have htouch := exec_touch P input (newUnion s ids policy) out path
    rw [hexec] at htouch
    have h0 : normalize path false ≠ "" := hpath ▸ haccepts.named
    cases node with
    | root => exact absurd rfl haccepts.named
    | entry child =>
        have hns : components (normalize path false) = components (Node.entry child).path := by
          rw [hpath]
        have hofNames := hsound.path.ofNames_components
        have hprovided := provided_of_found_some (cleanTree_memory hs) h0 hfound
        obtain ⟨hat, -, -⟩ := find?_zipIdx_eq_some.mp haccepts.taker
        have hbelow := belowTaker_iff haccepts.taker child
        refine ⟨_, s', o', htouch, ⟨fun _ => ⟨id, i, haccepts⟩, fun _ => rfl⟩,
          fun hr => absurd rfl hr, fun j q => hplanted.kept j, ?_⟩
        rw [hbelow]
        obtain ⟨hhidden, hafter⟩ | ⟨hseen, hafter⟩ :=
          hplanted.found_cases rfl hs haccepts.taker h0 hns hfound
        · refine ⟨fun h => absurd ⟨rfl, hhidden⟩ h, fun _ _ => ?_⟩
          rw [← hpath, ← hofNames] at hprovided
          have := hidden_by_planted n policy' hs hplanted (fun _ => hsound.path.isName) hat
            hhidden.1 hhidden.2 hprovided hafter
          rwa [hofNames] at this
        · exact ⟨fun _ => same_of_planted n policy' policy' hs hplanted hprovided hfound hafter,
            fun _ h => absurd h hseen⟩

/-- A memory filesystem with nothing in it, and one with a text that can only be read. -/
def emptyOverText : Store where
  memories := #[{}, ⟨"memory", .only .read, ⟨⟨[("", .directory .epoch), ("a", .file [1] .epoch)]⟩⟩⟩]

theorem accepts_emptyOverText : Accepts emptyOverText [0, 1] .file "a" 0 0 where
  named := by decide
  taker := rfl
  admits := by
    intro ms h0 hms
    rw [show components "a" = ["a"] by decide] at hms ⊢
    obtain rfl : ms = ["a"] := by
      rcases List.prefix_cons_iff.mp hms with rfl | ⟨rest, rfl, hrest⟩
      · exact absurd rfl h0
      · rw [List.prefix_nil.mp hrest]
    exact .inl (by decide)

theorem touch_hides_only_below_taker_over_text :
    let P := Store.provider 1
    (∀ id ∈ [0, 1], (emptyOverText.memory id).tree.Clean) ∧
      (∀ id ∈ [0, 1], id < emptyOverText.memories.size) ∧
      ∃ w r s' o', (entry P "a").exec (newUnion emptyOverText [0, 1] .onDemand)
          = (.ok (some shownFile), w) ∧
        (execute P [] (.touch "a")).exec (newUnion emptyOverText [0, 1] .onDemand) []
          = (r, ((s', o'), [])) ∧ r = .ok () ∧
        ((bytesAt P "a").exec (newUnion s' [0, 1] .onDemand)).1 = .ok (some []) := by
  have hs : ∀ id ∈ [0, 1], (emptyOverText.memory id).tree.Clean := by decide
  have hstored : ∀ id ∈ [0, 1], id < emptyOverText.memories.size := by decide
  obtain ⟨w, he⟩ : ∃ w, (entry (Store.provider 1) "a").exec (newUnion emptyOverText [0, 1] .onDemand)
      = (.ok (some shownFile), w) := ⟨_, rfl⟩
  obtain ⟨r, s', o', htouch, hok, -, -, -, hhidden⟩ :=
    touch_hides_only_below_taker 0 hs hstored .onDemand .onDemand he [] []
  have hr := hok.mpr ⟨0, 0, accepts_emptyOverText⟩
  have hbelow : BelowTaker emptyOverText ([0, 1].map .memory) shownFile := by
    refine ⟨.memory 0, 0, rfl, by decide, ?_⟩
    rintro j ⟨⟩
    decide
  exact ⟨hs, hstored, w, r, s', o', he, htouch, hr, (hhidden hr hbelow).2⟩

/-- A text that is read in a union seems to be empty once it was touched. -/
theorem touched_text_seems_empty :
    let P := Store.provider 1
    let before := newUnion emptyOverText [0, 1] .onDemand
    let touched := (execute P [] (.touch "a")).exec before []
    let after := newUnion touched.2.1.1 [0, 1] .onDemand
    (∀ id ∈ [0, 1], (emptyOverText.memory id).tree.Clean) ∧
      ((bytesAt P "a").exec before).1.toOption = some (some [1]) ∧
      ((bytesAt P "a").exec after).1.toOption = some (some []) :=
  ⟨by decide, by decide +kernel, by decide +kernel⟩

end Strata.Shell
