/-
# `Strata.Proofs.Overlay.DeepRemoval` — a deletion by a path of several names

A union takes the first name off a path, looks it up in a listing, and hands the rest
to the entry that it leads to, which normalizes the rest again.  So the deletion goes
the way of a lookup, though not of the same names: white space at the start of a name
is lost on the way (`unindented`).  At the end of the way the name goes from every
layer, which is to say, if all layers can be read, that there was an entry to be
looked up (`delete_follows_lookup`).
-/
import Strata.Proofs.Indentation
import Strata.Proofs.Overlay.Removal

namespace Strata

open Strata.Action Strata.Path

/-- The filesystem is one in memory with a clean tree, and may be read and deleted from. -/
structure Filesystem.Serves (s : Store) (f : Filesystem) (id : Nat) : Prop where
  memory : f = .memory id
  clean : (s.memory id).tree.Clean
  readable : (s.memory id).operations.covers (.only .read) = true
  deletable : (s.memory id).operations.covers (.only .delete) = true

namespace Overlay

variable {s : Store} {layers : List Filesystem} {label : Nat → String}
  {w : Store × Overlay Filesystem Entry} {node : Node Entry}

/-- What a deletion leaves behind that answered so: if something was deleted, no layer has the path
or what lies below it any more; nothing else has changed in the memory filesystems. -/
structure Removal (s s' : Store) (layers : List Filesystem) (top : String)
    (r : Except Failure Bool) : Prop where
  gone : r = .ok true → ∀ id, .memory id ∈ layers →
    s'.memory id = { s.memory id with tree := (s.memory id).tree.removeWithin top }
  kept : ∀ id, ¬ (r = .ok true ∧ .memory id ∈ layers) → s'.memory id = s.memory id

theorem removal_of_sameTrees {s' : Store} (h : s.SameTrees s') (top : String)
    {r : Except Failure Bool} (hr : r ≠ .ok true) : Removal s s' layers top r :=
  ⟨fun ht => absurd ht hr, fun id _ => memory_congr h id⟩

section
variable (hs : ∀ f ∈ layers, ∃ id, f.Serves s id) (n : Nat)
include hs

omit n in
theorem cleanTree_of_serves : ∀ f ∈ layers, f.CleanTree s := by
  intro f hf
  obtain ⟨id, hserves⟩ := hs f hf
  rw [hserves.memory]
  exact hserves.clean

omit n in
/-- A deletion asks every layer that has the directory. -/
theorem deletes_iff_mem {path : String} {id : Nat} :
    (∃ f ∈ layers, f.Deletes s path id) ↔ .memory id ∈ layers := by
  constructor
  · rintro ⟨f, hf, hdel⟩
    obtain ⟨j, hserves⟩ := hs f hf
    obtain rfl := hserves.memory
    obtain rfl := Option.some.inj hdel.memory
    exact hf
  · intro hf
    obtain ⟨j, hserves⟩ := hs _ hf
    obtain rfl := Filesystem.memory.inj hserves.memory
    exact ⟨_, hf, rfl, hserves.deletable, fun _ => rfl, fun _ => rfl⟩

omit n in
/-- Where all layers can be read, a path is provided if some layer has it. -/
theorem isSome_provided_iff {path : String} :
    (provided s layers path).isSome = true ↔
      ∃ id, .memory id ∈ layers ∧ ((s.memory id).kind path).exists? = true := by
  rw [isSome_provided]
  constructor
  · rintro ⟨f, hf, hholds⟩
    obtain ⟨id, hserves⟩ := hs f hf
    obtain rfl := hserves.memory
    rw [holds, Bool.and_eq_true] at hholds
    exact ⟨id, hf, hholds.2⟩
  · rintro ⟨id, hf, hexists⟩
    obtain ⟨j, hserves⟩ := hs _ hf
    obtain rfl := Filesystem.memory.inj hserves.memory
    refine ⟨_, hf, ?_⟩
    rw [holds, Bool.and_eq_true]
    exact ⟨hserves.readable, hexists⟩

omit n in
theorem serves_congr {s' : Store} (h : s.SameTrees s') : ∀ f ∈ layers, ∃ id, f.Serves s' id := by
  intro f hf
  obtain ⟨id, hserves⟩ := hs f hf
  have hmem := memory_congr h id
  exact ⟨id, hserves.memory, hmem ▸ hserves.clean, hmem ▸ hserves.readable,
    hmem ▸ hserves.deletable⟩

/-- Deleting a name from the directory at a path tells whether the path of the name was provided. -/
theorem exec_deleteInLayers_of_serves {path name : String} (hp : Path.Clean path)
    (hname : IsName name) {t : Store} (ht : s.SameTrees t) :
    ∃ s', (deleteInLayers (Store.provider (n + 1)) path name layers false).exec t =
        (.ok (provided s layers (join path name)).isSome, s') ∧
      Removal s s' layers (join path name) (.ok (provided s layers (join path name)).isSome) := by
  have hserve := serves_congr hs ht
  have hback : ∀ f ∈ layers, ∃ id, f.Backed t id := by
    intro f hf
    obtain ⟨id, hserves⟩ := hserve f hf
    exact ⟨id, hserves.memory ▸ rfl, hserves.clean⟩
  have hfault : ∀ f ∈ layers, ∀ e, f.childFault = some e ∨ f.deleteFault = some e →
      e.isFilesystem = true := by
    intro f hf e he
    obtain ⟨id, hserves⟩ := hserve f hf
    rw [hserves.memory] at he
    rcases he with he | he <;> cases he
  obtain ⟨b, s', hexec, hpruned, hb⟩ :=
    exec_deleteInLayers_exact n hp hname layers hback hfault false
  have hgone : b = (provided s layers (join path name)).isSome := by
    rw [Bool.eq_iff_iff, hb, isSome_provided_iff hs]
    constructor
    · rintro (hfalse | ⟨f, hf, id, hdel, hexists⟩)
      · cases hfalse
      · rw [memory_congr ht] at hexists
        exact ⟨id, (deletes_iff_mem hserve).mp ⟨f, hf, hdel⟩, hexists⟩
    · rintro ⟨id, hf, hexists⟩
      obtain ⟨f, hf, hdel⟩ : ∃ f ∈ layers, f.Deletes t path id := (deletes_iff_mem hserve).mpr hf
      exact .inr ⟨f, hf, id, hdel, by rwa [memory_congr ht]⟩
  refine ⟨s', by rw [hexec, hgone], fun _ id hid => ?_, fun id hno => ?_⟩
  · rw [hpruned.gone id ((deletes_iff_mem hserve).mpr hid), memory_congr ht]
  · by_cases hid : .memory id ∈ layers
    · -- the layer has nothing at the path, as none has
      have hmiss : (s.memory id).tree.kind (join path name) = .unknown := by
        by_contra hk
        refine hno ⟨congrArg Except.ok ((isSome_provided_iff hs).mpr ⟨id, hid, ?_⟩), hid⟩
        exact Kind.exists?_iff.mpr hk
      obtain ⟨j, hserves⟩ := hs _ hid
      obtain rfl := Filesystem.memory.inj hserves.memory
      have hsame := hserves.clean.removeWithin_of_missing
        (forall_mem_snoc (fun _ => hp.isName) hname) (hp.join_eq_snoc hname ▸ hmiss)
      rw [hpruned.gone id ((deletes_iff_mem hserve).mpr hid), memory_congr ht,
        hp.join_eq_snoc hname, hsame]
    · rw [hpruned.kept id (mt (deletes_iff_mem hserve).mp hid), memory_congr ht]

/-- A union with a layer at all may be asked to delete. -/
theorem operations_covers_delete (hne : layers ≠ []) (hw : Over s layers w) :
    (operations (Store.provider (n + 1)) w.2 w.1).covers (.only .delete) = true := by
  obtain ⟨f, hf⟩ := List.exists_mem_of_ne_nil layers hne
  obtain ⟨id, hserves⟩ := hs f hf
  obtain rfl := hserves.memory
  rw [operations_covers_only, hw.layers, List.any_eq_true]
  refine ⟨_, hf, ?_⟩
  show (w.1.memory id).operations.covers (.only .delete) = true
  rw [memory_congr hw.trees]
  exact hserves.deletable

/-- The child of a name is the one that the layers provide, whatever is cached. -/
theorem exec_listedChild (hw : Over s layers w)
    (h : Holds layers label (AsMerged s layers) w.2 node) {c : String} (hc : IsComponent c) :
    ∃ r label' w', (listedChild (Store.provider (n + 1)) node c).exec w = (.ok r, w') ∧
      Quiet s layers label w label' w' ∧
      r.map Node.offer? = (provided s layers (ofNames (components node.path ++ [c]))).map some ∧
      ∀ m, r = some m → Holds layers label' (AsMerged s layers) w'.2 m ∧
        components m.path = components node.path ++ [c] := by
  have hclean := cleanTree_of_serves hs
  obtain ⟨label', w', he, hd, -, hq, -⟩ := exec_listed hclean n hw h.sound
  have h' := hq.holds _ node (asMerged s layers) h
  have hguide := guides_merged hclean
    (forall_mem_snoc (fun _ => isComponent_of_mem) hc : ∀ m ∈ components node.path ++ [c], _)
  have hfits : AsMerged s layers (ofNames (components node.path))
      (w'.2.listing node.slot).offers := by
    rw [h.sound.path.ofNames_components]
    exact h'.sound.fits hd
  have hlookup := hguide _ _ _ List.prefix_rfl hfits
  rw [lookup_offers] at hlookup
  refine ⟨((w'.2.listing node.slot).children.lookup c).map .entry, label', w', ?_, hq, ?_, ?_⟩
  · simp only [listedChild, exec_bind, he, exec_pure]
  · rw [← hlookup, Option.map_map, Option.map_map]
    rfl
  · intro m hm
    obtain ⟨child, hl, rfl⟩ := Option.map_eq_some_iff.mp hm
    have hat : w'.2.cached node [c] = some (.entry child) :=
      cached_cons.mpr ⟨hd, child, hl, cached_nil _ _⟩
    exact ⟨h'.of_cached hat, h'.path_of_cached hat⟩

/-- Something is deleted from a directory only, and its first name is split off there. -/
theorem exec_deleteWithin_succ (hne : layers ≠ []) (hw : Over s layers w)
    (h : Sound layers label (AsMerged s layers) w.2 node) (depth : Nat) {name : String}
    (h0 : normalize name false ≠ "") :
    (deleteWithin (Store.provider (n + 1)) (depth + 1) node name).exec w =
      if (kindAt s node.offer?).isDirectory then
        match splitHead (normalize name false) with
        | (first, some rest) => (do
            let child? ← listedChild (Store.provider (n + 1)) node first
            child?.elim (return false)
              fun child => deleteWithin (Store.provider (n + 1)) depth child rest).exec w
        | (last, none) => (do
            let name ← spelling (Store.provider (n + 1)) node last
            let deleted ← below (deleteInLayers (Store.provider (n + 1)) node.path name
              (← current).layers false)
            if deleted then noteChange node
            return deleted).exec w
      else (.error (.notADirectory node.path), w) := by
  have hcan := operations_covers_delete hs n hne hw
  rw [deleteWithin]
  simp only [exec_bind, exec_requireLive hw.live, exec_require, if_pos hcan,
    exec_requireDirectory (cleanTree_of_serves hs) n hw h]
  cases (kindAt s node.offer?).isDirectory with
  | false => simp only [Bool.false_eq_true, if_false]
  | true =>
      simp only [if_true, exec_current, hw.fold, String.isEmpty_iff, if_neg h0]
      rcases splitHead (normalize name false) with ⟨c, _ | rest⟩
      · simp only [exec_bind, exec_current]
      · simp only [exec_bind]
        rcases (listedChild (Store.provider (n + 1)) node c).exec w with ⟨_ | _ | _, _⟩ <;> rfl

/-- The last name of a path goes from every layer. -/
theorem exec_deleteLast (hw : Over s layers w) (hp : Path.Clean node.path) {c : String}
    (hname : IsName c) :
    ∃ w', (do
        let name ← spelling (Store.provider (n + 1)) node c
        let deleted ← below (deleteInLayers (Store.provider (n + 1)) node.path name
          (← current).layers false)
        if deleted then noteChange node
        return deleted : Call Store Filesystem Entry Bool).exec w =
        (.ok (provided s layers (ofNames (components node.path ++ [c]))).isSome, w') ∧
      Removal s w'.1 layers (ofNames (components node.path ++ [c]))
        (.ok (provided s layers (ofNames (components node.path ++ [c]))).isSome) := by
  obtain ⟨s', hexec, hremoval⟩ := exec_deleteInLayers_of_serves hs n hp hname hw.trees
  rw [hp.join_eq_snoc hname] at hexec hremoval
  simp only [spelling, exec_bind, exec_current, hw.fold, Bool.false_eq_true, if_false, exec_pure,
    exec_below, hw.layers, hexec]
  cases hprov : provided s layers (ofNames (components node.path ++ [c])) with
  | none =>
      rw [hprov] at hremoval
      exact ⟨_, rfl, hremoval⟩
  | some offer =>
      rw [hprov] at hremoval
      simp only [Option.isSome_some, if_true, exec_bind, exec_noteChange, exec_pure]
      exact ⟨_, rfl, hremoval⟩

/-- Deleting through a node goes where the names of the path lead that are left without the white
space before them, and tells whether they lead somewhere. -/
theorem exec_deleteWithin_exact (hne : layers ≠ []) (hw : Over s layers w)
    (h : Holds layers label (AsMerged s layers) w.2 node) {depth : Nat} {name : String}
    (h0 : normalize name false ≠ "")
    (hdepth : (components (normalize name false)).length ≤ depth) :
    ∃ r w', (deleteWithin (Store.provider (n + 1)) depth node name).exec w = (r, w') ∧
      r = (follow s layers (components node.path) node.offer?
        (unindented (components (normalize name false)))).map Option.isSome ∧
      Removal s w'.1 layers
        (ofNames (components node.path ++ unindented (components (normalize name false)))) r := by
  induction depth generalizing node name label w with
  | zero =>
      have hnil := List.length_eq_zero_iff.mp (Nat.le_zero.mp hdepth)
      rw [← ofNames_components_normalize, hnil] at h0
      exact absurd ofNames_nil h0
  | succ depth ih =>
      have hopen := exec_deleteWithin_succ hs n hne hw h.sound depth h0
      have hisPath := isPath_components name
      have hnorm := ofNames_components_normalize name
      generalize components (normalize name false) = names at hdepth hisPath hnorm ⊢
      obtain ⟨c, cs, rfl⟩ := List.exists_cons_of_ne_nil (l := names) fun hnil =>
        h0 (hnorm ▸ hnil ▸ ofNames_nil)
      have hc := hisPath.component c (by simp)
      have hsplit : splitHead (ofNames (c :: cs)) = _ := splitHead_ofNames_cons hc
      rw [hnorm] at hsplit
      rw [hisPath.unindented_cons, follow, hopen, hsplit]
      cases hd : (kindAt s node.offer?).isDirectory with
      | false =>
          refine ⟨_, _, rfl, ?_, removal_of_sameTrees hw.trees _ (by simp)⟩
          rw [h.sound.path.ofNames_components]
          rfl
      | true =>
          by_cases hcs : cs = []
          · -- the last name is trimmed
            subst hcs
            obtain ⟨w', he, hremoval⟩ := exec_deleteLast hs n hw h.sound.path hisPath.isName
            refine ⟨_, w', he, ?_, hremoval⟩
            cases provided s layers (ofNames (components node.path ++ [c])) <;> rfl
          · obtain ⟨r, label₁, w₁, he₁, hq₁, hr, hheld⟩ := exec_listedChild hs n hw h hc
            simp only [if_true, if_neg hcs, exec_bind, he₁]
            cases r with
            | none =>
                refine ⟨_, w₁, rfl, ?_, removal_of_sameTrees hq₁.base.trees _ (by simp)⟩
                cases hprov : provided s layers (ofNames (components node.path ++ [c])) with
                | none => rfl
                | some offer =>
                    rw [hprov] at hr
                    cases hr
            | some child =>
                obtain ⟨h₁, hpath⟩ := hheld child rfl
                obtain ⟨offer, hprov, hoffer⟩ := Option.map_eq_some_iff.mp hr.symm
                obtain ⟨hrest, hread, hlen⟩ := hisPath.isTail.components_normalize hcs
                have hless := hlen.trans (Nat.le_of_succ_le_succ hdepth)
                obtain ⟨r, w', he, hr', hremoval⟩ := ih hq₁.base h₁ hrest hless
                rw [hread, hpath] at hr' hremoval
                rw [List.append_assoc] at hremoval
                refine ⟨r, w', he, ?_, hremoval⟩
                rw [hprov, hr', ← hoffer]

end

/-! ## From the root -/

/-- The path that a deletion goes along when it is given a text. -/
def pathRead (path : String) : String := ofNames (unindented (components (normalize path false)))

theorem components_pathRead (path : String) :
    components (normalize (pathRead path) false)
      = unindented (components (normalize path false)) := by
  have hpath := isPath_components path
  have hread := IsTail.isPath_unindented ⟨hpath.component, hpath.back⟩
  rw [pathRead, hread.normalize_ofNames, components_ofNames hread.component]

/-- If no name of a path starts with white space, then the deletion goes along that path. -/
theorem pathRead_eq_normalize {path : String}
    (hfront : ∀ m ∈ components (normalize path false), ∀ c ∈ m.toList.head?,
      Text.isBlank c = false) : pathRead path = normalize path false := by
  rw [pathRead, unindented_eq_self (fun _ => isComponent_of_mem) hfront,
    ofNames_components_normalize]

/-- What is called after the root was marked as dirty is called with nothing cached. -/
theorem exec_invalidate_root {α : Type} (x : Call Store Filesystem Entry α)
    (w : Store × Overlay Filesystem Entry) :
    (do invalidateNode .root; x : Call Store Filesystem Entry α).exec w
      = x.exec (w.1, w.2.invalidate 0) := rfl

section
variable (hs : ∀ f ∈ layers, f.CleanTree s) (n : Nat)

/-- Whether a path leads somewhere, as the layers say. -/
theorem isSome_entry (hs : ∀ f ∈ layers, f.CleanTree s) (hw : Over s layers w)
    (h : Holds layers label (AsMerged s layers) w.2 .root) (path : String) :
    ((entry (Store.provider (n + 1)) path).exec w).1.map Option.isSome
      = (found s layers path).map Option.isSome := by
  obtain ⟨r, label', w', he, -, -, hr, -⟩ := exec_entry hs n (asMerged s layers) path hw h
  rw [he, ← hr (guides_merged hs fun _ => isComponent_of_mem)]
  rcases r with e | node
  · rfl
  · cases node <;> rfl

/-- Without layers a union refuses to delete. -/
theorem exec_delete_of_no_layers (hlive : w.2.released = false) (hnil : w.2.layers = [])
    (path : String) :
    (delete (Store.provider (n + 1)) .root path).exec w =
      (.error (.unsupported "no filesystem in the union supports deleting: "), w) := by
  obtain ⟨depth, hdepth⟩ : ∃ depth, (pieces path.toList).length = depth + 1 :=
    Nat.exists_eq_succ_of_ne_zero fun h0 => Text.split_ne_nil _ _ (List.length_eq_zero_iff.mp h0)
  have hcan : (operations (Store.provider (n + 1)) w.2 w.1).covers (.only .delete) = false := by
    rw [operations_covers_only, hnil]
    rfl
  rw [delete, hdepth, deleteWithin]
  simp only [exec_bind, exec_requireLive hlive, exec_require, hcan, Bool.false_eq_true, if_false]
  rfl

end

/-- Whatever was done before with a union over memory filesystems that all can be read and deleted
from: with nothing cached, a deletion from the root answers as a lookup does, true for an entry,
false for none, and that a file is on the way; what it removes is what lies within the path that was
looked up, from every layer, and nothing if there was no entry.  The path is the one that the text
names, but for white space at the start of a name. -/
theorem delete_follows_lookup {n : Nat} {layers₀ : List Filesystem} {policy : Policy} {s₀ : Store}
    {held : List (Node Entry)} {w : Store × Overlay Filesystem Entry}
    (h : Reaches (Store.provider (n + 1)) (fun _ _ => True) (fun _ _ => True) [.root]
      (s₀, { layers := layers₀, policy := policy }) held w)
    (hs : ∀ f ∈ w.2.layers, ∃ id, f.Serves w.1 id) {path : String}
    (h0 : normalize path false ≠ "") :
    let looked := fun p =>
      ((do invalidateNode .root; entry (Store.provider (n + 1)) p).exec w).1.map Option.isSome
    ∃ (r : Except Failure Bool) (s' : Store) (o' : Overlay Filesystem Entry),
      (do invalidateNode .root; delete (Store.provider (n + 1)) .root path).exec w = (r, (s', o')) ∧
      r = (if w.2.layers = [] then
          .error (.unsupported "no filesystem in the union supports deleting: ")
        else looked (pathRead path)) ∧
      ((∀ m ∈ components (normalize path false), ∀ c ∈ m.toList.head?, Text.isBlank c = false) →
        looked (pathRead path) = looked path) ∧
      Removal w.1 s' w.2.layers (pathRead path) r := by
  intro looked
  obtain ⟨s, o⟩ := w
  have hsteady := h.steady
  have hw : Over s o.layers (s, o.invalidate 0) :=
    ⟨.refl s, rfl, hsteady.fold, hsteady.released⟩
  have hroot : Holds o.layers (fun _ => "") (AsMerged s o.layers) (o.invalidate 0) .root := by
    refine holds_root ?_ rfl (by rw [listing_invalidate, if_pos rfl])
    rw [size_invalidate]
    exact Nat.lt_of_lt_of_le Nat.zero_lt_one hsteady.size
  have hlooked (p : String) : looked p = (found s o.layers p).map Option.isSome :=
    isSome_entry n (cleanTree_of_serves hs) hw hroot p
  have hplain (hfront : ∀ m ∈ components (normalize path false), ∀ c ∈ m.toList.head?,
      Text.isBlank c = false) : looked (pathRead path) = looked path := by
    rw [hlooked, hlooked, found, found, pathRead_eq_normalize hfront, normalize_normalize]
  by_cases hnil : o.layers = []
  · refine ⟨_, s, o.invalidate 0, exec_delete_of_no_layers n hw.live hnil path, ?_, hplain, ?_⟩
    · rw [if_pos hnil]
    · exact removal_of_sameTrees (.refl s) _ (by simp)
  · obtain ⟨r, ⟨s', o'⟩, hexec, hr, hremoval⟩ := exec_deleteWithin_exact hs n hnil hw hroot h0
      (length_components_normalize path)
    have hempty : components (Node.root : Node Entry).path = [] := components_empty
    rw [hempty] at hr hremoval
    rw [List.nil_append] at hremoval
    refine ⟨r, s', o', hexec, ?_, hplain, hremoval⟩
    rw [if_neg hnil, hlooked, found, components_pathRead]
    exact hr

/-- Two memory filesystems, the second with a file in a directory. -/
def lowerFile : Store where
  memories := #[{ tree := ⟨⟨[("", .directory .epoch), ("a", .directory .epoch)]⟩⟩ },
    { tree := ⟨⟨[("", .directory .epoch), ("a", .directory .epoch),
      ("a/b", .file [1] .epoch)]⟩⟩ }]

theorem delete_follows_lookup_lowerFile :
    let o : Overlay Filesystem Entry := { layers := [.memory 0, .memory 1] }
    Reaches (Store.provider 1) (fun _ _ => True) (fun _ _ => True) [.root] (lowerFile, o) [.root]
        (lowerFile, o) ∧
      (∀ f ∈ o.layers, ∃ id, f.Serves lowerFile id) ∧ normalize "/a//b/ " false ≠ "" ∧
      ∃ s' o', (do invalidateNode .root; delete (Store.provider 1) .root "/a//b/ ").exec
          (lowerFile, o) = (.ok true, (s', o')) ∧
        (s'.memory 1).kind "a/b" = .unknown ∧ (s'.memory 1).kind "a" = .directory := by
  intro o
  have hs : ∀ f ∈ o.layers, ∃ id, f.Serves lowerFile id := by
    simp only [o, List.forall_mem_cons]
    exact ⟨⟨0, rfl, by decide, by decide, by decide⟩, ⟨1, rfl, by decide, by decide, by decide⟩,
      by simp⟩
  have h0 : normalize "/a//b/ " false ≠ "" := by decide
  obtain ⟨r, s', o', hexec, hr, -, hremoval⟩ := delete_follows_lookup .start hs h0
  have hread : pathRead "/a//b/ " = "a/b" := by decide
  have hlooked : ((do invalidateNode .root; entry (Store.provider 1) "a/b").exec
      (lowerFile, o)).1.map Option.isSome = .ok true := by decide +kernel
  rw [if_neg (List.cons_ne_nil _ _), hread] at hr
  obtain rfl := hr.trans hlooked
  have hgone := hremoval.gone rfl 1 (by simp)
  rw [hread] at hgone
  refine ⟨.start, hs, h0, s', o', hexec, ?_, ?_⟩
  · rw [hgone]
    decide
  · rw [hgone]
    decide

/-- A file is deleted by a path that leads to no entry. -/
theorem indented_name_deleted :
    let o : Overlay Filesystem Entry := { layers := [.memory 1] }
    (∀ f ∈ o.layers, ∃ id, f.Serves lowerFile id) ∧ normalize "a/ b" false ≠ "" ∧
      ((entry (Store.provider 1) "a/ b").exec (lowerFile, o)).1.map Option.isSome = .ok false ∧
      ((delete (Store.provider 1) .root "a/ b").exec (lowerFile, o)).1 = .ok true ∧
      (((delete (Store.provider 1) .root "a/ b").exec (lowerFile, o)).2.1.memory 1).kind "a/b"
        = .unknown := by
  exact ⟨List.forall_mem_singleton.mpr ⟨1, rfl, by decide, by decide, by decide⟩, by decide,
    by decide +kernel, by decide +kernel, by decide +kernel⟩

end Overlay

end Strata
