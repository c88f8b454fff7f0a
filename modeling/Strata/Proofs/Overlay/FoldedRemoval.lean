/-
# `Strata.Proofs.Overlay.FoldedRemoval` — deleting a name where case is folded

A union that folds case looks a name up in the listing and hands the spelling that
it finds there to every layer.  A layer compares names letter by letter, so it
removes that spelling and no other: the name is gone from the union only if all
layers that have it spell it alike, and otherwise the first of the other spellings
comes to light (`delete_removes_one_spelling`).
-/
import Strata.Proofs.Overlay.DeepRemoval
import Strata.Proofs.Overlay.Folding

namespace Strata.Path

/-- A text of one name is that name, in lower case. -/
theorem normalize_fold_of_single {path c : String} (h : components (normalize path true) = [c]) :
    normalize path true = c ∧ IsName c := by
  refine ⟨by rw [← ofNames_components_normalize_fold, h, ofNames_singleton], ?_⟩
  rw [components_normalize_fold] at h
  obtain ⟨x, hx, rfl⟩ := List.map_eq_singleton_iff.mp h
  exact (IsPath.isName (hx ▸ isPath_components path)).lower

end Strata.Path

namespace Strata.Overlay

open Strata.Action Strata.Path

variable {s s' : Store} {layers : List Filesystem} {w : Store × Overlay Filesystem Entry}
  {node : Node Entry} {c name : String}

/-! ## A name in the listing -/

theorem lastName_of_name {x : String} (hx : IsName x) : lastName x = x := by
  have hlast : lastName (ofNames ([] ++ [x])) = x := lastName_ofNames_snoc hx.1
  rwa [List.nil_append, ofNames_singleton] at hlast

section
variable (n : Nat) (hs : ∀ f ∈ layers, f.CleanTree s)
include hs

/-- The child of a folded name is the first that the layers have. -/
theorem Fresh.exec_listedChild (h : Fresh s layers w node) (hc : c ≠ "") :
    ∃ r, (listedChild (Store.provider (n + 1)) node c).exec w = (.ok r, listedAt s layers w node) ∧
      r.map Node.offer? = (beneath s layers node.path c).map some := by
  refine ⟨((assignSlots w.2.listings.size (folded s layers node.path)).lookup c).map .entry, ?_, ?_⟩
  · simp only [listedChild, exec_bind, h.exec_listed n hs, exec_pure]
  · rw [← lookup_folded hc, ← map_offer_assignSlots w.2.listings.size (folded s layers node.path),
      lookup_map_offer, map_offer_assignSlots, Option.map_map, Option.map_map]
    rfl

/-- A name leads from the root to the first entry of that folded name. -/
theorem Fresh.exec_entry_name (h : Fresh s layers w .root)
    (hname : components (normalize name true) = [c]) :
    ∃ r, (entry (Store.provider (n + 1)) name).exec w = (.ok r, listedAt s layers w .root) ∧
      r.map Node.offer? = (beneath s layers "" c).map some := by
  obtain ⟨hnorm, hc⟩ := normalize_fold_of_single hname
  obtain ⟨r, he, hr⟩ := h.exec_listedChild n hs hc.1.1
  refine ⟨r, ?_, hr⟩
  rw [hnorm] at hname
  rw [entry]
  simp only [exec_bind, exec_current, h.fold, hnorm, String.isEmpty_iff, if_neg hc.1.1,
    lookup, hname, exec_requireLive h.live, h.exec_requireDirectory_root n hs, descend, he]
  cases r <;> rfl

/-- The layers are asked for the spelling of the first that has the name, or for the folded name. -/
theorem Fresh.exec_spelling (h : Fresh s layers w node) (hc : c ≠ "") :
    (spelling (Store.provider (n + 1)) node c).exec w =
      (.ok (((beneath s layers node.path c).map fun o => lastName o.path).getD c),
        listedAt s layers w node) := by
  obtain ⟨r, he, hr⟩ := h.exec_listedChild n hs hc
  rw [spelling]
  simp only [exec_bind, exec_current, h.fold, if_true, he]
  cases hb : beneath s layers node.path c with
  | none =>
      rw [hb, Option.map_none, Option.map_eq_none_iff] at hr
      subst hr
      rfl
  | some o =>
      rw [hb] at hr
      obtain ⟨m, rfl, hm⟩ := Option.map_eq_some_iff.mp hr
      rw [Option.map_some, Option.getD_some, ← show m.path = o.path by
        rw [← pathAt_offer, hm]; rfl]
      rfl

end

/-! ## What a deletion leaves to be shown -/

section
variable {top : String} {r : Except Failure Bool} {f : Filesystem}

/-- A deletion takes away from a layer, or leaves it as it was. -/
theorem Removal.memory_cases (h : Removal s s' layers top r) (id : Nat) :
    s'.memory id = { s.memory id with tree := (s.memory id).tree.removeWithin top } ∨
      s'.memory id = s.memory id := by
  by_cases hgone : r = .ok true ∧ .memory id ∈ layers
  · exact .inl (h.gone hgone.1 id hgone.2)
  · exact .inr (h.kept id hgone)

theorem Removal.cleanTree (h : Removal s s' layers top r) (htop : IsName top)
    (hs : ∀ f ∈ layers, ∃ id, f.Serves s id) : ∀ f ∈ layers, f.CleanTree s' := by
  intro f hf
  obtain ⟨id, hserves⟩ := hs f hf
  rw [hserves.memory]
  show (s'.memory id).tree.Clean
  rcases h.memory_cases id with heq | heq
  · rw [heq, ← ofNames_singleton top]
    exact hserves.clean.removeWithin (List.forall_mem_singleton.mpr htop) (List.cons_ne_nil _ _)
  · rw [heq]
    exact hserves.clean

/-- What a layer has afterwards it had before. -/
theorem Removal.holds_of_holds (h : Removal s s' layers top r)
    (hs : ∃ id, f.Serves s id) {p : String} (hp : holds s' p f = true) : holds s p f = true := by
  obtain ⟨id, hserves⟩ := hs
  obtain rfl := hserves.memory
  rw [holds, Bool.and_eq_true] at hp ⊢
  obtain ⟨hread, hexists⟩ : (s'.memory id).operations.covers (.only .read) = true ∧
    ((s'.memory id).tree.kind p).exists? = true := hp
  show (s.memory id).operations.covers (.only .read) = true ∧
    ((s.memory id).tree.kind p).exists? = true
  rcases h.memory_cases id with heq | heq
  · rw [heq] at hread hexists
    refine ⟨hread, ?_⟩
    rw [Memory.Tree.kind_removeWithin] at hexists
    split at hexists
    · cases hexists
    · exact hexists
  · rw [heq] at hread hexists
    exact ⟨hread, hexists⟩

theorem Removal.distinctFolded (h : Removal s s' layers top r)
    (hs : ∀ f ∈ layers, ∃ id, f.Serves s id) (hd : ∀ f ∈ layers, DistinctFolded s f) :
    ∀ f ∈ layers, DistinctFolded s' f := fun f hf p q hp hq =>
  hd f hf p q (h.holds_of_holds (hs f hf) hp) (h.holds_of_holds (hs f hf) hq)

/-- Of the names in the root, the one that was deleted is gone, and the others are still there. -/
theorem Removal.holds_name_iff (h : Removal s s' layers top (.ok true)) (htop : IsName top)
    (hs : ∃ id, f.Serves s id) (hf : f ∈ layers) {x : String} (hx : IsName x) :
    holds s' x f = true ↔ holds s x f = true ∧ x ≠ top := by
  obtain ⟨id, hserves⟩ := hs
  obtain rfl := hserves.memory
  have hkind := (s.memory id).tree.kind_removeWithin_ofNames
    (List.forall_mem_singleton.mpr hx.1) (List.forall_mem_singleton.mpr htop.1)
  rw [ofNames_singleton, ofNames_singleton] at hkind
  have hgone : holds s' x (.memory id) = ((s.memory id).operations.covers (.only .read) &&
      (((s.memory id).tree.removeWithin top).kind x).exists?) := by
    show ((s'.memory id).operations.covers (.only .read) &&
      ((s'.memory id).tree.kind x).exists?) = _
    rw [h.gone rfl id hf]
  rw [hgone, hkind]
  by_cases heq : x = top
  · subst heq
    simp [Kind.exists?]
  · have hpre : ¬ [top] <+: [x] := fun hpre => heq (List.cons_prefix_cons.mp hpre).1.symm
    rw [if_neg hpre]
    exact (and_iff_left heq).symm

end

theorem Fresh.noted {o : Overlay Filesystem Entry}
    (h : Fresh s layers (s, o.invalidate 0) .root) :
    Fresh s layers (s, (o.noted 0).invalidate 0) .root := by
  rw [Overlay.noted]
  split
  · refine fresh_invalidated h.stack h.fold h.live ?_
    have hsize := h.slot
    rwa [size_invalidate] at hsize ⊢
  · exact h

/-- The deletion of a name asks each layer for the spelling that is listed. -/
theorem Fresh.exec_delete_name (n : Nat) (hs : ∀ f ∈ layers, ∃ id, f.Serves s id)
    (hne : layers ≠ []) (h : Fresh s layers w .root)
    (hname : components (normalize name true) = [c]) {x : String} (hx : IsName x)
    (hspelled : ((beneath s layers "" c).map fun o => lastName o.path).getD c = x) :
    ∃ s' o', (delete (Store.provider (n + 1)) .root name).exec w =
        (.ok (provided s layers x).isSome, (s', o')) ∧
      Removal s s' layers x (.ok (provided s layers x).isSome) ∧
      Fresh s' layers (s', o'.invalidate 0) .root := by
  have hclean := cleanTree_of_serves hs
  obtain ⟨hnorm, hc⟩ := normalize_fold_of_single hname
  obtain ⟨depth, hdepth⟩ : ∃ depth, (pieces name.toList).length = depth + 1 :=
    Nat.exists_eq_succ_of_ne_zero fun h0 => Text.split_ne_nil _ _ (List.length_eq_zero_iff.mp h0)
  have hsplit : splitHead c = (c, none) := by
    have : splitHead (ofNames [c]) = _ := splitHead_ofNames_cons hc.1
    rwa [ofNames_singleton, if_pos rfl] at this
  have hcan : (operations (Store.provider (n + 1)) w.2 w.1).covers (.only .delete) = true := by
    rw [operations_covers_of_trees hclean n h.trees h.stack, List.any_eq_true]
    obtain ⟨f, hf⟩ := List.exists_mem_of_ne_nil layers hne
    obtain ⟨id, hserves⟩ := hs f hf
    obtain rfl := hserves.memory
    exact ⟨_, hf, hserves.deletable⟩
  have hdir := h.exec_requireDirectory_root n hclean
  have hspell := h.exec_spelling n hclean hc.1.1
  rw [show (Node.root : Node Entry).path = "" from rfl, hspelled] at hspell
  have hlisted : s.SameTrees (listedAt s layers w .root).1 :=
    h.trees.trans (sameTrees_afterMerge _ _ _)
  obtain ⟨s', hexec, hremoval⟩ := exec_deleteInLayers_of_serves hs n clean_empty hx hlisted
  rw [join_root hx] at hexec hremoval
  have hafter : Fresh s' layers (s', (listedAt s layers w .root).2.invalidate 0) .root :=
    fresh_invalidated h.stack h.fold h.live (by
      rw [listedAt, size_install]
      exact Nat.lt_add_right _ h.slot)
  refine ⟨s', if (provided s layers x).isSome then
    (listedAt s layers w .root).2.noted 0 else (listedAt s layers w .root).2, ?_, hremoval, ?_⟩
  · have hstack : (listedAt s layers w .root).2.layers = layers := h.stack
    rw [delete, hdepth, deleteWithin]
    simp only [exec_bind, exec_requireLive h.live, exec_require, if_pos hcan, hdir, exec_current,
      h.fold, hnorm, String.isEmpty_iff, if_neg hc.1.1, hsplit, hspell, exec_below, hstack,
      show (Node.root : Node Entry).path = "" from rfl, hexec]
    cases (provided s layers x).isSome with
    | true =>
        simp only [if_true, exec_bind, exec_noteChange, exec_pure]
        rfl
    | false => simp only [Bool.false_eq_true, if_false, exec_pure]
  · split
    · exact hafter.noted
    · exact hafter

/-! ## One spelling -/

section
variable (n : Nat) (hs : ∀ f ∈ layers, ∃ id, f.Serves s id)
include hs

/-- After a name was deleted from the root, a name that folds leads to the first of the other
spellings that some layer had, and nowhere if there is none. -/
theorem Removal.entry_after (hd : ∀ f ∈ layers, DistinctFolded s f) {x : String} (hx : IsName x)
    (h : Removal s s' layers x (.ok true)) {o' : Overlay Filesystem Entry}
    (hafter : Fresh s' layers (s', o'.invalidate 0) .root)
    (hname : components (normalize name true) = [c]) :
    ∃ r, ((do invalidateNode .root; entry (Store.provider (n + 1)) name).exec (s', o')).1 = .ok r ∧
      (r = none ↔ ∀ f ∈ layers, ∀ y, IsName y → lower y = c → holds s y f = true → y = x) ∧
      ∀ m, r = some m → ∃ o, m.offer? = some o ∧ Offers s' layers "" c o ∧ o.path ≠ x := by
  have hclean' := h.cleanTree hx hs
  obtain ⟨r, he, hr⟩ := hafter.exec_entry_name n hclean' hname
  have hmiss : r = none ↔ beneath s' layers "" c = none := by
    have hnone := congrArg (· = none) hr
    simpa only [Option.map_eq_none_iff, eq_iff_iff] using hnone
  have hholds {f : Filesystem} (hf : f ∈ layers) {y : String} (hy : IsName y) :
      holds s' (join "" y) f = true ↔ holds s y f = true ∧ y ≠ x := by
    rw [join_root hy]
    exact h.holds_name_iff hx (hs f hf) hf hy
  refine ⟨r, by rw [exec_invalidate_root, he], ?_, ?_⟩
  · rw [hmiss, beneath_eq_none hclean' clean_empty]
    constructor
    · intro hall f hf y hy hkey hold
      by_contra hne
      exact hall f hf ⟨y, hy, hkey, (hholds hf hy).mpr ⟨hold, hne⟩⟩
    · rintro hall f hf ⟨y, hy, hkey, hnew⟩
      obtain ⟨hold, hne⟩ := (hholds hf hy).mp hnew
      exact hne (hall f hf y hy hkey hold)
  · rintro m rfl
    obtain ⟨o, hbeneath, hoffer⟩ := Option.map_eq_some_iff.mp hr.symm
    have ho := (beneath_eq_some hclean' (h.distinctFolded hs hd) clean_empty).mp hbeneath
    refine ⟨o, hoffer.symm, ho, ?_⟩
    obtain ⟨f, y, hat, hy, -, hnew, heq⟩ := ho.here
    rw [show o.path = y from (congrArg Offer.path heq).trans (join_root hy)]
    exact ((hholds (List.mem_of_getElem? hat) hy).mp hnew).2

/-- A name that no layer has does not come into being when it is deleted. -/
theorem Fresh.entry_after_delete_of_missing (h : Fresh s layers w .root)
    (hname : components (normalize name true) = [c])
    (hnone : ∀ f ∈ layers, ¬ HasFolded s "" c f) :
    ((do
      let _ ← Action.attempt (delete (Store.provider (n + 1)) .root name)
      invalidateNode .root
      entry (Store.provider (n + 1)) name).exec w).1 = .ok none := by
  have hclean := cleanTree_of_serves hs
  obtain ⟨hnorm, hc⟩ := normalize_fold_of_single hname
  obtain ⟨d, s', o', hexec, hkeep, hclean', hafter⟩ : ∃ d s' o',
      (delete (Store.provider (n + 1)) .root name).exec w = (d, (s', o')) ∧
      (∀ f ∈ layers, ¬ HasFolded s' "" c f) ∧ (∀ f ∈ layers, f.CleanTree s') ∧
      Fresh s' layers (s', o'.invalidate 0) .root := by
    by_cases hne : layers = []
    · refine ⟨_, w.1, w.2, exec_delete_of_no_layers n h.live (h.stack.trans hne) name, ?_, ?_,
        fresh_invalidated h.stack h.fold h.live h.slot⟩
      · rw [hne]
        exact List.forall_mem_nil _
      · rw [hne]
        exact List.forall_mem_nil _
    · have hspelled : ((beneath s layers "" c).map fun o => lastName o.path).getD c = c := by
        rw [(beneath_eq_none hclean clean_empty).mpr hnone]
        rfl
      obtain ⟨s', o', hexec, hremoval, hafter⟩ := h.exec_delete_name n hs hne hname hc hspelled
      refine ⟨_, s', o', hexec, ?_, hremoval.cleanTree hc hs, hafter⟩
      rintro f hf ⟨y, hy, hkey, hholds⟩
      exact hnone f hf ⟨y, hy, hkey, hremoval.holds_of_holds (hs f hf) hholds⟩
  obtain ⟨r, he, hr⟩ := hafter.exec_entry_name n hclean' hname
  rw [(beneath_eq_none hclean' clean_empty).mpr hkeep, Option.map_none, Option.map_eq_none_iff] at hr
  subst hr
  simp only [exec_bind, exec_attempt, hexec]
  rw [← exec_bind, exec_invalidate_root, he]

/-- A new union that folds case, over memory filesystems that can all be read and deleted from, in
which no two entries of a directory fold to the same name.  If a name leads to an entry, deleting the
name answers that something was deleted; but what is removed is the spelling of that entry, from every
layer.  So the name leads nowhere afterwards only if every layer that has it spells it so, and
otherwise it leads to the first of the other spellings.  If the name led nowhere, it leads nowhere
afterwards. -/
theorem delete_removes_one_spelling {policy : Policy} (hd : ∀ f ∈ layers, DistinctFolded s f)
    (hname : components (normalize name true) = [c]) :
    (∀ o, Offers s layers "" c o → ∃ s' o',
      (delete (Store.provider (n + 1)) .root name).exec
          (s, { layers := layers, fold := true, policy := policy }) = (.ok true, (s', o')) ∧
        Removal s s' layers o.path (.ok true) ∧
        ∃ r, ((do invalidateNode .root; entry (Store.provider (n + 1)) name).exec (s', o')).1
            = .ok r ∧
          (r = none ↔ ∀ f ∈ layers, ∀ x, IsName x → lower x = c → holds s x f = true →
            x = o.path) ∧
          ∀ m, r = some m → ∃ o₂, m.offer? = some o₂ ∧ Offers s' layers "" c o₂ ∧
            o₂.path ≠ o.path) ∧
    ((∀ f ∈ layers, ¬ HasFolded s "" c f) →
      ((do
        let _ ← Action.attempt (delete (Store.provider (n + 1)) .root name)
        invalidateNode .root
        entry (Store.provider (n + 1)) name).exec
          (s, { layers := layers, fold := true, policy := policy })).1 = .ok none) := by
  have hfresh := fresh_new s layers policy
  refine ⟨?_, hfresh.entry_after_delete_of_missing n hs hname⟩
  intro o ho
  obtain ⟨f, x, hat, hx, rfl, hholds, heq⟩ := ho.here
  have hpath : o.path = x := (congrArg Offer.path heq).trans (join_root hx)
  rw [join_root hx] at hholds
  -- the spelling that is handed on is that of the entry
  have hspelled : ((beneath s layers "" (lower x)).map fun o => lastName o.path).getD (lower x)
      = x := by
    rw [(beneath_eq_some (cleanTree_of_serves hs) hd clean_empty).mpr ho, Option.map_some,
      Option.getD_some, hpath, lastName_of_name hx]
  obtain ⟨s', o', hexec, hremoval, hafter⟩ := hfresh.exec_delete_name n hs
    (List.ne_nil_of_mem (List.mem_of_getElem? hat)) hname hx hspelled
  rw [isSome_provided.mpr ⟨f, List.mem_of_getElem? hat, hholds⟩] at hexec hremoval
  rw [hpath]
  exact ⟨s', o', hexec, hremoval, hremoval.entry_after n hs hd hx hafter hname⟩

end

theorem serves_twoSpellings : ∀ f ∈ twoSpellingsUnion.2.layers, ∃ id, f.Serves twoSpellings id := by
  intro f hf
  obtain ⟨id, hid, rfl⟩ := List.mem_map.mp hf
  refine ⟨id, rfl, ?_, ?_, ?_⟩
  all_goals
    revert id
    decide

/-- One of two spellings is deleted, and the other comes to light. -/
theorem delete_removes_one_spelling_docs :
    (∀ f ∈ twoSpellingsUnion.2.layers, ∃ id, f.Serves twoSpellings id) ∧
      (∀ f ∈ twoSpellingsUnion.2.layers, DistinctFolded twoSpellings f) ∧
      components (normalize "DOCS" true) = ["docs"] ∧
      ∃ s' o', (delete (Store.provider 1) .root "DOCS").exec twoSpellingsUnion
          = (.ok true, (s', o')) ∧
        (s'.memory 0).kind "Docs/a" = .unknown ∧ (s'.memory 1).kind "docs/b" = .file ∧
        ∃ m, ((do invalidateNode .root; entry (Store.provider 1) "DOCS").exec (s', o')).1
          = .ok (some m) ∧ m.path ≠ "Docs" := by
  have hname : components (normalize "DOCS" true) = ["docs"] := by decide +kernel
  have hdocs : Offers twoSpellings twoSpellingsUnion.2.layers "" "docs"
      ⟨join "" "Docs", .memory 0 (join "" "Docs"), 0⟩ :=
    ⟨⟨_, "Docs", rfl, by decide, by decide +kernel, by decide +kernel, rfl⟩,
      fun _ _ hj => absurd hj (Nat.not_lt_zero _)⟩
  obtain ⟨s', o', hexec, hremoval, r, hr, hmiss, hother⟩ :=
    (delete_removes_one_spelling 0 serves_twoSpellings distinctFolded_twoSpellings hname).1 _ hdocs
  have hgone := hremoval.gone rfl 0 (by decide)
  have hkept := hremoval.gone rfl 1 (by decide)
  refine ⟨serves_twoSpellings, distinctFolded_twoSpellings, hname, s', o', hexec, ?_, ?_, ?_⟩
  · rw [hgone]
    decide
  · rw [hkept]
    decide
  · cases r with
    | none =>
        have := hmiss.mp rfl (.memory 1) (by decide) "docs" (by decide) (by decide +kernel)
          (by decide +kernel)
        exact absurd this (by decide)
    | some m =>
        obtain ⟨o₂, hoffer, -, hne⟩ := hother m rfl
        refine ⟨m, hr, ?_⟩
        rw [← pathAt_offer, hoffer]
        exact hne

/-- A name that was deleted, with the answer that it was, is found again. -/
theorem deleted_name_found_again :
    (∀ f ∈ twoSpellingsUnion.2.layers, ∃ id, f = .memory id ∧
      (twoSpellings.memory id).tree.Clean ∧ (twoSpellings.memory id).operations = .all) ∧
    (∀ f ∈ twoSpellingsUnion.2.layers, DistinctFolded twoSpellings f) ∧
    components (normalize "docs" true) = ["docs"] ∧
    ((delete (Store.provider 1) .root "docs").exec twoSpellingsUnion).1 = .ok true ∧
    ((do invalidateNode .root; entry (Store.provider 1) "docs").exec
      ((delete (Store.provider 1) .root "docs").exec twoSpellingsUnion).2).1.toOption.map
        (fun found : Option (Node Entry) => found.map Node.path) = some (some "docs") := by
  refine ⟨?_, distinctFolded_twoSpellings, by decide +kernel, by decide +kernel,
    by decide +kernel⟩
  intro f hf
  obtain ⟨id, hid, rfl⟩ := List.mem_map.mp hf
  refine ⟨id, rfl, ?_, ?_⟩
  all_goals
    revert id
    decide

end Strata.Overlay
