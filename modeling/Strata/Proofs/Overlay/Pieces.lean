/-
# `Strata.Proofs.Overlay.Pieces` — merges in pieces

A merge takes each name from the first offer, so merging a part of the offers
beforehand changes nothing (`withOffers_firsts`).  What a layer `Gives` for a
directory is said up to the unions that its entries come through and up to its
position; then the merge of some layers is the merge of what they give, one after
the other (`exec_mergeFrom_of_gives`).
-/
import Strata.Proofs.Overlay.Rendering
import Strata.Proofs.Store.Changes

namespace Strata

open Strata.Action Strata.Path

namespace Overlay

/-! ## Merging a part beforehand -/

section
variable {E : Type} {fold : Bool}

theorem withOffers_snoc (table : List (String × Offer E)) (offers : List (Offer E)) (o : Offer E) :
    withOffers fold table (offers ++ [o]) = withOffer fold (withOffers fold table offers) o := by
  rw [withOffers_append]
  rfl

theorem withOffer_eq (table : List (String × Offer E)) (o : Offer E) :
    withOffer fold table o =
      if listedName fold o.path = "" ∨ (table.lookup (listedName fold o.path)).isSome = true then
        table
      else table ++ [(listedName fold o.path, o)] := by
  simp only [withOffer, Bool.or_eq_true, String.isEmpty_iff]

/-- Merging a part of the offers beforehand changes nothing. -/
theorem withOffers_firsts (table : List (String × Offer E)) (offers : List (Offer E)) :
    withOffers fold table ((withOffers fold [] offers).map (·.2))
      = withOffers fold table offers := by
  induction offers using List.reverseRecOn with
  | nil => rfl
  | append_singleton offers o ih =>
      rw [withOffers_snoc, withOffers_snoc, withOffer_eq (withOffers fold [] offers)]
      split
      · -- what is taken by the part is taken by the whole
        rename_i htaken
        rw [ih, withOffer_eq, if_pos]
        by_cases h0 : listedName fold o.path = ""
        · exact .inl h0
        · have h := htaken.resolve_left h0
          rw [lookup_withOffers h0, List.lookup_nil, Option.none_or] at h
          rw [lookup_withOffers h0, Option.isSome_or, h, Bool.or_true]
          exact .inr rfl
      · rw [List.map_append, withOffers_append, ih]
        rfl

theorem withOffer_cores (table : List (String × Offer Entry)) (o : Offer Entry) :
    withOffer fold (cores table) o.core = cores (withOffer fold table o) := by
  have hlookup : (cores table).lookup (listedName fold o.path)
      = (table.lookup (listedName fold o.path)).map Offer.core := lookup_map_snd _ _ _
  have hpath : o.core.path = o.path := rfl
  rw [withOffer_eq, withOffer_eq, hpath, hlookup, Option.isSome_map]
  split
  · rfl
  · rw [cores, cores, List.map_append]
    rfl

/-- A merge looks at the paths of the offers alone. -/
theorem withOffers_cores (table : List (String × Offer Entry)) (offers : List (Offer Entry)) :
    withOffers fold (cores table) (offers.map Offer.core)
      = cores (withOffers fold table offers) := by
  induction offers using List.reverseRecOn with
  | nil => rfl
  | append_singleton offers o ih =>
      rw [List.map_append, List.map_singleton, withOffers_snoc, withOffers_snoc, ih,
        withOffer_cores]

end

/-! ## Layers by what they give -/

section
variable {P : Provider Store Filesystem Entry Stream} {I : Store → Prop} {s : Store}

/-- Wherever `I` holds, the layer gives these entries for the directory at a path, through unions
perhaps, and they can be read. -/
def Gives (P : Provider Store Filesystem Entry Stream) (I : Store → Prop) (s : Store)
    (f : Filesystem) (offers : String → List (Offer Entry)) : Prop :=
  ∀ t, I t → ∀ path, Path.Clean path → ∀ layer, ∃ os t',
    (layerOffers P path layer f).exec t = (.ok os, t') ∧ I t' ∧
      os.map Offer.core = offers path ∧ ∀ o ∈ os, o.source.Readable P I s

/-- What layers give together is what they give one after the other. -/
theorem exec_mergeFrom_of_gives {gives : Filesystem → String → List (Offer Entry)}
    {layers : List Filesystem} (h : ∀ f ∈ layers, Gives P I s f (gives f)) {path : String}
    (hp : Path.Clean path) {t : Store} (ht : I t) (layer : Nat)
    {table : List (String × Offer Entry)} (hread : ∀ e ∈ table, e.2.source.Readable P I s) :
    ∃ table' t', (mergeFrom P false path layer layers table).exec t = (.ok table', t') ∧ I t' ∧
      cores table' = withOffers false (cores table) (layers.flatMap fun f => gives f path) ∧
      ∀ e ∈ table', e.2.source.Readable P I s := by
  induction layers generalizing t layer table with
  | nil => exact ⟨table, t, rfl, ht, rfl, hread⟩
  | cons f layers ih =>
      obtain ⟨os, t', hoffers, ht', hos, hread'⟩ := h f (by simp) t ht path hp layer
      have hread'' : ∀ e ∈ withOffers false table os, e.2.source.Readable P I s :=
        fun e he => (mem_withOffers he).elim (hread e) fun ho => hread' _ ho.1
      obtain ⟨table', t'', hmerge, ht'', htable, hall⟩ :=
        ih (fun g hg => h g (List.mem_cons_of_mem _ hg)) ht' (layer + 1) hread''
      refine ⟨table', t'', ?_, ht'', ?_, hall⟩
      · rw [mergeFrom]
        simp only [exec_bind, hoffers, hmerge]
      · rw [htable, ← withOffers_cores, hos, List.flatMap_cons, withOffers_append]

end

/-! ## Memory filesystems as layers -/

/-- What a plain layer gives for the directory at a path. -/
def plainOffers (s : Store) (f : Filesystem) (path : String) : List (Offer Entry) :=
  (offersAt s path 0 f).map Offer.core

section
variable {I : Store → Prop} {s : Store} (n : Nat)

theorem plainOffers_eq (s : Store) (f : Filesystem) (path : String) (layer : Nat) :
    (offersAt s path layer f).map Offer.core = plainOffers s f path := by
  rw [plainOffers, offersAt, offersAt]
  split
  · rw [List.map_map, List.map_map]
    rfl
  · rfl

theorem cores_merged (s : Store) (layers : List Filesystem) (path : String) :
    cores (merged s layers path)
      = withOffers false [] (layers.flatMap fun f => plainOffers s f path) := by
  have hstack (k : Nat) : ((layers.zipIdx k).flatMap fun f => offersAt s path f.2 f.1).map Offer.core
      = layers.flatMap fun f => plainOffers s f path := by
    induction layers generalizing k with
    | nil => rfl
    | cons f layers ih =>
        rw [List.zipIdx_cons, List.flatMap_cons, List.map_append, ih, List.flatMap_cons,
          plainOffers_eq]
  rw [merged, ← withOffers_cores, stacked, hstack]
  rfl

/-- A file of a memory filesystem that may be read can be read. -/
theorem readable_memory (hI : ∀ t, I t → s.SameTrees t) {id : Nat}
    (hcan : (Filesystem.memory id).canRead s = true) (path : String) :
    (Entry.memory id path).Readable (Store.provider (n + 1)) I s where
  kind t ht := by
    show (t.memory id).kind path = (s.memory id).kind path
    rw [memory_congr (hI t ht)]
  opens hfile t ht := by
    have hmem := memory_congr (hI t ht) id
    have hops : (t.memory id).operations.covers (.only .read) = true := by
      rw [hmem]
      exact hcan
    have hmode : OpenMode.reading.checkAgainst (t.memory id).operations path
        = .ok (.only .read) := if_pos hops
    have hfile' : (s.memory id).tree.kind path = .file := hfile
    rw [← hmem] at hfile'
    show ∃ t', (Entry.openStream (Store.provider n) (.memory id path) .reading).exec t = _ ∧ I t'
    refine ⟨t, ?_, ht⟩
    cases hfind : (t.memory id).tree.find? path with
    | none => simp [Memory.Tree.kind, hfind] at hfile'
    | some node =>
        cases node with
        | directory m => simp [Memory.Tree.kind, hfind, Memory.Node.kind] at hfile'
        | file data m =>
            have hbuffer : (Memory.openBuffer t.clock path .reading).exec (t.memory id)
                = (.ok (.reader data), t.memory id) := by
              simp only [Memory.openBuffer, exec_bind, exec_get, exec_ofExcept, hmode, hfind]
              rfl
            have hbytes : (Entry.memory id path).bytes s = data := by
              rw [Entry.bytes, ← hmem, hfind]
            simp only [Entry.openStream, exec_bind, exec_get, Store.exec_inMemory, hbuffer,
              Store.setMemory_self, exec_pure, hbytes]
            rfl

theorem gives_memory (hI : ∀ t, I t → s.SameTrees t) {id : Nat}
    (hs : (s.memory id).tree.Clean) :
    Gives (Store.provider (n + 1)) I s (.memory id) (plainOffers s (.memory id)) := by
  intro t ht path hp layer
  have hclean : (Filesystem.memory id).CleanTree s := hs
  have hexec := Filesystem.CleanTree.congr (hI t ht) hclean
  refine ⟨offersAt s path layer (.memory id), t, ?_, ht, plainOffers_eq .., ?_⟩
  · rw [exec_layerOffers n hexec hp, offersAt_congr (hI t ht)]
    exact congrArg (Prod.mk _) (ite_self _)
  · intro o ho
    rw [offersAt] at ho
    split at ho
    · rename_i hl
      rw [lists, Bool.and_eq_true] at hl
      obtain ⟨p, -, rfl⟩ := List.mem_map.mp ho
      exact readable_memory n hI hl.1 p
    · cases ho

end

end Overlay

end Strata
