/-
# `Strata.Proofs.Overlay.Merge` — what the layers offer for a directory

Over clean trees the merge of a directory is a function of the outlines alone:
`merged` is what it answers, and all it changes are the counts of the probes
(`exec_merge`).  Looking a name up in it gives what the first layer offers that
can read and has a node there (`lookup_merged`); no more than that is known of a
listing by those who walk through it.
-/
import Strata.Overlay.Merge
import Strata.Proofs.Store.Layers

namespace Strata.Overlay

open Strata.Action Strata.Path

/-! ## The first offer of each name -/

section
variable {E : Type} {fold : Bool}

theorem lookup_snoc {table : List (String × Offer E)} (name key : String) (o : Offer E) :
    (table ++ [(key, o)]).lookup name
      = (table.lookup name).or (if name = key then some o else none) := by
  rw [List.lookup_append, Table.lookup_cons, List.lookup_nil]

theorem lookup_withOffers {name : String} (h0 : name ≠ "") (offers : List (Offer E))
    (table : List (String × Offer E)) :
    (withOffers fold table offers).lookup name
      = (table.lookup name).or (offers.find? fun o => listedName fold o.path == name) := by
  induction offers generalizing table with
  | nil => simp [withOffers]
  | cons o os ih =>
      rw [withOffers, List.foldl_cons, ← withOffers, ih, withOffer, List.find?_cons]
      by_cases hn : listedName fold o.path = name
      · simp only [hn, beq_self_eq_true]
        cases ht : table.lookup name with
        | some v => simp [ht]
        | none => simp [h0, ht, lookup_snoc]
      · have hb : (listedName fold o.path == name) = false := by simpa using hn
        simp only [hb]
        split
        · rfl
        · rw [lookup_snoc, if_neg (Ne.symm hn), Option.or_none]

theorem mem_withOffers {entry : String × Offer E} {offers : List (Offer E)}
    {table : List (String × Offer E)} (h : entry ∈ withOffers fold table offers) :
    entry ∈ table ∨ entry.2 ∈ offers ∧ entry.1 = listedName fold entry.2.path := by
  induction offers generalizing table with
  | nil => exact .inl h
  | cons o os ih =>
      rw [withOffers, List.foldl_cons, ← withOffers] at h
      rcases ih h with ht | ⟨ho, hn⟩
      · rw [withOffer] at ht
        split at ht
        · exact .inl ht
        · rcases List.mem_append.mp ht with ht | ht
          · exact .inl ht
          · obtain rfl := List.mem_singleton.mp ht
            exact .inr ⟨by simp, rfl⟩
      · exact .inr ⟨List.mem_cons_of_mem _ ho, hn⟩

theorem nodup_withOffers {offers : List (Offer E)} {table : List (String × Offer E)}
    (h : (table.map (·.1)).Nodup) : ((withOffers fold table offers).map (·.1)).Nodup := by
  induction offers generalizing table with
  | nil => exact h
  | cons o os ih =>
      rw [withOffers, List.foldl_cons, ← withOffers]
      refine ih ?_
      rw [withOffer]
      split
      · exact h
      · rename_i hfree
        have : listedName fold o.path ∉ table.map (·.1) := fun hm =>
          hfree (by simp [mem_keys_iff.mp hm])
        simpa [List.nodup_append, h] using fun a b hab => by
          rintro rfl
          exact this (List.mem_map.mpr ⟨_, hab, rfl⟩)

/-- The names that a table has not taken yet, each by its first offer. -/
theorem withOffers_eq_append {offers : List (Offer E)}
    (h0 : ∀ o ∈ offers, listedName fold o.path ≠ "") (table : List (String × Offer E)) :
    withOffers fold table offers = table ++
      ((offers.filter fun o => (table.lookup (listedName fold o.path)).isNone).eraseDupsBy
        fun a b => listedName fold a.path == listedName fold b.path).map
        fun o => (listedName fold o.path, o) := by
  induction offers generalizing table with
  | nil => simp [withOffers]
  | cons o os ih =>
      have hne := h0 o (by simp)
      have ih := fun t => ih (fun a ha => h0 a (List.mem_cons_of_mem _ ha)) t
      rw [withOffers, List.foldl_cons, ← withOffers, ih, withOffer, List.filter_cons]
      cases ht : table.lookup (listedName fold o.path) with
      | some v => simp
      | none =>
          simp only [hne, Option.isSome_none, Bool.or_false, String.isEmpty_iff, if_false,
            Option.isNone_none, if_true, List.eraseDupsBy_cons, List.map_cons, List.append_assoc,
            List.singleton_append, List.filter_filter]
          congr 5
          funext a
          rw [lookup_snoc]
          by_cases ha : listedName fold a.path = listedName fold o.path
          · simp [ha, ht]
          · simp [ha]

end

/-! ## Layers with clean trees -/

/-- Whether the layer can read and holds a directory at the path. -/
def lists (s : Store) (path : String) (f : Filesystem) : Bool :=
  f.canRead s && (f.outline s).kind path == .directory

/-- Whether the layer can read and holds a node at the path. -/
def holds (s : Store) (path : String) (f : Filesystem) : Bool :=
  f.canRead s && ((f.outline s).kind path).exists?

/-- The offers of the layer at a position for the directory at a path. -/
def offersAt (s : Store) (path : String) (layer : Nat) (f : Filesystem) : List (Offer Entry) :=
  if lists s path f then ((f.outline s).below path).map fun p => ⟨p, f.entryAt p, layer⟩ else []

/-- The listings of all layers for the directory at a path, one after the other. -/
def stacked (s : Store) (layers : List Filesystem) (path : String) : List (Offer Entry) :=
  layers.zipIdx.flatMap fun f => offersAt s path f.2 f.1

/-- The listing that the layers give together. -/
def merged (s : Store) (layers : List Filesystem) (path : String) :
    List (String × Offer Entry) :=
  withOffers false [] (stacked s layers path)

/-- What the first layer that can read and has a node at the path offers for it. -/
def provided (s : Store) (layers : List Filesystem) (path : String) : Option (Offer Entry) :=
  (layers.zipIdx.find? fun f => holds s path f.1).map fun f => ⟨path, f.1.entryAt path, f.2⟩

/-- The store after the layers that have the directory were asked for it. -/
def afterMerge (s : Store) (path : String) (layers : List Filesystem) : Store :=
  layers.foldl (fun t f => if lists t path f then f.afterListing t else t) s

section
variable {s : Store} {layers : List Filesystem}

theorem memory_congr {s' : Store} (h : s.SameTrees s') (id : Nat) : s'.memory id = s.memory id := by
  rw [Store.memory, h.memories, Store.memory]

theorem lists_congr {s' : Store} (h : s.SameTrees s') (path : String) (f : Filesystem) :
    lists s' path f = lists s path f := by
  simp only [lists, Filesystem.canRead, Filesystem.allows_congr h, Filesystem.outline_congr h]

theorem holds_congr {s' : Store} (h : s.SameTrees s') (path : String) (f : Filesystem) :
    holds s' path f = holds s path f := by
  simp only [holds, Filesystem.canRead, Filesystem.allows_congr h, Filesystem.outline_congr h]

/-- The first member with a property, together with its position. -/
theorem find?_zipIdx_eq_some {α : Type} {p : α → Bool} {l : List α} {a : α} {i : Nat} :
    (l.zipIdx.find? fun e => p e.1) = some (a, i) ↔
      l[i]? = some a ∧ p a = true ∧ ∀ j b, j < i → l[j]? = some b → p b = false := by
  rw [List.find?_eq_some_iff_getElem]
  simp only [List.length_zipIdx, List.getElem_zipIdx, Nat.zero_add]
  constructor
  · rintro ⟨ha, k, hk, heq, hbefore⟩
    obtain ⟨rfl, rfl⟩ := Prod.mk.inj heq
    refine ⟨List.getElem?_eq_getElem hk, ha, ?_⟩
    intro j b hj hb
    obtain ⟨hlt, rfl⟩ := List.getElem?_eq_some_iff.mp hb
    simpa using hbefore j hj
  · rintro ⟨hat, ha, hbefore⟩
    obtain ⟨hi, rfl⟩ := List.getElem?_eq_some_iff.mp hat
    refine ⟨ha, i, hi, rfl, ?_⟩
    intro j hj
    simpa using hbefore j _ hj (List.getElem?_eq_getElem (hj.trans hi))

/-- The provider of a path is the first layer that can read and has a node there. -/
theorem provided_eq_some {path : String} {o : Offer Entry} :
    provided s layers path = some o ↔
      ∃ f, layers[o.layer]? = some f ∧ holds s path f = true ∧
        (∀ j g, j < o.layer → layers[j]? = some g → holds s path g = false) ∧
        o = ⟨path, f.entryAt path, o.layer⟩ := by
  rw [provided, Option.map_eq_some_iff]
  constructor
  · rintro ⟨⟨f, i⟩, hfound, rfl⟩
    obtain ⟨hat, hholds, hbefore⟩ := find?_zipIdx_eq_some.mp hfound
    exact ⟨f, hat, hholds, hbefore, rfl⟩
  · rintro ⟨f, hat, hholds, hbefore, heq⟩
    exact ⟨(f, o.layer), find?_zipIdx_eq_some.mpr ⟨hat, hholds, hbefore⟩, heq.symm⟩

theorem isSome_provided {path : String} :
    (provided s layers path).isSome = true ↔ ∃ f ∈ layers, holds s path f = true := by
  rw [provided, Option.isSome_map, List.find?_isSome]
  constructor
  · rintro ⟨⟨f, i⟩, hf, hholds⟩
    exact ⟨f, List.fst_mem_of_mem_zipIdx hf, hholds⟩
  · rintro ⟨f, hf, hholds⟩
    obtain ⟨i, hi, rfl⟩ := List.getElem_of_mem hf
    exact ⟨(layers[i], i), List.mem_zipIdx_iff_getElem?.mpr (List.getElem?_eq_getElem hi), hholds⟩

theorem provided_congr {s' : Store} (h : s.SameTrees s') (path : String) :
    provided s' layers path = provided s layers path := by
  simp only [provided, holds_congr h]

theorem offersAt_congr {s' : Store} (h : s.SameTrees s') (path : String) (layer : Nat)
    (f : Filesystem) : offersAt s' path layer f = offersAt s path layer f := by
  simp only [offersAt, lists_congr h, Filesystem.outline_congr h]

theorem merged_congr {s' : Store} (h : s.SameTrees s') (path : String) :
    merged s' layers path = merged s layers path := by
  simp only [merged, stacked, offersAt_congr h]

theorem sameTrees_afterMerge (s : Store) (path : String) (layers : List Filesystem) :
    s.SameTrees (afterMerge s path layers) := by
  induction layers generalizing s with
  | nil => exact .refl s
  | cons f fs ih =>
      rw [afterMerge, List.foldl_cons, ← afterMerge]
      split
      · exact (f.sameTrees_afterListing s).trans (ih _)
      · exact ih s

/-- How often the layers that can read and have the directory stand behind a probe. -/
def probedLists (s : Store) (layers : List Filesystem) (path : String) (probe : Nat) : Nat :=
  ((layers.filter (lists s path)).flatMap Filesystem.probes).count probe

/-- A merge asks each layer that can read and has the directory once, and no other. -/
theorem lists_afterMerge {p : Nat} (hp : p < s.probes.size) (path : String) :
    ((afterMerge s path layers).probe p).lists
      = (s.probe p).lists + probedLists s layers path p := by
  induction layers generalizing s with
  | nil => rfl
  | cons f fs ih =>
      rw [afterMerge, List.foldl_cons, ← afterMerge, probedLists, List.filter_cons]
      split
      · have hc : lists (f.afterListing s) path = lists s path :=
          funext (lists_congr (f.sameTrees_afterListing s) path)
        rw [ih (by rwa [f.size_probes_afterListing]), f.lists_afterListing hp, probedLists, hc,
          List.flatMap_cons, List.count_append, Nat.add_assoc]
      · exact ih hp

theorem mem_offersAt {ns : List String} {layer : Nat} {f : Filesystem} {o : Offer Entry}
    (h : f.CleanTree s) (hn : ∀ n ∈ ns, IsComponent n) :
    o ∈ offersAt s (ofNames ns) layer f ↔
      ∃ n, IsName n ∧ holds s (ofNames (ns ++ [n])) f = true ∧
        o = ⟨ofNames (ns ++ [n]), f.entryAt (ofNames (ns ++ [n])), layer⟩ := by
  have hc := h.outline_clean
  have below (p : String) := Outline.mem_below (p := p) hc hn
  rw [offersAt]
  constructor
  · intro ho
    split at ho
    · rename_i hl
      obtain ⟨p, hp, rfl⟩ := List.mem_map.mp ho
      obtain ⟨n, hname, rfl, he⟩ := (below p).mp hp
      rw [lists, Bool.and_eq_true] at hl
      exact ⟨n, hname, by rw [holds, hl.1, he]; rfl, rfl⟩
    · simp at ho
  · rintro ⟨n, hname, hh, rfl⟩
    rw [holds, Bool.and_eq_true] at hh
    have hd := hc.directory_of_snoc (n := n)
      (forall_mem_snoc hn hname.1) hh.2
    rw [if_pos (by simp [lists, hh.1, hd])]
    exact List.mem_map.mpr ⟨_, (below _).mpr ⟨n, hname, rfl, hh.2⟩, rfl⟩

theorem exec_layerOffers (n : Nat) {f : Filesystem} (h : f.CleanTree s) {path : String}
    (hp : Path.Clean path) (layer : Nat) :
    (layerOffers (Store.provider (n + 1)) path layer f).exec s =
      (.ok (offersAt s path layer f), if lists s path f then f.afterListing s else s) := by
  have hops : (Store.provider (n + 1)).operations f s = f.allows s := h.operations _
  unfold layerOffers
  simp only [exec_bind, exec_get, hops, exec_ite]
  by_cases hr : f.canRead s = true
  · have hr' : (f.allows s).covers (.only .read) = true := hr
    rw [if_pos hr', f.exec_resolveDirectory n h hp]
    by_cases hd : (f.outline s).kind path = .directory
    · have hl : lists s path f = true := by simp [lists, hr, hd]
      have spelled : ∀ p ∈ (f.outline s).below path, normalize p false = p := by
        intro p hb
        rw [← hp.ofNames_components] at hb
        obtain ⟨m, hm, rfl, -⟩ := (Outline.mem_below h.outline_clean
          fun m hm => (hp.isName hm).1).mp hb
        exact normalize_ofNames (forall_mem_snoc (fun _ => hp.isName) hm)
      have hpath (p : String) : (Store.provider (n + 1)).path (f.entryAt p) = p :=
        h.path_entryAt p
      simp only [hd, if_true, exec_bind, f.exec_children n h hr hd, exec_pure, offersAt, hl,
        offersOf, List.map_map]
      refine congrArg (fun l => (Except.ok l, _)) (List.map_congr_left ?_)
      intro p hb
      simp [hpath, spelled p hb]
    · have hl : lists s path f = false := by simp [lists, hd]
      simp [hd, hl, offersAt]
  · have hl : lists s path f = false := by simp [lists, hr]
    rw [if_neg (by simpa [Filesystem.canRead] using hr)]
    simp [hl, offersAt]

theorem listedName_ofNames_snoc {ns : List String} {n : String} (h : IsName n) :
    listedName false (ofNames (ns ++ [n])) = n := by
  have := normalize_ofNames (List.forall_mem_singleton.mpr h)
  rwa [listedName, lastName_ofNames_snoc h.1, ← ofNames_singleton n]

/-- What a merge that starts with a table answers, and the store after it. -/
theorem exec_mergeFrom (n : Nat) (fold : Bool) {path : String} (hp : Path.Clean path) (layer : Nat)
    (hs : ∀ f ∈ layers, f.CleanTree s) (table : List (String × Offer Entry)) :
    (mergeFrom (Store.provider (n + 1)) fold path layer layers table).exec s =
      (.ok (withOffers fold table
          ((layers.zipIdx layer).flatMap fun f => offersAt s path f.2 f.1)),
        afterMerge s path layers) := by
  induction layers generalizing layer s table with
  | nil => simp [mergeFrom, withOffers, afterMerge]
  | cons f fs ih =>
      have ht : s.SameTrees (if lists s path f then f.afterListing s else s) := by
        split
        · exact f.sameTrees_afterListing s
        · exact .refl s
      have := ih (layer + 1) (fun g hg => (hs g (List.mem_cons_of_mem _ hg)).congr ht)
        (withOffers fold table (offersAt s path layer f))
      rw [mergeFrom]
      simp only [exec_bind, exec_layerOffers n (hs f (by simp)) hp, this, offersAt_congr ht,
        List.zipIdx_cons, List.flatMap_cons, withOffers_append, afterMerge, List.foldl_cons]

theorem exec_merge (n : Nat) {path : String} (hp : Path.Clean path)
    (hs : ∀ f ∈ layers, f.CleanTree s) :
    (merge (Store.provider (n + 1)) false layers path).exec s =
      (.ok (merged s layers path), afterMerge s path layers) :=
  exec_mergeFrom n false hp 0 hs []

theorem find?_offersAt {ns : List String} {layer : Nat} {f : Filesystem} {n : String}
    (h : f.CleanTree s) (hn : ∀ m ∈ ns ++ [n], IsComponent m) :
    ((offersAt s (ofNames ns) layer f).find? fun o => listedName false o.path == n) =
      if holds s (ofNames (ns ++ [n])) f then
        some ⟨ofNames (ns ++ [n]), f.entryAt (ofNames (ns ++ [n])), layer⟩
      else none := by
  have hns : ∀ m ∈ ns, IsComponent m := fun m hm => hn m (List.mem_append_left _ hm)
  split
  · rename_i hh
    have he : ((f.outline s).kind (ofNames (ns ++ [n]))).exists? = true := by
      rw [holds, Bool.and_eq_true] at hh; exact hh.2
    have hname : IsName n := h.outline_clean.isName hn he n (by simp)
    have hmem : ⟨_, _, layer⟩ ∈ offersAt s (ofNames ns) layer f :=
      (mem_offersAt h hns).mpr ⟨n, hname, hh, rfl⟩
    -- no other offer of this layer has the name
    obtain ⟨o, ho⟩ := Option.isSome_iff_exists.mp <|
      List.find?_isSome (p := fun o : Offer Entry => listedName false o.path == n).mpr
        ⟨_, hmem, by simp [listedName_ofNames_snoc hname]⟩
    obtain ⟨m, hm, -, rfl⟩ := (mem_offersAt h hns).mp (List.mem_of_find?_eq_some ho)
    have : m = n := by
      simpa [listedName_ofNames_snoc hm] using List.find?_some ho
    rw [ho, this]
  · rename_i hh
    refine List.find?_eq_none.mpr fun o ho heq => hh ?_
    obtain ⟨m, hm, hold, rfl⟩ := (mem_offersAt h hns).mp ho
    have : m = n := by simpa [listedName_ofNames_snoc hm] using heq
    exact this ▸ hold

/-- The listing of a directory has under a name what the layers provide there. -/
theorem lookup_merged {ns : List String} {n : String} (hs : ∀ f ∈ layers, f.CleanTree s)
    (hn : ∀ m ∈ ns ++ [n], IsComponent m) :
    (merged s layers (ofNames ns)).lookup n = provided s layers (ofNames (ns ++ [n])) := by
  rw [merged, lookup_withOffers (hn n (by simp)).1, List.lookup_nil, Option.none_or, stacked,
    List.find?_flatMap, provided]
  have hs' : ∀ f ∈ layers.zipIdx, f.1.CleanTree s := fun f hf =>
    hs _ (List.fst_mem_of_mem_zipIdx hf)
  generalize layers.zipIdx = fs at hs'
  induction fs with
  | nil => rfl
  | cons f fs ih =>
      rw [List.findSome?_cons, List.find?_cons, find?_offersAt (hs' f (by simp)) hn,
        ih fun g hg => hs' g (List.mem_cons_of_mem _ hg)]
      cases holds s (ofNames (ns ++ [n])) f.1 <;> rfl

theorem lookup_merged_below {path x : String} (hs : ∀ f ∈ layers, f.CleanTree s)
    (hp : Path.Clean path) (hx : IsComponent x) :
    (merged s layers path).lookup x = provided s layers (ofNames (components path ++ [x])) := by
  rw [← lookup_merged hs (forall_mem_snoc (fun _ => isComponent_of_mem) hx),
    hp.ofNames_components]

/-- What a listing of the directory at a path may be: it has each name once, with the handle of a
layer on the path of that name. -/
structure Made (layers : List Filesystem) (path : String) (table : List (String × Offer Entry)) :
    Prop where
  nodup : (table.map (·.1)).Nodup
  isName : ∀ n o, (n, o) ∈ table → IsName n
  path : ∀ n o, (n, o) ∈ table → o.path = ofNames (components path ++ [n])
  source : ∀ n o, (n, o) ∈ table → ∃ f, layers[o.layer]? = some f ∧ o.source = f.entryAt o.path

theorem made_merged {path : String} (hs : ∀ f ∈ layers, f.CleanTree s) (hp : Path.Clean path) :
    Made layers path (merged s layers path) := by
  have hm (n : String) (o : Offer Entry) (h : (n, o) ∈ merged s layers path) :
      IsName n ∧ o.path = ofNames (components path ++ [n]) ∧
        ∃ f, layers[o.layer]? = some f ∧ o.source = f.entryAt o.path := by
    rcases mem_withOffers h with h | ⟨ho, hname⟩
    · exact absurd h List.not_mem_nil
    · obtain ⟨f, hf, ho⟩ := List.mem_flatMap.mp ho
      rw [← hp.ofNames_components] at ho
      obtain ⟨m, hm, -, rfl⟩ := (mem_offersAt (hs _ (List.fst_mem_of_mem_zipIdx hf))
        fun _ => isComponent_of_mem).mp ho
      simp only [listedName_ofNames_snoc hm] at hname
      subst hname
      exact ⟨hm, rfl, f.1, List.mem_zipIdx_iff_getElem?.mp hf, rfl⟩
  exact ⟨nodup_withOffers (by simp), fun n o h => (hm n o h).1, fun n o h => (hm n o h).2.1,
    fun n o h => (hm n o h).2.2⟩

/-- The listing of a directory is the listings of the layers one after the other, each name by its
first offer. -/
theorem map_snd_merged {path : String} (hs : ∀ f ∈ layers, f.CleanTree s)
    (hp : Path.Clean path) :
    (merged s layers path).map (·.2) = (stacked s layers path).eraseDupsBy
      fun a b => listedName false a.path == listedName false b.path := by
  have h0 : ∀ o ∈ stacked s layers path, listedName false o.path ≠ "" := by
    intro o ho
    obtain ⟨f, hf, ho⟩ := List.mem_flatMap.mp ho
    rw [← hp.ofNames_components] at ho
    obtain ⟨m, hm, -, rfl⟩ := (mem_offersAt (hs _ (List.fst_mem_of_mem_zipIdx hf))
      fun _ => isComponent_of_mem).mp ho
    rw [listedName_ofNames_snoc hm]
    exact hm.1.1
  rw [merged, withOffers_eq_append h0]
  simp [List.map_map, Function.comp_def]

end

end Strata.Overlay
