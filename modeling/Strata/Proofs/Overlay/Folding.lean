/-
# `Strata.Proofs.Overlay.Folding` — a union that folds case

Where case is folded, a name leads to the first layer that has one of its
spellings.  But a layer is asked for the directory by the path that the union has
for it, letter for letter, so layers that spell a directory otherwise take no part
in it: what is `Shown` under folded names is what lies in directories that are shown
under their own spelling (`entry_folded`).  If all layers spell their directories
alike, it is all that they have.
-/
import Strata.Proofs.Folding
import Strata.Proofs.Overlay.Walk

namespace Strata.Overlay

open Strata.Action Strata.Path

variable {s : Store} {layers : List Filesystem} {path c : String}

/-! ## What is shown -/

/-- The layer can read and has something in the directory whose name folds to this one. -/
def HasFolded (s : Store) (path c : String) (f : Filesystem) : Prop :=
  ∃ x, IsName x ∧ lower x = c ∧ holds s (join path x) f = true

/-- The offer is of the first layer that has something in the directory whose name folds to this
one. -/
structure Offers (s : Store) (layers : List Filesystem) (path c : String) (o : Offer Entry) :
    Prop where
  here : ∃ f x, layers[o.layer]? = some f ∧ IsName x ∧ lower x = c ∧
    holds s (join path x) f = true ∧ o = ⟨join path x, f.entryAt (join path x), o.layer⟩
  first : ∀ j g, j < o.layer → layers[j]? = some g → ¬ HasFolded s path c g

/-- The path of a place in the union, as its layer spells it. -/
def pathAt : Option (Offer Entry) → String
  | none => ""
  | some o => o.path

/-- What a union over the layers shows under folded names. -/
inductive Shown (s : Store) (layers : List Filesystem) :
    List String → Option (Offer Entry) → Prop
  | root : Shown s layers [] none
  | beneath {names : List String} {c : String} {place : Option (Offer Entry)} {o : Offer Entry} :
      Shown s layers names place → (kindAt s place).isDirectory = true →
      Offers s layers (pathAt place) c o → Shown s layers (names ++ [c]) (some o)

/-- No two entries of a directory of the layer have names that fold to the same. -/
def DistinctFolded (s : Store) (f : Filesystem) : Prop :=
  ∀ p q, holds s p f = true → holds s q f = true → parentOrRoot p = parentOrRoot q →
    listedName true p = listedName true q → p = q

/-! ## The listing of a directory -/

/-- The first offer of the layers whose name folds to this one. -/
def beneath (s : Store) (layers : List Filesystem) (path c : String) : Option (Offer Entry) :=
  (stacked s layers path).find? fun o => listedName true o.path == c

theorem listedName_fold {ns : List String} {n : String} (h : IsName n) :
    listedName true (ofNames (ns ++ [n])) = lower n := by
  rw [listedName, lastName_ofNames_snoc h.1, normalize_fold, h.normalize_eq]

/-- The first result over a list with positions. -/
theorem findSome?_zipIdx_eq_some {α β : Type} {g : α → Nat → Option β} {l : List α} {b : β}
    (k : Nat) :
    ((l.zipIdx k).findSome? fun e => g e.1 e.2) = some b ↔
      ∃ i a, l[i]? = some a ∧ g a (k + i) = some b ∧
        ∀ j a', j < i → l[j]? = some a' → g a' (k + j) = none := by
  induction l generalizing k with
  | nil => simp
  | cons x l ih =>
      rw [List.zipIdx_cons, List.findSome?_cons]
      cases hx : g x k with
      | some v =>
          constructor
          · rintro ⟨⟩
            exact ⟨0, x, rfl, hx, fun j _ hj => absurd hj (Nat.not_lt_zero j)⟩
          · rintro ⟨i, a, hat, hg, hbefore⟩
            cases i with
            | zero =>
                obtain rfl := Option.some.inj hat
                exact hx.symm.trans hg
            | succ i =>
                rw [← Nat.add_zero k, hbefore 0 x (Nat.succ_pos i) rfl] at hx
                cases hx
      | none =>
          have hshift (i : Nat) : k + 1 + i = k + (i + 1) := by omega
          simp only [ih, hshift]
          constructor
          · rintro ⟨i, a, hat, hg, hbefore⟩
            refine ⟨i + 1, a, hat, hg, ?_⟩
            rintro (_ | j) a' hj ha'
            · exact Option.some.inj ha' ▸ hx
            · exact hbefore j a' (Nat.lt_of_succ_lt_succ hj) ha'
          · rintro ⟨_ | i, a, hat, hg, hbefore⟩
            · obtain rfl := Option.some.inj hat
              rw [Nat.add_zero, hx] at hg
              cases hg
            · exact ⟨i, a, hat, hg, fun j a' hj => hbefore (j + 1) a' (Nat.succ_lt_succ hj)⟩

theorem mem_offersAt_iff {f : Filesystem} (hf : f.CleanTree s) (hp : Path.Clean path)
    {layer : Nat} {o : Offer Entry} :
    o ∈ offersAt s path layer f ↔ ∃ x, IsName x ∧ holds s (join path x) f = true ∧
      o = ⟨join path x, f.entryAt (join path x), layer⟩ := by
  have hmem : o ∈ offersAt s (ofNames (components path)) layer f ↔ _ :=
    mem_offersAt hf fun _ => isComponent_of_mem
  rw [hp.ofNames_components] at hmem
  rw [hmem]
  refine exists_congr fun x => and_congr_right fun hx => ?_
  rw [hp.join_eq_snoc hx]

theorem mem_stacked_iff (hs : ∀ f ∈ layers, f.CleanTree s) (hp : Path.Clean path)
    {o : Offer Entry} :
    o ∈ stacked s layers path ↔ ∃ f x, layers[o.layer]? = some f ∧ IsName x ∧
      holds s (join path x) f = true ∧ o = ⟨join path x, f.entryAt (join path x), o.layer⟩ := by
  rw [stacked, List.mem_flatMap]
  constructor
  · rintro ⟨⟨f, i⟩, hf, ho⟩
    have hat := List.mem_zipIdx_iff_getElem?.mp hf
    obtain ⟨x, hx, hholds, rfl⟩ := (mem_offersAt_iff (hs f (List.mem_of_getElem? hat)) hp).mp ho
    exact ⟨f, x, hat, hx, hholds, rfl⟩
  · rintro ⟨f, x, hat, hx, hholds, heq⟩
    exact ⟨(f, o.layer), List.mem_zipIdx_iff_getElem?.mpr hat,
      (mem_offersAt_iff (hs f (List.mem_of_getElem? hat)) hp).mpr ⟨x, hx, hholds, heq⟩⟩

theorem listedName_join (hp : Path.Clean path) {x : String} (hx : IsName x) :
    listedName true (join path x) = lower x := by
  rw [hp.join_eq_snoc hx, listedName_fold hx]

/-- What a layer has in a directory is among the listings of the layers. -/
theorem exists_stacked (hs : ∀ f ∈ layers, f.CleanTree s) (hp : Path.Clean path)
    {f : Filesystem} (hf : f ∈ layers) {x : String} (hx : IsName x)
    (hholds : holds s (join path x) f = true) :
    ∃ o ∈ stacked s layers path, listedName true o.path = lower x := by
  obtain ⟨i, hi, rfl⟩ := List.getElem_of_mem hf
  exact ⟨⟨join path x, layers[i].entryAt (join path x), i⟩, (mem_stacked_iff hs hp).mpr
    ⟨layers[i], x, List.getElem?_eq_getElem hi, hx, hholds, rfl⟩, listedName_join hp hx⟩

/-- What a layer offers under a folded name. -/
theorem of_find?_offersAt {f : Filesystem} (hf : f.CleanTree s) (hp : Path.Clean path)
    {layer : Nat} {o : Offer Entry}
    (ho : ((offersAt s path layer f).find? fun o => listedName true o.path == c) = some o) :
    ∃ x, IsName x ∧ lower x = c ∧ holds s (join path x) f = true ∧
      o = ⟨join path x, f.entryAt (join path x), layer⟩ := by
  obtain ⟨x, hx, hholds, rfl⟩ := (mem_offersAt_iff hf hp).mp (List.mem_of_find?_eq_some ho)
  have hkey := List.find?_some ho
  simp only [listedName_join hp hx, beq_iff_eq] at hkey
  exact ⟨x, hx, hkey, hholds, rfl⟩

theorem find?_offersAt_eq_none {f : Filesystem} (hf : f.CleanTree s) (hp : Path.Clean path)
    {layer : Nat} :
    ((offersAt s path layer f).find? fun o => listedName true o.path == c) = none ↔
      ¬ HasFolded s path c f := by
  rw [List.find?_eq_none]
  constructor
  · rintro h ⟨x, hx, rfl, hholds⟩
    refine h _ ((mem_offersAt_iff hf hp).mpr ⟨x, hx, hholds, rfl⟩) ?_
    simp [listedName_join hp hx]
  · intro h o ho hkey
    obtain ⟨x, hx, hholds, rfl⟩ := (mem_offersAt_iff hf hp).mp ho
    simp only [listedName_join hp hx, beq_iff_eq] at hkey
    exact h ⟨x, hx, hkey, hholds⟩

theorem beneath_eq_none (hs : ∀ f ∈ layers, f.CleanTree s) (hp : Path.Clean path) :
    beneath s layers path c = none ↔ ∀ f ∈ layers, ¬ HasFolded s path c f := by
  rw [beneath, List.find?_eq_none]
  constructor
  · rintro h f hf ⟨x, hx, rfl, hholds⟩
    obtain ⟨o, ho, hkey⟩ := exists_stacked hs hp hf hx hholds
    exact h o ho (beq_iff_eq.mpr hkey)
  · intro h o ho hkey
    obtain ⟨f, x, hat, hx, hholds, heq⟩ := (mem_stacked_iff hs hp).mp ho
    refine h f (List.mem_of_getElem? hat) ⟨x, hx, ?_, hholds⟩
    rw [← listedName_join hp hx, ← show o.path = join path x from congrArg Offer.path heq]
    exact beq_iff_eq.mp hkey

/-- Under a folded name, the listings of the layers have first what the first layer has there. -/
theorem offers_of_beneath (hs : ∀ f ∈ layers, f.CleanTree s) (hp : Path.Clean path)
    {o : Offer Entry} (h : beneath s layers path c = some o) : Offers s layers path c o := by
  rw [beneath, stacked, List.find?_flatMap,
    findSome?_zipIdx_eq_some (g := fun f i => (offersAt s path i f).find? _) 0] at h
  simp only [Nat.zero_add] at h
  obtain ⟨i, f, hat, ho, hbefore⟩ := h
  obtain ⟨x, hx, hkey, hholds, rfl⟩ := of_find?_offersAt (hs f (List.mem_of_getElem? hat)) hp ho
  refine ⟨⟨f, x, hat, hx, hkey, hholds, rfl⟩, fun j g hj hg => ?_⟩
  exact (find?_offersAt_eq_none (hs g (List.mem_of_getElem? hg)) hp).mp (hbefore j g hj hg)

/-- If no layer has two spellings of a name, there is one offer under it. -/
theorem Offers.eq (hd : ∀ f ∈ layers, DistinctFolded s f) (hp : Path.Clean path)
    {o o' : Offer Entry} (h : Offers s layers path c o) (h' : Offers s layers path c o') :
    o = o' := by
  obtain ⟨f, x, hat, hx, hkey, hholds, heq⟩ := h.here
  obtain ⟨f', y, hat', hy, hkey', hholds', heq'⟩ := h'.here
  have hlayer : o.layer = o'.layer :=
    Nat.le_antisymm (Nat.not_lt.mp fun hlt => h.first _ f' hlt hat' ⟨y, hy, hkey', hholds'⟩)
      (Nat.not_lt.mp fun hlt => h'.first _ f hlt hat ⟨x, hx, hkey, hholds⟩)
  obtain rfl : f = f' := Option.some.inj (hat.symm.trans (hlayer ▸ hat'))
  have hparent {z : String} (hz : IsName z) : parentOrRoot (join path z) = path := by
    rw [hp.join_eq_snoc hz, parentOrRoot_ofNames_snoc hz.1, hp.ofNames_components]
  have hsame : join path x = join path y := by
    refine hd f (List.mem_of_getElem? hat) _ _ hholds hholds' ?_ ?_
    · rw [hparent hx, hparent hy]
    · rw [listedName_join hp hx, listedName_join hp hy, hkey, hkey']
  rw [heq, heq', hsame, hlayer]

theorem beneath_eq_some (hs : ∀ f ∈ layers, f.CleanTree s)
    (hd : ∀ f ∈ layers, DistinctFolded s f) (hp : Path.Clean path) {o : Offer Entry} :
    beneath s layers path c = some o ↔ Offers s layers path c o := by
  refine ⟨offers_of_beneath hs hp, fun h => ?_⟩
  cases hbeneath : beneath s layers path c with
  | none =>
      obtain ⟨f, x, hat, hx, hkey, hholds, -⟩ := h.here
      exact absurd ⟨x, hx, hkey, hholds⟩
        ((beneath_eq_none hs hp).mp hbeneath f (List.mem_of_getElem? hat))
  | some o' => rw [h.eq hd hp (offers_of_beneath hs hp hbeneath)]

/-! ## Walking through a union that was not used yet -/

/-- The union folds case and lives, its layers are as in the store, and the node is a layer's handle
on its path, with nothing listed yet. -/
structure Fresh (s : Store) (layers : List Filesystem) (w : Store × Overlay Filesystem Entry)
    (node : Node Entry) : Prop where
  trees : s.SameTrees w.1
  stack : w.2.layers = layers
  fold : w.2.fold = true
  live : w.2.released = false
  slot : node.slot < w.2.listings.size
  dirty : (w.2.listing node.slot).dirty = true
  path : Path.Clean node.path
  source : ∀ offer, node.offer? = some offer →
    ∃ f, layers[offer.layer]? = some f ∧ offer.source = f.entryAt offer.path

variable {w : Store × Overlay Filesystem Entry} {node : Node Entry}

theorem fresh_new (s : Store) (layers : List Filesystem) (policy : Policy) :
    Fresh s layers (s, { layers := layers, fold := true, policy := policy }) .root :=
  ⟨.refl s, rfl, rfl, rfl, Nat.zero_lt_one, rfl, clean_empty, fun _ h => by cases h⟩

/-- With its root marked as dirty, a union that folds case has listed nothing. -/
theorem fresh_invalidated {o : Overlay Filesystem Entry} (hstack : o.layers = layers)
    (hfold : o.fold = true) (hlive : o.released = false) (hsize : 0 < o.listings.size) :
    Fresh s layers (s, o.invalidate 0) .root where
  trees := .refl s
  stack := hstack
  fold := hfold
  live := hlive
  slot := by
    rw [size_invalidate]
    exact hsize
  dirty := by rw [show (Node.root : Node Entry).slot = 0 from rfl, listing_invalidate, if_pos rfl]
  path := clean_empty
  source _ ho := by cases ho

/-- The listing that the layers give together, by folded names. -/
def folded (s : Store) (layers : List Filesystem) (path : String) :
    List (String × Offer Entry) :=
  withOffers true [] (stacked s layers path)

/-- A name of the listing leads to what the layers have first under it. -/
theorem lookup_folded (hc : c ≠ "") :
    (folded s layers path).lookup c = beneath s layers path c := by
  rw [folded, lookup_withOffers hc, List.lookup_nil, Option.none_or, beneath]

theorem pathAt_offer (node : Node Entry) : pathAt node.offer? = node.path := by
  cases node <;> rfl

/-- The union after a node was listed. -/
def listedAt (s : Store) (layers : List Filesystem) (w : Store × Overlay Filesystem Entry)
    (node : Node Entry) : Store × Overlay Filesystem Entry :=
  (afterMerge w.1 node.path layers, w.2.install node.slot (folded s layers node.path))

section
variable (n : Nat) (hs : ∀ f ∈ layers, f.CleanTree s) (h : Fresh s layers w node)
include hs h

theorem Fresh.exec_requireDirectory :
    (requireDirectory (Store.provider (n + 1)) node).exec w =
      (if (kindAt s node.offer?).isDirectory then .ok () else .error (.notADirectory node.path),
        w) :=
  exec_requireDirectory_of_kind (kind_of_source hs n h.trees h.source)

omit h in
/-- The root of a union is a directory. -/
theorem Fresh.exec_requireDirectory_root (h : Fresh s layers w .root) :
    (requireDirectory (Store.provider (n + 1)) .root).exec w = (.ok (), w) :=
  h.exec_requireDirectory n hs

/-- Listing a node asks the layers for its path. -/
theorem Fresh.exec_listed :
    (listed (Store.provider (n + 1)) node).exec w =
      (.ok (assignSlots w.2.listings.size (folded s layers node.path)),
        listedAt s layers w node) := by
  have hm := exec_mergeFrom n true h.path 0 (fun f hf => (hs f hf).congr h.trees) []
  have hstack : (layers.zipIdx.flatMap fun f => offersAt w.1 node.path f.2 f.1)
      = stacked s layers node.path := by
    simp only [stacked, offersAt_congr h.trees]
  simp [listed, scan, merge, h.dirty, h.stack, h.fold, hm, hstack, listedAt, folded,
    listing_install _ _ h.slot]

/-- What was listed is fresh again. -/
theorem Fresh.child {key : String} {child : Child Entry}
    (hmem : (key, child) ∈ assignSlots w.2.listings.size (folded s layers node.path)) :
    Fresh s layers (listedAt s layers w node) (.entry child) := by
  obtain ⟨hle, hat⟩ := getElem?_of_mem_assignSlots hmem
  have hlt : child.slot - w.2.listings.size < (folded s layers node.path).length :=
    (List.getElem?_eq_some_iff.mp hat).1
  have hoffer : child.offer ∈ stacked s layers node.path :=
    ((mem_withOffers (List.mem_of_getElem? hat)).resolve_left List.not_mem_nil).1
  obtain ⟨f, x, hf, hx, -, heq⟩ := (mem_stacked_iff hs h.path).mp hoffer
  have hpath : child.offer.path = join node.path x := congrArg Offer.path heq
  refine ⟨h.trees.trans (sameTrees_afterMerge _ _ _), h.stack, h.fold, h.live, ?_, ?_, ?_, ?_⟩
  · rw [listedAt, size_install]
    show child.slot < _
    omega
  · have hne : child.slot ≠ node.slot := fun he => absurd h.slot (by omega)
    show ((w.2.install _ _).listing child.slot).dirty = true
    rw [listing_install _ _ h.slot, if_neg hne, listing_of_size_le _ hle]
    rfl
  · rw [Node.path, hpath, h.path.join_eq_snoc hx]
    exact clean_ofNames (forall_mem_snoc (fun _ => h.path.isName) hx)
  · intro offer ho
    obtain rfl := Option.some.inj ho
    exact ⟨f, hf, by rw [hpath]; exact congrArg Offer.source heq⟩

end

/-- One step under a folded name. -/
def step (s : Store) (layers : List Filesystem) (place : Option (Offer Entry)) (c : String) :
    Option (Option (Offer Entry)) :=
  if (kindAt s place).isDirectory then (beneath s layers (pathAt place) c).map some else none

/-- The walk along folded names arrives where single steps lead. -/
theorem Fresh.exec_descend (n : Nat) (hs : ∀ f ∈ layers, f.CleanTree s) (rest : List String)
    (hrest : ∀ c ∈ rest, c ≠ "") (h : Fresh s layers w node) :
    ∃ r w', (descend (Store.provider (n + 1)) node rest).exec w = (r, w') ∧
      (∀ m, r = .ok (some m) → Fresh s layers w' m) ∧
      ∀ place, (∃ m, r = .ok (some m) ∧ m.offer? = place) ↔
        rest.foldlM (step s layers) node.offer? = some place := by
  induction rest generalizing node w with
  | nil =>
      refine ⟨_, w, rfl, ?_, fun place => ?_⟩
      · rintro m ⟨⟩
        exact h
      · simp
  | cons c rest ih =>
      rw [descend]
      simp only [exec_bind, h.exec_requireDirectory n hs, List.foldlM_cons, step]
      cases hk : (kindAt s node.offer?).isDirectory with
      | false => exact ⟨_, w, rfl, by rintro m ⟨⟩, fun place => by simp⟩
      | true =>
          have hl : beneath s layers node.path c
              = ((assignSlots w.2.listings.size (folded s layers node.path)).lookup c).map
                (·.offer) := by
            rw [← lookup_folded (hrest c (by simp)), ← lookup_map_offer, map_offer_assignSlots]
          simp only [if_true, listedChild, exec_bind, exec_pure, h.exec_listed n hs,
            pathAt_offer, hl]
          cases hc : (assignSlots w.2.listings.size (folded s layers node.path)).lookup c with
          | none => exact ⟨_, _, rfl, by rintro m ⟨⟩, fun place => by simp⟩
          | some child =>
              exact ih (fun d hd => hrest d (List.mem_cons_of_mem c hd))
                (h.child hs (mem_of_lookup hc))

/-- The entry at a path is where single steps lead along its folded names. -/
theorem Fresh.exec_entry (n : Nat) (hs : ∀ f ∈ layers, f.CleanTree s)
    (h : Fresh s layers w .root) (path : String) :
    ∃ r w', (entry (Store.provider (n + 1)) path).exec w = (r, w') ∧
      (∀ m, r = .ok (some m) → Fresh s layers w' m) ∧
      ∀ place, (∃ m, r = .ok (some m) ∧ m.offer? = place) ↔
        (components (normalize path true)).foldlM (step s layers) none = some place := by
  have hwalk := h.exec_descend n hs (components (normalize path true))
    fun c hc => (isComponent_of_mem hc).1
  rw [entry]
  simp only [exec_bind, exec_current, h.fold, exec_ite, exec_pure, String.isEmpty_iff]
  by_cases h0 : normalize path true = ""
  · rw [if_pos h0]
    rw [h0, components_empty, descend] at hwalk
    rw [h0, components_empty]
    exact hwalk
  · have hne := components_normalize_fold_ne_nil h0
    obtain ⟨c, cs, hc⟩ := List.exists_cons_of_ne_nil hne
    rw [hc] at hwalk
    simp only [if_neg h0, lookup, exec_bind, exec_requireLive h.live,
      h.exec_requireDirectory_root n hs, hc]
    exact hwalk

/-- The entries of a directory are those of the listing that the layers give together. -/
theorem Fresh.exec_children (n : Nat) (hs : ∀ f ∈ layers, f.CleanTree s)
    (h : Fresh s layers w node) (hd : (kindAt s node.offer?).isDirectory = true)
    (hread : (layers.any fun f => f.canRead s) = true) :
    ∃ es, ((children (Store.provider (n + 1)) node).exec w).1 = .ok es ∧
      (es.map fun e => listedName true e.path)
        = (folded s layers node.path).map fun e => listedName true e.2.path := by
  have hcan : (operations (Store.provider (n + 1)) w.2 w.1).covers (.only .read) = true :=
    (operations_covers_of_trees hs n h.trees h.stack .read).trans hread
  rw [children]
  simp only [exec_bind, exec_requireLive h.live, exec_require, if_pos hcan,
    h.exec_requireDirectory n hs, if_pos hd, h.exec_listed n hs, exec_pure]
  refine ⟨_, rfl, ?_⟩
  conv_rhs => rw [← map_offer_assignSlots w.2.listings.size (folded s layers node.path)]
  rw [List.map_map, List.map_map]
  rfl

/-- The listing has each folded name once, and those names that some layer has. -/
theorem keys_folded (hs : ∀ f ∈ layers, f.CleanTree s) (hp : Path.Clean path) :
    ((folded s layers path).map fun e => listedName true e.2.path).Nodup ∧
      ∀ c, c ∈ ((folded s layers path).map fun e => listedName true e.2.path) ↔
        ∃ f ∈ layers, HasFolded s path c f := by
  have hmem {e : String × Offer Entry} (he : e ∈ folded s layers path) :
      e.2 ∈ stacked s layers path ∧ e.1 = listedName true e.2.path :=
    (mem_withOffers he).resolve_left List.not_mem_nil
  have hkeys : ((folded s layers path).map fun e => listedName true e.2.path)
      = (folded s layers path).map (·.1) :=
    List.map_congr_left fun e he => (hmem he).2.symm
  rw [hkeys]
  refine ⟨nodup_withOffers (by simp), fun c => ⟨fun hc => ?_, ?_⟩⟩
  · obtain ⟨e, he, rfl⟩ := List.mem_map.mp hc
    obtain ⟨ho, hkey⟩ := hmem he
    obtain ⟨f, x, hat, hx, hholds, heq⟩ := (mem_stacked_iff hs hp).mp ho
    refine ⟨f, List.mem_of_getElem? hat, x, hx, ?_, hholds⟩
    rw [hkey, congrArg Offer.path heq, listedName_join hp hx]
  · rintro ⟨f, hf, x, hx, rfl, hholds⟩
    obtain ⟨o, ho, hkey⟩ := exists_stacked hs hp hf hx hholds
    rw [mem_keys_iff, lookup_folded hx.1.lower.1, beneath, List.find?_isSome]
    exact ⟨o, ho, beq_iff_eq.mpr hkey⟩

theorem Offers.path_eq {o : Offer Entry} (h : Offers s layers path c o) :
    ∃ x, IsName x ∧ lower x = c ∧ o.path = join path x := by
  obtain ⟨f, x, -, hx, hkey, -, heq⟩ := h.here
  exact ⟨x, hx, hkey, congrArg Offer.path heq⟩

/-- What is shown has a clean path, which folds to the names that it is shown under. -/
theorem Shown.path_folds {names : List String} {place : Option (Offer Entry)}
    (h : Shown s layers names place) :
    Path.Clean (pathAt place) ∧ (components (pathAt place)).map lower = names := by
  induction h with
  | root => exact ⟨clean_empty, rfl⟩
  | beneath _ _ hoffers ih =>
      obtain ⟨x, hx, rfl, hpath⟩ := hoffers.path_eq
      have hn := forall_mem_snoc (fun _ => ih.1.isName) hx
      rw [pathAt, hpath, ih.1.join_eq_snoc hx, components_ofNames fun n hm => (hn n hm).1,
        List.map_append, ih.2]
      exact ⟨clean_ofNames hn, rfl⟩

/-- One more name leads to what the layers have first under it, in a directory. -/
theorem foldlM_step_snoc {names : List String} {next : Option (Offer Entry)} :
    (names ++ [c]).foldlM (step s layers) none = some next ↔
      ∃ place o, names.foldlM (step s layers) none = some place ∧
        (kindAt s place).isDirectory = true ∧ beneath s layers (pathAt place) c = some o ∧
        next = some o := by
  simp only [List.foldlM_append, Option.bind_eq_bind, Option.bind_eq_some_iff, step,
    List.foldlM_cons, List.foldlM_nil]
  constructor
  · rintro ⟨place, hplace, hstep⟩
    by_cases hdir : (kindAt s place).isDirectory = true
    · obtain ⟨o, ho, hnext⟩ : ∃ o, beneath s layers (pathAt place) c = some o ∧ some o = next := by
        simpa [hdir] using hstep
      exact ⟨place, o, hplace, hdir, ho, hnext.symm⟩
    · simp [hdir] at hstep
  · rintro ⟨place, o, hplace, hdir, ho, rfl⟩
    exact ⟨place, hplace, by simp [hdir, ho]⟩

/-- The union shows what single steps lead to. -/
theorem shown_of_foldlM_step (hs : ∀ f ∈ layers, f.CleanTree s) {names : List String}
    {place : Option (Offer Entry)} (h : names.foldlM (step s layers) none = some place) :
    Shown s layers names place := by
  induction names using List.reverseRecOn generalizing place with
  | nil =>
      obtain rfl := Option.some.inj h
      exact .root
  | append_singleton names c ih =>
      obtain ⟨above, o, habove, hdir, ho, rfl⟩ := foldlM_step_snoc.mp h
      have hshown := ih habove
      exact hshown.beneath hdir (offers_of_beneath hs hshown.path_folds.1 ho)

/-- If no layer has two spellings of a name, single steps lead to all that the union shows. -/
theorem foldlM_step_eq_some (hs : ∀ f ∈ layers, f.CleanTree s)
    (hd : ∀ f ∈ layers, DistinctFolded s f) (names : List String) (place : Option (Offer Entry)) :
    names.foldlM (step s layers) none = some place ↔ Shown s layers names place := by
  refine ⟨shown_of_foldlM_step hs, fun h => ?_⟩
  induction h with
  | root => rfl
  | beneath habove hdir hoffers ih =>
      exact foldlM_step_snoc.mpr
        ⟨_, _, ih, hdir, (beneath_eq_some hs hd habove.path_folds.1).mpr hoffers, rfl⟩

/-! ## Layers that spell their directories alike -/

/-- Directories of the layers whose paths fold to the same have the same path. -/
def SpelledAlike (s : Store) (layers : List Filesystem) : Prop :=
  ∀ f ∈ layers, ∀ g ∈ layers, ∀ p q, lists s p f = true → lists s q g = true →
    normalize p true = normalize q true → p = q

/-- What the layers have under paths that fold to the same is of one kind. -/
def OneKind (s : Store) (layers : List Filesystem) : Prop :=
  ∀ f ∈ layers, ∀ g ∈ layers, ∀ p q, holds s p f = true → holds s q g = true →
    normalize p true = normalize q true → (f.outline s).kind p = (g.outline s).kind q

/-- The layer is the first that has something whose path folds as this text does. -/
structure FirstFolded (s : Store) (layers : List Filesystem) (path : String) (i : Nat) :
    Prop where
  here : ∃ f q, layers[i]? = some f ∧ holds s q f = true ∧ normalize q true = normalize path true
  first : ∀ j g q, j < i → layers[j]? = some g → holds s q g = true →
    normalize q true ≠ normalize path true

theorem clean_of_holds {f : Filesystem} (hf : f.CleanTree s) {q : String}
    (h : holds s q f = true) : Path.Clean q := by
  rw [holds, Bool.and_eq_true] at h
  exact hf.outline_clean.clean_of_exists h.2

theorem lists_iff_holds {f : Filesystem} {q : String} :
    lists s q f = true ↔ holds s q f = true ∧ (f.outline s).kind q = .directory := by
  simp only [lists, holds, Bool.and_eq_true, beq_iff_eq, and_assoc]
  refine and_congr_right fun _ => ⟨fun h => ⟨by rw [h]; rfl, h⟩, And.right⟩

/-- What a layer has lies in a directory of it. -/
theorem lists_of_holds {f : Filesystem} (hf : f.CleanTree s) {ns : List String} {x : String}
    (h : holds s (ofNames (ns ++ [x])) f = true) (hn : ∀ n ∈ ns ++ [x], IsComponent n) :
    lists s (ofNames ns) f = true := by
  rw [holds, Bool.and_eq_true] at h
  rw [lists, h.1, hf.outline_clean.directory_of_snoc hn h.2]
  rfl

section
variable (hs : ∀ f ∈ layers, f.CleanTree s)
include hs

/-- Of the layers that have something under a folded name, one is the first. -/
theorem exists_offers (hp : Path.Clean path) {f : Filesystem} (hf : f ∈ layers)
    (h : HasFolded s path c f) : ∃ o, Offers s layers path c o := by
  cases ho : beneath s layers path c with
  | some o => exact ⟨o, offers_of_beneath hs hp ho⟩
  | none => exact absurd h ((beneath_eq_none hs hp).mp ho f hf)

omit hs in
/-- A directory that is shown is one of the layer that it is of. -/
theorem Offers.lists_of_directory (hs : ∀ f ∈ layers, f.CleanTree s) {o : Offer Entry}
    (h : Offers s layers path c o) (hdir : (kindAt s (some o)).isDirectory = true) :
    ∃ f ∈ layers, lists s o.path f = true := by
  obtain ⟨f, x, hat, -, -, hholds, heq⟩ := h.here
  have hf := List.mem_of_getElem? hat
  have hpath : o.path = join path x := congrArg Offer.path heq
  refine ⟨f, hf, lists_iff_holds.mpr ⟨hpath ▸ hholds, ?_⟩⟩
  rw [kindAt, congrArg Offer.source heq, (hs f hf).kind_entryAt] at hdir
  rw [hpath]
  simpa [Kind.isDirectory] using hdir

/-- If the layers spell their directories alike, each is shown. -/
theorem shown_of_lists (halike : SpelledAlike s layers) (hkind : OneKind s layers)
    {f : Filesystem} (hf : f ∈ layers) {ns : List String} (hn : ∀ n ∈ ns, IsName n)
    (h : lists s (ofNames ns) f = true) :
    ∃ place, Shown s layers (ns.map lower) place ∧ pathAt place = ofNames ns ∧
      (kindAt s place).isDirectory = true := by
  induction ns using List.reverseRecOn with
  | nil => exact ⟨none, .root, rfl, rfl⟩
  | append_singleton ns x ih =>
      have hns : ∀ n ∈ ns, IsName n := fun n hm => hn n (List.mem_append_left _ hm)
      have hx : IsName x := hn x (by simp)
      obtain ⟨hholds, hdir⟩ := lists_iff_holds.mp h
      obtain ⟨above, hshown, habove, hadir⟩ :=
        ih hns (lists_of_holds (hs f hf) hholds fun n hm => (hn n hm).1)
      have hclean := clean_ofNames hns
      have hjoin : join (ofNames ns) x = ofNames (ns ++ [x]) :=
        join_ofNames_name (fun n hm => (hns n hm).1) hx
      obtain ⟨o, ho⟩ := exists_offers hs hclean hf ⟨x, hx, rfl, hjoin ▸ hholds⟩
      have hshown' : Shown s layers ((ns ++ [x]).map lower) (some o) := by
        rw [List.map_append]
        exact hshown.beneath hadir (habove ▸ ho)
      obtain ⟨g, y, hat, hy, hkey, hg, heq⟩ := ho.here
      have hpath : o.path = join (ofNames ns) y := congrArg Offer.path heq
      -- what is shown there folds to the same, so it is a directory too, and the same one
      have hfold : normalize o.path true = normalize (ofNames (ns ++ [x])) true := by
        obtain ⟨hoclean, hnames⟩ : Path.Clean o.path ∧ _ := hshown'.path_folds
        rw [hoclean.normalize_fold_eq_iff, components_normalize_fold, normalize_ofNames hn,
          components_ofNames fun n hm => (hn n hm).1]
        exact hnames
      have hgl := List.mem_of_getElem? hat
      have hgdir : lists s o.path g = true :=
        lists_iff_holds.mpr ⟨hpath ▸ hg, (hkind g hgl f hf _ _ (hpath ▸ hg) hholds hfold).trans hdir⟩
      refine ⟨some o, hshown', halike g hgl f hf _ _ hgdir h hfold, ?_⟩
      rw [kindAt, congrArg Offer.source heq, (hs g hgl).kind_entryAt, ← hpath,
        (lists_iff_holds.mp hgdir).2]
      rfl

/-- If the layers spell their directories alike, one has the directory that is shown if it has one
that folds to the same. -/
theorem Shown.eq_pathAt (halike : SpelledAlike s layers) {g : Filesystem} (hg : g ∈ layers)
    {ns : List String} (hn : ∀ n ∈ ns, IsName n) (hlist : lists s (ofNames ns) g = true)
    {place : Option (Offer Entry)} (h : Shown s layers (ns.map lower) place)
    (hdir : (kindAt s place).isDirectory = true) : ofNames ns = pathAt place := by
  have hpath := h.path_folds
  have hfold : normalize (ofNames ns) true = normalize (pathAt place) true := by
    rw [← hpath.1.ofNames_components]
    exact normalize_fold_ofNames hn (fun _ => hpath.1.isName) hpath.2.symm
  generalize hnames : ns.map lower = names at h hpath
  cases h with
  | root => rw [List.map_eq_nil_iff.mp hnames, ofNames_nil, pathAt]
  | beneath _ _ hoffers =>
      obtain ⟨f, hf, hlist'⟩ := hoffers.lists_of_directory hs hdir
      exact halike g hg f hf _ _ hlist hlist' hfold

/-- If the layers spell their directories alike, what one has in the directory that is shown is all
that it has in directories that fold to the same. -/
theorem Shown.hasFolded_iff (halike : SpelledAlike s layers) {names : List String}
    {place : Option (Offer Entry)} (h : Shown s layers names place)
    (hdir : (kindAt s place).isDirectory = true) {f : Filesystem} (hf : f ∈ layers) (c : String) :
    HasFolded s (pathAt place) c f ↔
      ∃ q, lists s q f = true ∧ normalize q true = normalize (pathAt place) true ∧
        HasFolded s q c f := by
  obtain ⟨hclean, hnames⟩ := h.path_folds
  constructor
  · rintro ⟨x, hx, hkey, hholds⟩
    refine ⟨pathAt place, ?_, rfl, x, hx, hkey, hholds⟩
    rw [hclean.join_eq_snoc hx] at hholds
    have hlist := lists_of_holds (hs f hf) hholds
      (forall_mem_snoc (fun _ => isComponent_of_mem) hx.1)
    rw [hclean.ofNames_components] at hlist
    exact hlist
  · rintro ⟨q, hq, hfold, hhas⟩
    have hqclean := clean_of_holds (hs f hf) (lists_iff_holds.mp hq).1
    have hqnames : (components q).map lower = names := by
      rw [(hqclean.normalize_fold_eq_iff _).mp hfold, ← (hclean.normalize_fold_eq_iff _).mp rfl]
      exact hnames
    rw [← hqnames] at h
    rw [← hqclean.ofNames_components] at hq
    have hsame := h.eq_pathAt hs halike hf (fun _ => hqclean.isName) hq hdir
    rw [hqclean.ofNames_components] at hsame
    rw [← hsame]
    exact hhas

theorem Shown.firstFolded (halike : SpelledAlike s layers) {o : Offer Entry}
    (h : Shown s layers (components (normalize path true)) (some o)) :
    normalize path true ≠ "" ∧ FirstFolded s layers path o.layer := by
  obtain ⟨hoclean, homap⟩ : Path.Clean o.path ∧ _ := h.path_folds
  have hofold := (hoclean.normalize_fold_eq_iff path).mpr homap
  generalize hnames : components (normalize path true) = names at h
  cases h with
  | beneath habove hdir hoffers =>
      obtain ⟨f, x, hat, -, -, hholds, heq⟩ := hoffers.here
      have hpath : o.path = join (pathAt _) x := congrArg Offer.path heq
      refine ⟨fun h0 => ?_, ⟨f, o.path, hat, hpath ▸ hholds, hofold⟩, ?_⟩
      · rw [h0, components_empty] at hnames
        simp at hnames
      · intro j g q hj hg hq hqfold
        have hgl := List.mem_of_getElem? hg
        obtain ⟨ns, y, rfl, hn, rfl, hy⟩ :=
          (clean_of_holds (hs g hgl) hq).exists_snoc_of_fold hqfold hnames
        have hnsn : ∀ n ∈ ns, IsName n := fun n hm => hn n (List.mem_append_left _ hm)
        have hlist := lists_of_holds (hs g hgl) hq fun n hm => (hn n hm).1
        refine hoffers.first j g hj hg ⟨y, hn y (by simp), hy, ?_⟩
        rw [← habove.eq_pathAt hs halike hgl hnsn hlist hdir,
          join_ofNames_name (fun n hm => (hnsn n hm).1) (hn y (by simp))]
        exact hq

/-- If the layers spell their directories alike, something is shown where one of them has it, and it
is of the first of these. -/
theorem shown_of_firstFolded (halike : SpelledAlike s layers) (hkind : OneKind s layers) {i : Nat}
    (h0 : normalize path true ≠ "") (h : FirstFolded s layers path i) :
    ∃ o, Shown s layers (components (normalize path true)) (some o) ∧ o.layer = i := by
  obtain ⟨⟨f, q, hat, hholds, hfold⟩, hfirst⟩ := h
  have hf := List.mem_of_getElem? hat
  obtain ⟨names, c, hnames⟩ : ∃ names c, components (normalize path true) = names ++ [c] := by
    rcases List.eq_nil_or_concat' (components (normalize path true)) with hnil | h
    · exact absurd hnil (components_normalize_fold_ne_nil h0)
    · exact h
  obtain ⟨ns, x, rfl, hn, rfl, rfl⟩ :=
    (clean_of_holds (hs f hf) hholds).exists_snoc_of_fold hfold hnames
  have hnsn : ∀ n ∈ ns, IsName n := fun n hm => hn n (List.mem_append_left _ hm)
  have hx : IsName x := hn x (by simp)
  have hjoin {y : String} (hy : IsName y) : join (ofNames ns) y = ofNames (ns ++ [y]) :=
    join_ofNames_name (fun n hm => (hnsn n hm).1) hy
  obtain ⟨place, hshown, hpath, hdir⟩ := shown_of_lists hs halike hkind hf hnsn
    (lists_of_holds (hs f hf) hholds fun n hm => (hn n hm).1)
  have hoffers : Offers s layers (ofNames ns) (lower x)
      ⟨join (ofNames ns) x, f.entryAt (join (ofNames ns) x), i⟩ := by
    refine ⟨⟨f, x, hat, hx, rfl, by rw [hjoin hx]; exact hholds, rfl⟩, ?_⟩
    rintro j g hj hg ⟨y, hy, hkey, hgholds⟩
    rw [hjoin hy] at hgholds
    refine hfirst j g _ hj hg hgholds ?_
    rw [← hfold]
    refine normalize_fold_ofNames (forall_mem_snoc hnsn hy) hn ?_
    rw [List.map_append, List.map_append, List.map_singleton, List.map_singleton, hkey]
  rw [← hpath] at hoffers
  rw [hnames]
  exact ⟨_, hshown.beneath hdir hoffers, rfl⟩

end

/-! ## A new union that folds case -/

/-- A new union that folds case, over layers in which no two entries of a directory fold to the
same name.  A path leads to what is shown under its folded names.  The listing of a directory that
it leads to has one entry for each folded name that some layer has in the directory of that very
path.  If moreover the layers spell their directories alike and agree in kind where paths fold to
the same, then the union shows whatever some layer has: a path other than the root leads to the first
layer that has something whose path folds to the same, and a directory lists what lies in all
directories that fold to its path. -/
theorem entry_folded (n : Nat) {policy : Policy} (hs : ∀ f ∈ layers, f.CleanTree s)
    (hd : ∀ f ∈ layers, DistinctFolded s f) (path : String) :
    ∃ r w', (entry (Store.provider (n + 1)) path).exec
        (s, { layers := layers, fold := true, policy := policy }) = (r, w') ∧
      (∀ place, (∃ e, r = .ok (some e) ∧ e.offer? = place) ↔
        Shown s layers (components (normalize path true)) place) ∧
      (∀ d, r = .ok (some d) → kind (Store.provider (n + 1)) d w'.1 = .directory →
        (layers.any fun f => f.canRead s) = true →
        ∃ es, ((children (Store.provider (n + 1)) d).exec w').1 = .ok es ∧
          (es.map fun e => listedName true e.path).Nodup ∧
          ∀ c, c ∈ (es.map fun e => listedName true e.path) ↔
            ∃ f ∈ layers, HasFolded s d.path c f) ∧
      (SpelledAlike s layers → OneKind s layers →
        (∀ i, (∃ e, r = .ok (some e) ∧ e.layer? = some i) ↔
          normalize path true ≠ "" ∧ FirstFolded s layers path i) ∧
        ∀ d, r = .ok (some d) → kind (Store.provider (n + 1)) d w'.1 = .directory →
          ∀ f ∈ layers, ∀ c, HasFolded s d.path c f ↔
            ∃ q, lists s q f = true ∧ normalize q true = normalize d.path true ∧
              HasFolded s q c f) := by
  obtain ⟨r, w', hexec, hnode, hstep⟩ := (fresh_new s layers policy).exec_entry n hs path
  have hshown (place : Option (Offer Entry)) : (∃ e, r = .ok (some e) ∧ e.offer? = place) ↔
      Shown s layers (components (normalize path true)) place :=
    (hstep place).trans (foldlM_step_eq_some hs hd _ place)
  have hdirectory {d : Node Entry} (hr : r = .ok (some d))
      (hk : kind (Store.provider (n + 1)) d w'.1 = .directory) :
      (kindAt s d.offer?).isDirectory = true := by
    rw [← kind_of_source hs n (hnode d hr).trees (hnode d hr).source, hk]
    rfl
  refine ⟨r, w', hexec, hshown, ?_, fun halike hkind => ⟨fun i => ?_, ?_⟩⟩
  · intro d hr hk hread
    have hdfresh := hnode d hr
    obtain ⟨es, hes, hkeys⟩ := hdfresh.exec_children n hs (hdirectory hr hk) hread
    refine ⟨es, hes, ?_⟩
    rw [hkeys]
    exact keys_folded hs hdfresh.path
  · constructor
    · rintro ⟨e, hr, hlayer⟩
      cases e with
      | root => cases hlayer
      | entry child =>
          obtain rfl := Option.some.inj hlayer
          exact ((hshown _).mp ⟨_, hr, rfl⟩ : Shown s layers _ (some child.offer)).firstFolded hs
            halike
    · rintro ⟨h0, hfirst⟩
      obtain ⟨o, ho, rfl⟩ := shown_of_firstFolded hs halike hkind h0 hfirst
      obtain ⟨e, hr, hoffer⟩ := (hshown (some o)).mpr ho
      refine ⟨e, hr, ?_⟩
      cases e with
      | root => cases hoffer
      | entry child =>
          obtain rfl := Option.some.inj hoffer
          rfl
  · intro d hr hk f hf c
    have hdshown := (hshown d.offer?).mp ⟨d, hr, rfl⟩
    rw [← pathAt_offer]
    exact hdshown.hasFolded_iff hs halike (hdirectory hr hk) hf c

/-! ## Two spellings of a directory -/

theorem mem_paths_of_holds {id : Nat} {p : String} (h : holds s p (.memory id) = true) :
    p ∈ (s.memory id).tree.paths := by
  rw [holds, Bool.and_eq_true] at h
  exact ((s.memory id).tree.exists?_kind p).mp h.2

theorem distinctFolded_memory {id : Nat}
    (h : ∀ p ∈ (s.memory id).tree.paths, ∀ q ∈ (s.memory id).tree.paths,
      parentOrRoot p = parentOrRoot q → listedName true p = listedName true q → p = q) :
    DistinctFolded s (.memory id) :=
  fun p q hp hq => h p (mem_paths_of_holds hp) q (mem_paths_of_holds hq)

theorem oneKind_memories {ids : List Nat} (kindOf : String → Kind)
    (h : ∀ i ∈ ids, ∀ p ∈ (s.memory i).tree.paths,
      (s.memory i).kind p = kindOf (normalize p true)) :
    OneKind s (ids.map .memory) := by
  intro f hf g hg p q hp hq hfold
  obtain ⟨i, hi, rfl⟩ := List.mem_map.mp hf
  obtain ⟨j, hj, rfl⟩ := List.mem_map.mp hg
  have hpkind := h i hi p (mem_paths_of_holds hp)
  have hqkind := h j hj q (mem_paths_of_holds hq)
  rw [hfold] at hpkind
  exact hpkind.trans hqkind.symm

/-- Two memory filesystems that spell a directory in two ways. -/
def twoSpellings : Store where
  memories := #[{ tree := ⟨⟨[("", .directory .epoch), ("Docs", .directory .epoch),
      ("Docs/a", .file [] .epoch)]⟩⟩ },
    { tree := ⟨⟨[("", .directory .epoch), ("docs", .directory .epoch),
      ("docs/b", .file [] .epoch)]⟩⟩ }]

/-- A new union over both that folds case. -/
def twoSpellingsUnion : Store × Overlay Filesystem Entry :=
  (twoSpellings, { layers := [0, 1].map .memory, fold := true })

theorem distinctFolded_twoSpellings :
    ∀ f ∈ twoSpellingsUnion.2.layers, DistinctFolded twoSpellings f := by
  intro f hf
  obtain ⟨id, hid, rfl⟩ := List.mem_map.mp hf
  refine distinctFolded_memory ?_
  revert id
  decide +kernel

theorem entry_folded_twoSpellings :
    (∀ f ∈ twoSpellingsUnion.2.layers, f.CleanTree twoSpellings) ∧
      (∀ f ∈ twoSpellingsUnion.2.layers, DistinctFolded twoSpellings f) ∧
      ∃ e w', (entry (Store.provider 1) "DOCS/A").exec twoSpellingsUnion = (.ok (some e), w') ∧
        e.offer? = some ⟨"Docs/a", .memory 0 "Docs/a", 0⟩ := by
  have hs : ∀ f ∈ twoSpellingsUnion.2.layers, f.CleanTree twoSpellings := by decide
  have hd := distinctFolded_twoSpellings
  obtain ⟨r, w', hexec, hshown, -⟩ := entry_folded 0 hs hd "DOCS/A"
  have hnames : components (normalize "DOCS/A" true) = ["docs", "a"] := by decide +kernel
  have hdocs : Offers twoSpellings twoSpellingsUnion.2.layers "" "docs"
      ⟨join "" "Docs", .memory 0 (join "" "Docs"), 0⟩ :=
    ⟨⟨_, "Docs", rfl, by decide, by decide +kernel, by decide +kernel, rfl⟩,
      fun _ _ hj => absurd hj (Nat.not_lt_zero _)⟩
  have hfile : Offers twoSpellings twoSpellingsUnion.2.layers (join "" "Docs") "a"
      ⟨join (join "" "Docs") "a", .memory 0 (join (join "" "Docs") "a"), 0⟩ :=
    ⟨⟨_, "a", rfl, by decide, by decide +kernel, by decide +kernel, rfl⟩,
      fun _ _ hj => absurd hj (Nat.not_lt_zero _)⟩
  have hshown' := (Shown.root.beneath rfl hdocs).beneath (by decide +kernel) hfile
  rw [hnames] at hshown
  obtain ⟨e, rfl, hoffer⟩ := (hshown _).mpr hshown'
  exact ⟨hs, hd, e, w', hexec, hoffer⟩

/-- What lies in the directory of the other spelling is not shown. -/
theorem other_spelling_missed :
    (∀ f ∈ twoSpellingsUnion.2.layers, f.CleanTree twoSpellings ∧ f.canRead twoSpellings = true) ∧
      (∀ f ∈ twoSpellingsUnion.2.layers, DistinctFolded twoSpellings f) ∧
      OneKind twoSpellings twoSpellingsUnion.2.layers ∧
      holds twoSpellings "docs/b" (.memory 1) = true ∧
      normalize "docs/b" true = "docs/b" ∧
      ((entry (Store.provider 1) "docs/b").exec twoSpellingsUnion).1.toOption.map
        (·.map Node.path) = some none :=
  ⟨by decide, distinctFolded_twoSpellings,
    oneKind_memories (fun p => if p = "" ∨ p = "docs" then .directory else .file)
      (by decide +kernel),
    by decide +kernel, by decide +kernel, by decide +kernel⟩

end Strata.Overlay
