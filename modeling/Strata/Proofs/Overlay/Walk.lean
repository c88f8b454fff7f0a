/-
# `Strata.Proofs.Overlay.Walk` — listing and looking up, whatever is cached

`follow` says where names lead by what the layers provide, with no cache.  A walk
that starts from a held node arrives there (`exec_descend`): a clean listing on
the way answers what the layers would, a dirty one is computed from them.  The
walk is `Quiet`: it changes no tree, and whatever was known of a held node stays
known.
-/
import Strata.Overlay.Calls
import Strata.Proofs.Overlay.Held

namespace Strata.Overlay

open Strata.Action Strata.Path

variable {s : Store} {layers : List Filesystem} {label label' label'' : Nat → String}
  {fits : String → List (String × Offer Entry) → Prop}
  {w w' w'' : Store × Overlay Filesystem Entry} {node : Node Entry}

/-! ## Where names lead -/

/-- What is at a place: at the root, or where an offer is from. -/
def kindAt (s : Store) : Option (Offer Entry) → Kind
  | none => .directory
  | some offer => offer.source.kind s

/-- Where the rest of the names leads from the place that the first ones led to. -/
def follow (s : Store) (layers : List Filesystem) :
    List String → Option (Offer Entry) → List String →
      Except Failure (Option (Option (Offer Entry)))
  | _, place, [] => .ok (some place)
  | done, place, c :: cs =>
    if (kindAt s place).isDirectory then
      match provided s layers (ofNames (done ++ [c])) with
      | some offer => follow s layers (done ++ [c]) (some offer) cs
      | none => .ok none
    else .error (.notADirectory (ofNames done))

/-- A walk goes on where its first part arrived. -/
theorem follow_append {done first rest : List String} {place next : Option (Offer Entry)}
    (h : follow s layers done place first = .ok (some next)) :
    follow s layers done place (first ++ rest) = follow s layers (done ++ first) next rest := by
  induction first generalizing done place with
  | nil =>
      obtain rfl := Option.some.inj (Except.ok.inj h)
      simp
  | cons c first ih =>
      rw [follow] at h
      rw [List.cons_append, follow]
      split at h
      · rename_i hd
        rw [if_pos hd]
        cases hp : provided s layers (ofNames (done ++ [c])) with
        | none =>
            rw [hp] at h
            cases h
        | some offer =>
            rw [hp] at h
            simpa using ih h
      · cases h

/-! ## Worlds over the same trees -/

/-- The union is over these layers, which are as in the store; it tells case apart and lives. -/
structure Over (s : Store) (layers : List Filesystem) (w : Store × Overlay Filesystem Entry) :
    Prop where
  trees : s.SameTrees w.1
  layers : w.2.layers = layers
  fold : w.2.fold = false
  live : w.2.released = false

/-- The union as it was made. -/
def anew (o : Overlay Filesystem Entry) : Overlay Filesystem Entry :=
  { layers := o.layers, fold := o.fold, policy := o.policy }

theorem Over.anew (h : Over s layers w) : Over s layers (w.1, anew w.2) :=
  ⟨h.trees, h.layers, h.fold, rfl⟩

theorem Over.changed (h : Over s layers w) (s' : Store) : Over s' layers (s', w.2) :=
  ⟨.refl s', h.layers, h.fold, h.live⟩

theorem holds_anew (o : Overlay Filesystem Entry) :
    Holds layers (fun _ => "") fits (anew o) .root := holds_root Nat.zero_lt_one rfl rfl

/-- The trees and the settings of the union stay, and so does what is known of held nodes, as far
as the listings of the layers agree with it. -/
structure Quiet (s : Store) (layers : List Filesystem) (label : Nat → String)
    (w : Store × Overlay Filesystem Entry) (label' : Nat → String)
    (w' : Store × Overlay Filesystem Entry) : Prop where
  base : Over s layers w'
  policy : w'.2.policy = w.2.policy
  size : w.2.listings.size ≤ w'.2.listings.size
  labelled : ∀ j < w.2.listings.size, label' j = label j
  holds : ∀ fits node, (∀ d, Path.Clean d → fits d (merged s layers d)) →
    Holds layers label fits w.2 node → Holds layers label' fits w'.2 node

theorem Quiet.refl (hw : Over s layers w) : Quiet s layers label w label w :=
  ⟨hw, rfl, le_rfl, fun _ _ => rfl, fun _ _ _ h => h⟩

theorem Quiet.trans (h : Quiet s layers label w label' w')
    (h' : Quiet s layers label' w' label'' w'') : Quiet s layers label w label'' w'' where
  base := h'.base
  policy := h'.policy.trans h.policy
  size := h.size.trans h'.size
  labelled j hj := (h'.labelled j (hj.trans_le h.size)).trans (h.labelled j hj)
  holds fits node hf hn := h'.holds fits node hf (h.holds fits node hf hn)

/-- Clean listings stay as they are. -/
def Keeps (o o' : Overlay Filesystem Entry) : Prop :=
  ∀ j, (o.listing j).dirty = false → o'.listing j = o.listing j

theorem Keeps.refl (o : Overlay Filesystem Entry) : Keeps o o := fun _ _ => rfl

theorem Keeps.trans {o o' o'' : Overlay Filesystem Entry} (h : Keeps o o') (h' : Keeps o' o'') :
    Keeps o o'' := fun j hd => by rw [h' j (by rw [h j hd]; exact hd), h j hd]

theorem Keeps.cached {o o' : Overlay Filesystem Entry} (h : Keeps o o') {cs : List String}
    {n : Node Entry} (hc : o.cached node cs = some n) : o'.cached node cs = some n := by
  induction cs generalizing node with
  | nil => exact hc
  | cons c cs ih =>
      obtain ⟨hd, child, hl, hn⟩ := cached_cons.mp hc
      have hk := h _ hd
      exact cached_cons.mpr ⟨by rw [hk]; exact hd, child, by rw [hk]; exact hl, ih hn⟩

/-- On the way along the names, what fits has the next name as the layers provide it. -/
def Guides (s : Store) (layers : List Filesystem)
    (fits : String → List (String × Offer Entry) → Prop) (names : List String) : Prop :=
  ∀ pre x t, pre ++ [x] <+: names → fits (ofNames pre) t →
    t.lookup x = provided s layers (ofNames (pre ++ [x]))

/-- What the layers give together now. -/
def AsMerged (s : Store) (layers : List Filesystem) (path : String)
    (table : List (String × Offer Entry)) : Prop :=
  table = merged s layers path

theorem asMerged (s : Store) (layers : List Filesystem) :
    ∀ d, Path.Clean d → AsMerged s layers d (merged s layers d) := fun _ _ => rfl

/-! ## Single steps -/

section
variable {F E σ α : Type} {w : σ × Overlay F E} {node : Node E}

@[simp] theorem exec_current : (current : Call σ F E _).exec w = (.ok w.2, w) := rfl

@[simp] theorem exec_update (f : Overlay F E → Overlay F E) :
    (update f : Call σ F E Unit).exec w = (.ok (), (w.1, f w.2)) := rfl

@[simp] theorem exec_below (x : Action σ α) :
    (below x : Call σ F E α).exec w = ((x.exec w.1).1, ((x.exec w.1).2, w.2)) := rfl

theorem exec_requireLive (h : w.2.released = false) :
    (requireLive node : Call σ F E Unit).exec w = (.ok (), w) := by
  simp [requireLive, h]

theorem exec_require {S : Type} (P : Provider σ F E S) (ops : Operations) (what : String) :
    (require P ops what node : Call σ F E Unit).exec w =
      (if (operations P w.2 w.1).covers ops then .ok ()
        else .error (.unsupported
          s!"no filesystem in the union supports {what}: {node.path}"), w) := by
  simp only [require, exec_bind, exec_get]
  cases (operations P w.2 w.1).covers ops <;> rfl

/-- A union may be asked what some layer may be asked. -/
theorem operations_covers_only {S : Type} (P : Provider σ F E S) (o : Overlay F E) (s : σ)
    (op : Operation) :
    (operations P o s).covers (.only op)
      = o.layers.any fun f => (P.operations f s).covers (.only op) := by
  have all (ls : List F) (acc : Operations) :
      op ∈ ls.foldl (fun acc f => acc ∪ P.operations f s) acc ↔
        op ∈ acc ∨ ∃ f ∈ ls, op ∈ P.operations f s := by
    induction ls generalizing acc with
    | nil => simp
    | cons f ls ih =>
        rw [List.foldl_cons, ih, Operations.mem_union]
        simp [or_assoc]
  rw [operations, Bool.eq_iff_iff, Operations.covers_only, all, List.any_eq_true]
  simp only [Operations.covers_only]
  have : op ∉ Operations.none := by cases op <;> decide
  simp [this]

end

section
variable (hs : ∀ f ∈ layers, f.CleanTree s) (n : Nat)
include hs

omit n in
/-- The listings that the layers give together guide everywhere. -/
theorem guides_merged {names : List String} (hn : ∀ m ∈ names, IsComponent m) :
    Guides s layers (AsMerged s layers) names := by
  rintro pre x t hpre rfl
  exact lookup_merged hs fun m hm => hn m (hpre.subset hm)

/-- What is at a node that is a layer's handle on its path. -/
theorem kind_of_source {t : Store} (ht : s.SameTrees t)
    (hsource : ∀ offer, node.offer? = some offer →
      ∃ f, layers[offer.layer]? = some f ∧ offer.source = f.entryAt offer.path) :
    kind (Store.provider (n + 1)) node t = kindAt s node.offer? := by
  cases node with
  | root => rfl
  | entry child =>
      obtain ⟨f, hf, hsource⟩ := hsource _ rfl
      have hc := hs f (List.mem_of_getElem? hf)
      show child.offer.source.kind t = child.offer.source.kind s
      rw [hsource, (hc.congr ht).kind_entryAt, hc.kind_entryAt, Filesystem.outline_congr ht]

theorem kind_eq_kindAt (hw : Over s layers w) (h : Sound layers label fits w.2 node) :
    kind (Store.provider (n + 1)) node w.1 = kindAt s node.offer? :=
  kind_of_source hs n hw.trees h.source

theorem kindAt_congr (hw : Over s layers w) (h : Sound layers label fits w.2 node) :
    kindAt w.1 node.offer? = kindAt s node.offer? := by
  rw [← kind_eq_kindAt hs 0 hw h]
  cases node <;> rfl

omit hs n in
theorem exec_requireDirectory_of_kind {P : Provider Store Filesystem Entry Stream} {k : Kind}
    (hk : kind P node w.1 = k) :
    (requireDirectory P node).exec w =
      (if k.isDirectory then .ok () else .error (.notADirectory node.path), w) := by
  simp only [requireDirectory, exec_bind, exec_get, hk]
  cases k.isDirectory <;> rfl

theorem exec_requireDirectory (hw : Over s layers w) (h : Sound layers label fits w.2 node) :
    (requireDirectory (Store.provider (n + 1)) node).exec w =
      (if (kindAt s node.offer?).isDirectory then .ok () else .error (.notADirectory node.path),
        w) :=
  exec_requireDirectory_of_kind (kind_eq_kindAt hs n hw h)

theorem exec_scan (hw : Over s layers w) (h : Sound layers label fits w.2 node) :
    (scan (Store.provider (n + 1)) node).exec w =
      (.ok (), (afterMerge w.1 node.path layers,
        w.2.install node.slot (merged s layers node.path))) := by
  have hm := exec_merge n h.path (fun f hf => (hs f hf).congr hw.trees)
  simp [scan, hw.layers, hw.fold, hm, merged_congr hw.trees]

/-- What a scan leaves behind. -/
theorem quiet_scan (hw : Over s layers w) (h : Sound layers label fits w.2 node) :
    Quiet s layers label w (relabel label w.2 (merged s layers node.path))
      (afterMerge w.1 node.path layers,
        w.2.install node.slot (merged s layers node.path)) where
  base := ⟨hw.trees.trans (sameTrees_afterMerge _ _ _), hw.layers, hw.fold, hw.live⟩
  policy := rfl
  size := by simp
  labelled j hj := relabel_of_lt hj _
  holds fits m hf hm := by
    have hmade := made_merged hs h.path
    have hfit := hf _ h.path
    rw [← h.label] at hmade hfit
    have := hm.install h.slot (h.label ▸ h.path) hmade hfit
    rwa [h.label] at this

/-- A clean listing is the answer; a dirty one is computed first, and then is the answer. -/
theorem exec_listed (hw : Over s layers w) (h : Sound layers label fits w.2 node) :
    ∃ label' w', (listed (Store.provider (n + 1)) node).exec w =
        (.ok (w'.2.listing node.slot).children, w') ∧
      (w'.2.listing node.slot).dirty = false ∧ Keeps w.2 w'.2 ∧
      Quiet s layers label w label' w' ∧
      w' = if (w.2.listing node.slot).dirty then
          (afterMerge w.1 node.path layers,
            w.2.install node.slot (merged s layers node.path))
        else w := by
  cases hd : (w.2.listing node.slot).dirty with
  | false =>
      refine ⟨label, w, ?_, hd, .refl _, .refl hw, rfl⟩
      simp [listed, hd]
  | true =>
      refine ⟨_, _, ?_, ?_, ?_, quiet_scan hs hw h, rfl⟩
      · simp [listed, hd, exec_scan hs n hw h]
      · rw [listing_install _ _ h.slot, if_pos rfl]
      · intro j hj
        have hne : j ≠ node.slot := by
          rintro rfl
          rw [hd] at hj; cases hj
        rw [listing_install _ _ h.slot, if_neg hne]

/-- The walk arrives where the names lead, if what fits guides it there; in any case it arrives at
a node that clean listings lead to. -/
theorem exec_descend (hm : ∀ d, Path.Clean d → fits d (merged s layers d)) (rest : List String)
    (hw : Over s layers w) (h : Holds layers label fits w.2 node) :
    ∃ r label' w', (descend (Store.provider (n + 1)) node rest).exec w = (r, w') ∧
      Quiet s layers label w label' w' ∧ Keeps w.2 w'.2 ∧
      (Guides s layers fits (components node.path ++ rest) →
        r.map (·.map Node.offer?) = follow s layers (components node.path) node.offer? rest) ∧
      ∀ m, r = .ok (some m) → w'.2.cached node rest = some m := by
  induction rest generalizing node label w with
  | nil =>
      refine ⟨.ok (some node), label, w, rfl, .refl hw, .refl _, fun _ => rfl, ?_⟩
      intro m hr
      rw [cached_nil, Option.some.inj (Except.ok.inj hr)]
  | cons c rest ih =>
      have hpath := h.sound.path.ofNames_components
      rw [descend, follow, hpath]
      simp only [exec_bind, exec_requireDirectory hs n hw h.sound]
      cases hk : (kindAt s node.offer?).isDirectory with
      | false =>
          exact ⟨_, label, w, rfl, .refl hw, .refl _, fun _ => rfl, fun m hr => by cases hr⟩
      | true =>
          obtain ⟨label₁, w₁, he₁, hd₁, hk₁, hq₁, -⟩ := exec_listed hs n hw h.sound
          have h₁ := hq₁.holds fits node hm h
          -- the clean listing has under the next name what the layers provide
          have hl (hg : Guides s layers fits (components node.path ++ c :: rest)) :
              provided s layers (ofNames (components node.path ++ [c]))
                = ((w₁.2.listing node.slot).children.lookup c).map (·.offer) := by
            rw [← lookup_offers]
            exact (hg _ _ _ ⟨rest, by simp⟩ (by rw [hpath]; exact h₁.sound.fits hd₁)).symm
          simp only [if_true, listedChild, exec_bind, exec_pure, he₁]
          cases hc : (w₁.2.listing node.slot).children.lookup c with
          | none =>
              refine ⟨.ok none, label₁, w₁, rfl, hq₁, hk₁, fun hg => ?_, fun m hr => by cases hr⟩
              rw [hl hg, hc]
              rfl
          | some child =>
              have hat : w₁.2.cached node [c] = some (.entry child) :=
                cached_cons.mpr ⟨hd₁, child, hc, cached_nil _ _⟩
              have hcomps := h₁.path_of_cached hat
              obtain ⟨r, label', w', he, hq, hk', hr, hcached⟩ := ih hq₁.base (h₁.of_cached hat)
              refine ⟨r, label', w', he, hq₁.trans hq, hk₁.trans hk', ?_, ?_⟩
              · intro hg
                rw [hr (by rw [hcomps]; simpa using hg), hl hg, hc, hcomps]
                rfl
              · intro m hm
                exact cached_append.mpr ⟨_, hk'.cached hat, hcached m hm⟩

/-! ## Calls that look something up -/

theorem exec_lookup (hm : ∀ d, Path.Clean d → fits d (merged s layers d)) {path : String}
    (h0 : components path ≠ []) (hw : Over s layers w) (h : Holds layers label fits w.2 node) :
    ∃ r label' w', (lookup (Store.provider (n + 1)) node path).exec w = (r, w') ∧
      Quiet s layers label w label' w' ∧ Keeps w.2 w'.2 ∧
      (Guides s layers fits (components node.path ++ components path) →
        r.map (·.map Node.offer?)
          = follow s layers (components node.path) node.offer? (components path)) ∧
      ∀ m, r = .ok (some m) → w'.2.cached node (components path) = some m := by
  obtain ⟨c, cs, hc⟩ := List.exists_cons_of_ne_nil h0
  have hpath := h.sound.path.ofNames_components
  rw [lookup, hc]
  simp only [exec_bind, exec_requireLive hw.live, exec_requireDirectory hs n hw h.sound]
  cases hk : (kindAt s node.offer?).isDirectory with
  | false =>
      refine ⟨_, label, w, rfl, .refl hw, .refl _, fun _ => ?_, fun m hr => by cases hr⟩
      rw [follow, hk, hpath]
      rfl
  | true => exact exec_descend hs n hm _ hw h

/-- Where a path leads from the root. -/
def found (s : Store) (layers : List Filesystem) (path : String) :
    Except Failure (Option (Option (Offer Entry))) :=
  follow s layers [] none (components (normalize path false))

/-- The entry at a path is the one that the layers provide there, whatever is cached. -/
theorem exec_entry (hm : ∀ d, Path.Clean d → fits d (merged s layers d)) (path : String)
    (hw : Over s layers w) (h : Holds layers label fits w.2 .root) :
    ∃ r label' w', (entry (Store.provider (n + 1)) path).exec w = (r, w') ∧
      Quiet s layers label w label' w' ∧ Keeps w.2 w'.2 ∧
      (Guides s layers fits (components (normalize path false)) →
        r.map (·.map Node.offer?) = found s layers path) ∧
      ∀ m, r = .ok (some m) →
        w'.2.cached .root (components (normalize path false)) = some m := by
  rw [entry, found]
  simp only [exec_bind, exec_current, hw.fold, exec_ite, exec_pure, String.isEmpty_iff]
  by_cases h0 : normalize path false = ""
  · rw [if_pos h0, h0]
    refine ⟨_, label, w, rfl, .refl hw, .refl _, fun _ => rfl, ?_⟩
    intro m hr
    exact congrArg some (Option.some.inj (Except.ok.inj hr))
  · have hne := components_normalize_ne_nil h0
    have hroot : components (Node.root : Node Entry).path = [] := components_empty
    have := exec_lookup hs n hm hne hw h
    rw [hroot, List.nil_append] at this
    rwa [if_neg h0]

omit hs n in
/-- A union whose root was marked as dirty. -/
theorem Over.invalidate (hw : Over s layers w) (k : Nat) : Over s layers (w.1, w.2.invalidate k) :=
  ⟨hw.trees, hw.layers, hw.fold, hw.live⟩

/-- Once the root is marked as dirty, a path leads where the layers say, and nothing wrong is known
of the node that it leads to. -/
theorem exec_entry_invalidated (hw : Over s layers w) (hsize : 0 < w.2.listings.size)
    (path : String) :
    ∃ r label w', (do invalidateNode .root; entry (Store.provider (n + 1)) path).exec w = (r, w') ∧
      Over s layers w' ∧ w.2.listings.size ≤ w'.2.listings.size ∧
      r.map (·.map Node.offer?) = found s layers path ∧
      ∀ m, r = .ok (some m) → Holds layers label (AsMerged s layers) w'.2 m ∧
        components m.path = components (normalize path false) := by
  have hm := asMerged s layers
  have hroot : Holds layers (fun _ => "") (AsMerged s layers) (w.2.invalidate 0) .root :=
    holds_root (by rwa [size_invalidate]) rfl (by rw [listing_invalidate, if_pos rfl])
  obtain ⟨r, label, w', he, hq, -, hr, hcached⟩ :=
    exec_entry hs n hm path (hw.invalidate 0) hroot
  refine ⟨r, label, w', he, hq.base, ?_, hr (guides_merged hs fun _ => isComponent_of_mem), ?_⟩
  · simpa using hq.size
  · intro m hrm
    have hroot' := hq.holds _ _ hm hroot
    have hpath := hroot'.path_of_cached (hcached m hrm)
    rw [show components (Node.root : Node Entry).path = [] from components_empty,
      List.nil_append] at hpath
    exact ⟨hroot'.of_cached (hcached m hrm), hpath⟩

/-- A new union answers by the layers alone. -/
theorem entry_anew (path : String) (hw : Over s layers w) :
    ((entry (Store.provider (n + 1)) path).exec (w.1, anew w.2)).1.map (·.map Node.offer?)
      = found s layers path := by
  obtain ⟨r, -, w', he, -, -, hr, -⟩ := exec_entry hs n (asMerged s layers) path hw.anew
    (holds_anew w.2)
  rw [he, hr (guides_merged hs fun _ => isComponent_of_mem)]

/-- Where a name leads from the place at a path. -/
def foundBelow (s : Store) (layers : List Filesystem) (path : String)
    (place : Option (Offer Entry)) (name : String) :
    Except Failure (Option (Option (Offer Entry))) :=
  if (kindAt s place).isDirectory then
    match components (normalize name false) with
    | [] => .ok none
    | c :: cs => follow s layers (components path) place (c :: cs)
  else .error (.notADirectory path)

theorem exec_child (hm : ∀ d, Path.Clean d → fits d (merged s layers d)) (name : String)
    (hw : Over s layers w) (h : Holds layers label fits w.2 node) :
    ∃ r label' w', (child (Store.provider (n + 1)) node name).exec w = (r, w') ∧
      Quiet s layers label w label' w' ∧ Keeps w.2 w'.2 ∧
      (Guides s layers fits (components node.path ++ components (normalize name false)) →
        r.map (·.map Node.offer?) = foundBelow s layers node.path node.offer? name) ∧
      ∀ m, r = .ok (some m) →
        w'.2.cached node (components (normalize name false)) = some m := by
  rw [child, foundBelow]
  simp only [exec_bind, exec_requireLive hw.live, exec_requireDirectory hs n hw h.sound,
    exec_current]
  cases hk : (kindAt s node.offer?).isDirectory with
  | false => exact ⟨_, label, w, rfl, .refl hw, .refl _, fun _ => rfl, fun m hr => by cases hr⟩
  | true =>
      simp only [if_true, exec_ite, exec_pure, hw.fold, String.isEmpty_iff]
      by_cases h0 : normalize name false = ""
      · rw [if_pos h0, h0]
        exact ⟨_, label, w, rfl, .refl hw, .refl _, fun _ => rfl, fun m hr => by cases hr⟩
      · have hne := components_normalize_ne_nil h0
        obtain ⟨c, cs, hc⟩ := List.exists_cons_of_ne_nil hne
        have := exec_lookup hs n hm hne hw h
        rw [if_neg h0, hc]
        rwa [hc] at this

/-! ## Calls that list -/

theorem operations_covers_of_trees (ht : s.SameTrees w.1) (hl : w.2.layers = layers)
    (op : Operation) :
    (operations (Store.provider (n + 1)) w.2 w.1).covers (.only op)
      = layers.any fun f => (f.allows s).covers (.only op) := by
  rw [operations_covers_only, hl, Bool.eq_iff_iff, List.any_eq_true, List.any_eq_true]
  refine exists_congr fun f => and_congr_right fun hf => ?_
  show (f.operations _ w.1).covers _ = true ↔ _
  rw [((hs f hf).congr ht).operations, Filesystem.allows_congr ht]

theorem operations_covers (hw : Over s layers w) (op : Operation) :
    (operations (Store.provider (n + 1)) w.2 w.1).covers (.only op)
      = layers.any fun f => (f.allows s).covers (.only op) :=
  operations_covers_of_trees hs n hw.trees hw.layers op

/-- The entries of the directory at a place with this listing. -/
def contents (s : Store) (layers : List Filesystem) (path : String)
    (place : Option (Offer Entry)) (table : List (String × Offer Entry)) :
    Except Failure (List (Option (Offer Entry))) :=
  if layers.any fun f => f.canRead s then
    if (kindAt s place).isDirectory then .ok (table.map fun e => some e.2)
    else .error (.notADirectory path)
  else .error (.unsupported s!"no filesystem in the union supports listing: {path}")

/-- The entries of a directory are those of a listing that fits. -/
theorem exec_children (hm : ∀ d, Path.Clean d → fits d (merged s layers d)) (hw : Over s layers w)
    (h : Holds layers label fits w.2 node) :
    ∃ r label' w', (children (Store.provider (n + 1)) node).exec w = (r, w') ∧
      Quiet s layers label w label' w' ∧ Keeps w.2 w'.2 ∧
      (∃ table, fits node.path table ∧
        r.map (·.map Node.offer?) = contents s layers node.path node.offer? table) ∧
      ∀ ms, r = .ok ms → ∀ m ∈ ms, ∃ c, w'.2.cached node [c] = some m := by
  have stay {e : Failure} (he : ∀ table,
      .error e = contents s layers node.path node.offer? table) :
      ∃ r label' w', ((.error e, w) : Except Failure (List (Node Entry)) × _) = (r, w') ∧
        Quiet s layers label w label' w' ∧ Keeps w.2 w'.2 ∧
        (∃ table, fits node.path table ∧
          r.map (·.map Node.offer?) = contents s layers node.path node.offer? table) ∧
        ∀ ms, r = .ok ms → ∀ m ∈ ms, ∃ c, w'.2.cached node [c] = some m :=
    ⟨_, label, w, rfl, .refl hw, .refl _, ⟨_, hm _ h.sound.path, he _⟩, fun ms hr => by cases hr⟩
  have hread : (operations (Store.provider (n + 1)) w.2 w.1).covers (.only .read)
      = layers.any fun f => f.canRead s := operations_covers hs n hw .read
  rw [children]
  simp only [exec_bind, exec_requireLive hw.live, exec_require, hread]
  by_cases hr : (layers.any fun f => f.canRead s) = true
  · simp only [if_pos hr, exec_pure, exec_requireDirectory hs n hw h.sound]
    cases hk : (kindAt s node.offer?).isDirectory with
    | false => exact stay fun table => by rw [contents, if_pos hr, hk]; rfl
    | true =>
        obtain ⟨label', w', he, hd, hk', hq, -⟩ := exec_listed hs n hw h.sound
        have h' := hq.holds fits node hm h
        simp only [if_true, he]
        refine ⟨_, label', w', rfl, hq, hk', ⟨_, h'.sound.fits hd, ?_⟩, ?_⟩
        · rw [contents, if_pos hr, hk]
          simp [Except.map, Listing.offers, Node.offer?]
        · intro ms hr m hm
          obtain rfl := Except.ok.inj hr
          obtain ⟨⟨c, child⟩, hc, rfl⟩ := List.mem_map.mp hm
          exact ⟨c, h'.sound.cached_of_mem hd hc⟩
  · have said : "no filesystem in the union supports " ++ "listing" ++ ": "
        = "no filesystem in the union supports listing: " := by decide
    simp only [if_neg hr]
    refine stay ?_
    intro table
    rw [contents, if_neg hr]
    exact congrArg (fun text => Except.error (Failure.unsupported (text ++ node.path))) said

/-! ## Calls that only fill the cache -/

theorem exec_refresh (hw : Over s layers w) (h : Sound layers label fits w.2 node) :
    ∃ label' w', (refresh (Store.provider (n + 1)) node).exec w = (.ok (), w') ∧
      Quiet s layers label w label' w' := by
  refine ⟨_, _, ?_, quiet_scan hs hw h⟩
  simp only [refresh, exec_bind, exec_requireLive hw.live, exec_scan hs n hw h]

end

theorem exec_invalidateNode (hw : Over s layers w) (node : Node Entry) :
    ∃ w', (invalidateNode node).exec w = (.ok (), w') ∧ Quiet s layers label w label w' :=
  ⟨_, rfl, ⟨hw.trees, hw.layers, hw.fold, hw.live⟩, rfl, by simp, fun _ _ => rfl,
    fun _ _ _ h => h.invalidate _⟩

end Strata.Overlay
