/-
# `Strata.Proofs.Overlay.Held` — what is known of a node that somebody holds

A union never looks at all its listings.  What is known of them is therefore
said of the nodes that clean listings lead to from a node that somebody holds:
`Holds` states it for all of them at once, with `fits` for what the clean
listings are to be.  `label` gives the path that belongs to each slot, so two
nodes of one slot are nodes of one path.

A table that fits may be installed, a listing may be marked as dirty, a node may
be added: what was known of a held node stays known.
-/
import Strata.Proofs.Overlay.Cache
import Strata.Proofs.Overlay.Merge

namespace Strata.Overlay

open Strata.Path

variable {layers : List Filesystem} {label : Nat → String}
  {fits fits' : String → List (String × Offer Entry) → Prop} {o : Overlay Filesystem Entry}
  {node : Node Entry}

/-- The node has a listing under its path, and is a layer's handle on it; its listing, if that is
clean, is a listing of this path and fits. -/
structure Sound (layers : List Filesystem) (label : Nat → String)
    (fits : String → List (String × Offer Entry) → Prop) (o : Overlay Filesystem Entry)
    (node : Node Entry) : Prop where
  slot : node.slot < o.listings.size
  label : label node.slot = node.path
  path : Path.Clean node.path
  source : ∀ offer, node.offer? = some offer →
    ∃ f, layers[offer.layer]? = some f ∧ offer.source = f.entryAt offer.path
  made : (o.listing node.slot).dirty = false →
    Made layers node.path (o.listing node.slot).offers
  fits : (o.listing node.slot).dirty = false → fits node.path (o.listing node.slot).offers

/-- The nodes that clean listings lead to are sound. -/
def Holds (layers : List Filesystem) (label : Nat → String)
    (fits : String → List (String × Offer Entry) → Prop) (o : Overlay Filesystem Entry)
    (node : Node Entry) : Prop :=
  ∀ cs n, o.cached node cs = some n → Sound layers label fits o n

theorem Holds.sound (h : Holds layers label fits o node) : Sound layers label fits o node :=
  h [] node rfl

theorem Holds.of_cached {cs : List String} {n : Node Entry} (h : Holds layers label fits o node)
    (hc : o.cached node cs = some n) : Holds layers label fits o n :=
  fun ds m hm => h (cs ++ ds) m (cached_append.mpr ⟨n, hc, hm⟩)

theorem Holds.mono (hf : ∀ d t, Path.Clean d → Made layers d t → fits d t → fits' d t)
    (h : Holds layers label fits o node) : Holds layers label fits' o node := fun cs n hc =>
  let k := h cs n hc
  { slot := k.slot, label := k.label, path := k.path, source := k.source, made := k.made
    fits := fun hd => hf _ _ k.path (k.made hd) (k.fits hd) }

/-- A name of a clean listing leads to one child. -/
theorem Sound.lookup_of_mem (h : Sound layers label fits o node)
    (hd : (o.listing node.slot).dirty = false) {c : String} {child : Child Entry}
    (hm : (c, child) ∈ (o.listing node.slot).children) :
    (o.listing node.slot).children.lookup c = some child := by
  have hn := (h.made hd).nodup
  rw [Listing.offers, List.map_map] at hn
  exact lookup_of_nodup hn hm

theorem Sound.cached_of_mem (h : Sound layers label fits o node)
    (hd : (o.listing node.slot).dirty = false) {c : String} {child : Child Entry}
    (hm : (c, child) ∈ (o.listing node.slot).children) :
    o.cached node [c] = some (.entry child) :=
  cached_cons.mpr ⟨hd, child, h.lookup_of_mem hd hm, cached_nil o _⟩

theorem Holds.child (h : Holds layers label fits o node)
    (hd : (o.listing node.slot).dirty = false) {c : String} {child : Child Entry}
    (hm : (c, child) ∈ (o.listing node.slot).children) :
    Holds layers label fits o (.entry child) :=
  h.of_cached (h.sound.cached_of_mem hd hm)

/-- Clean listings lead along the names of the paths. -/
theorem Holds.path_of_cached {cs : List String} {n : Node Entry}
    (h : Holds layers label fits o node) (hc : o.cached node cs = some n) :
    components n.path = components node.path ++ cs := by
  induction cs generalizing node with
  | nil => obtain rfl := Option.some.inj hc; simp
  | cons c cs ih =>
      obtain ⟨hd, child, hl, hn⟩ := cached_cons.mp hc
      have hm := mem_of_lookup hl
      have hpath := (h.sound.made hd).path _ _ (mem_offers_of_mem hm)
      have hname := (h.sound.made hd).isName _ _ (mem_offers_of_mem hm)
      rw [ih (h.child hd hm) hn]
      show components child.offer.path ++ cs = _
      rw [hpath, components_ofNames (forall_mem_snoc (fun _ => isComponent_of_mem) hname.1)]
      simp

/-- Of a node that must be listed anew no listing is known. -/
theorem holds_of_dirty (hslot : node.slot < o.listings.size) (hl : label node.slot = node.path)
    (hp : Path.Clean node.path)
    (hsource : ∀ offer, node.offer? = some offer →
      ∃ f, layers[offer.layer]? = some f ∧ offer.source = f.entryAt offer.path)
    (hd : (o.listing node.slot).dirty = true) : Holds layers label fits o node := by
  have clash {P : Prop} (hd' : (o.listing node.slot).dirty = false) : P := by
    rw [hd] at hd'; cases hd'
  intro cs n hc
  cases cs with
  | nil =>
      obtain rfl := Option.some.inj hc
      exact ⟨hslot, hl, hp, hsource, clash, clash⟩
  | cons c cs => exact clash (cached_cons.mp hc).1

/-- The root is held wherever it must be listed anew. -/
theorem holds_root (h0 : 0 < o.listings.size) (hl : label 0 = "")
    (hd : (o.listing 0).dirty = true) : Holds layers label fits o .root :=
  holds_of_dirty h0 hl clean_empty (fun offer h => by cases h) hd

/-! ## Changes that keep what is known -/

/-- The paths of the slots after a table was installed. -/
def relabel (label : Nat → String) (o : Overlay Filesystem Entry)
    (table : List (String × Offer Entry)) : Nat → String := fun j =>
  if j < o.listings.size then label j
  else ((table[j - o.listings.size]?).map (·.2.path)).getD ""

theorem relabel_of_lt {j : Nat} (h : j < o.listings.size) (table : List (String × Offer Entry)) :
    relabel label o table j = label j := if_pos h

section
variable {k : Nat} {table : List (String × Offer Entry)}

/-- The nodes of the table that is installed are held, with nothing listed below them. -/
theorem holds_fresh {d c : String} {child : Child Entry} (hk : k < o.listings.size)
    (hp : Path.Clean d) (hm : Made layers d table)
    (hc : (c, child) ∈ assignSlots o.listings.size table) :
    Holds layers (relabel label o table) fits (o.install k table) (.entry child) := by
  obtain ⟨hle, hg⟩ := getElem?_of_mem_assignSlots hc
  have hmem : (c, child.offer) ∈ table := List.mem_of_getElem? hg
  have hlt : child.slot - o.listings.size < table.length := (List.getElem?_eq_some_iff.mp hg).1
  refine holds_of_dirty ?_ ?_ ?_ ?_ ?_
  · simp only [Node.slot, size_install]
    omega
  · simp [relabel, Node.slot, Node.path, Nat.not_lt.mpr hle, hg]
  · rw [Node.path, hm.path _ _ hmem]
    exact clean_ofNames (forall_mem_snoc (fun _ => hp.isName) (hm.isName _ _ hmem))
  · intro offer h
    obtain rfl := Option.some.inj h
    exact hm.source _ _ hmem
  · rw [Node.slot, listing_install _ _ hk, if_neg (by omega), listing_of_size_le _ hle]
    rfl

theorem Holds.install (h : Holds layers label fits o node) (hk : k < o.listings.size)
    (hp : Path.Clean (label k)) (hm : Made layers (label k) table) (hf : fits (label k) table) :
    Holds layers (relabel label o table) fits (o.install k table) node := by
  intro cs n hc
  induction cs generalizing node with
  | nil =>
      obtain rfl := Option.some.inj hc
      have hs := h.sound
      have hl : ∀ {Q : List (String × Offer Entry) → Prop},
          (node.slot = k → Q table) →
          ((o.listing node.slot).dirty = false → Q (o.listing node.slot).offers) →
          ((o.install k table).listing node.slot).dirty = false →
            Q ((o.install k table).listing node.slot).offers := by
        intro Q hnew hold hd
        rw [listing_install _ _ hk] at hd ⊢
        split
        · rename_i hkk
          simpa [Listing.offers, map_offer_assignSlots] using hnew hkk
        · rename_i hkk
          rw [if_neg hkk] at hd
          exact hold hd
      have hat (hkk : node.slot = k) : label k = node.path := hkk ▸ hs.label
      exact
        { slot := by simpa using Nat.lt_add_right _ hs.slot
          label := by rw [relabel_of_lt hs.slot, hs.label]
          path := hs.path, source := hs.source
          made := hl (fun hkk => hat hkk ▸ hm) hs.made
          fits := hl (fun hkk => hat hkk ▸ hf) hs.fits }
  | cons c cs ih =>
      obtain ⟨hd, child, hl, hn⟩ := cached_cons.mp hc
      rw [listing_install _ _ hk] at hd hl
      split at hl
      · exact holds_fresh hk hp hm (mem_of_lookup hl) cs n hn
      · rename_i hkk
        rw [if_neg hkk] at hd
        exact ih (h.child hd (mem_of_lookup hl)) hn

theorem cached_of_invalidate {cs : List String} {n : Node Entry}
    (h : (o.invalidate k).cached node cs = some n) : o.cached node cs = some n := by
  induction cs generalizing node with
  | nil => exact h
  | cons c cs ih =>
      obtain ⟨hd, child, hl, hn⟩ := cached_cons.mp h
      rw [listing_invalidate] at hd hl
      split at hd
      · cases hd
      · rename_i hkk
        rw [if_neg hkk] at hl
        exact cached_cons.mpr ⟨hd, child, hl, ih hn⟩

theorem Holds.invalidate (h : Holds layers label fits o node) (k : Nat) :
    Holds layers label fits (o.invalidate k) node := by
  intro cs n hc
  have hs := h cs n (cached_of_invalidate hc)
  have hl {Q : List (String × Offer Entry) → Prop}
      (hold : (o.listing n.slot).dirty = false → Q (o.listing n.slot).offers) :
      ((o.invalidate k).listing n.slot).dirty = false →
        Q ((o.invalidate k).listing n.slot).offers := by
    intro hd
    rw [listing_invalidate] at hd ⊢
    split at hd
    · cases hd
    · rename_i hkk
      rw [if_neg hkk]
      exact hold hd
  exact
    { slot := by simpa using hs.slot, label := hs.label, path := hs.path, source := hs.source
      made := hl hs.made, fits := hl hs.fits }

/-- What is marked dirty is cached no more: if clean listings lead to this slot along some names,
then they lead nowhere along more names. -/
theorem Holds.shed {top : List String} (h : Holds layers label fits o .root)
    (hk : ∀ n, o.cached .root top = some n → (o.listing n.slot).dirty = false → n.slot = k) :
    Holds layers label (fun d t => fits d t ∧ ¬ top <+: components d) (o.invalidate k) .root := by
  intro cs n hc
  have hs := h.invalidate k cs n hc
  have hpath : components n.path = cs := (h.invalidate k).path_of_cached hc
  refine { hs with fits := fun hd => ⟨hs.fits hd, ?_⟩ }
  rw [hpath]
  rintro ⟨ks, rfl⟩
  obtain ⟨m, hm, hn⟩ := cached_append.mp hc
  -- the listing of the node in between is clean, so it is not the one that was marked
  have hclean : ((o.invalidate k).listing m.slot).dirty = false := by
    cases ks with
    | nil => exact (Option.some.inj hn).symm ▸ hd
    | cons c ks => exact (cached_cons.mp hn).1
  rw [listing_invalidate] at hclean
  split at hclean
  · cases hclean
  · rename_i hne
    exact hne (hk m (cached_of_invalidate hm) hclean)

/-- Other labels, more layers and more slots do not matter where the listings stay. -/
theorem Holds.of_listing {layers' : List Filesystem} {label' : Nat → String}
    {o' : Overlay Filesystem Entry} (h : Holds layers label fits o node)
    (hl : ∀ j, o'.listing j = o.listing j) (hsize : o.listings.size ≤ o'.listings.size)
    (hlabel : ∀ j < o.listings.size, label' j = label j)
    (hlayers : ∀ (i : Nat) f, layers[i]? = some f → layers'[i]? = some f) :
    Holds layers' label' fits o' node := by
  have hcached {cs : List String} {m n : Node Entry} (hc : o'.cached m cs = some n) :
      o.cached m cs = some n := by
    induction cs generalizing m with
    | nil => exact hc
    | cons c cs ih =>
        obtain ⟨hd, child, hlook, hn⟩ := cached_cons.mp hc
        rw [hl] at hd hlook
        exact cached_cons.mpr ⟨hd, child, hlook, ih hn⟩
  intro cs n hc
  have hs := h cs n (hcached hc)
  exact
    { slot := hs.slot.trans_le hsize
      label := (hlabel _ hs.slot).trans hs.label
      path := hs.path
      source := fun offer ho => (hs.source offer ho).imp fun f hf => ⟨hlayers _ _ hf.1, hf.2⟩
      made := fun hd => by
        rw [hl] at hd ⊢
        have hm := hs.made hd
        exact { hm with
          source := fun n o ho => (hm.source n o ho).imp fun f hf => ⟨hlayers _ _ hf.1, hf.2⟩ }
      fits := fun hd => by
        rw [hl] at hd ⊢
        exact hs.fits hd }

theorem Holds.addNode (h : Holds layers label fits o node) (offer : Offer Entry) :
    Holds layers (relabel label o [("", offer)]) fits (o.addNode offer).2 node :=
  h.of_listing (listing_addNode o offer) (by simp) (fun _ hj => relabel_of_lt hj _) fun _ _ hf => hf

/-- The node that was added is held, with nothing listed below it. -/
theorem holds_added {offer : Offer Entry} {f : Filesystem} (hp : Path.Clean offer.path)
    (hf : layers[offer.layer]? = some f) (hsource : offer.source = f.entryAt offer.path) :
    Holds layers (relabel label o [("", offer)]) fits (o.addNode offer).2
      (o.addNode offer).1 := by
  refine holds_of_dirty ?_ ?_ hp ?_ ?_
  · simp [addNode, Node.slot]
  · simp [addNode, relabel, Node.slot, Node.path]
  · intro offer' h
    obtain rfl := Option.some.inj h
    exact ⟨f, hf, hsource⟩
  · rw [listing_addNode]
    exact congrArg Listing.dirty (listing_of_size_le o le_rfl)

end

end Strata.Overlay
