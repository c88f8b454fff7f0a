/-
# `Strata.Proofs.Overlay.Cache` — the listings that a union keeps

A union keeps a listing for each node it ever made; which of them count is a
matter of where one starts.  `cached` follows the clean listings from a node
along a list of names: what it does not arrive at is listed anew before anybody
looks at it.

A call changes the listings in three ways only: it installs a table, marks a
listing as dirty, or adds a node.  The facts below say which listing is where
afterwards.
-/
import Strata.Overlay.Basic
import Strata.Table

namespace Strata.Overlay

variable {F E : Type}

/-- What the listing has under each name. -/
def Listing.offers (l : Listing E) : List (String × Offer E) :=
  l.children.map fun c => (c.1, c.2.offer)

/-- What a layer offers for the node; the root is no layer's. -/
def Node.offer? : Node E → Option (Offer E)
  | .root => none
  | .entry c => some c.offer

theorem Node.path_eq {node node' : Node E} (h : node.offer? = node'.offer?) :
    node.path = node'.path := by
  cases node with
  | root =>
      cases node' with
      | root => rfl
      | entry c => cases h
  | entry c =>
      cases node' with
      | root => cases h
      | entry c' =>
          have hoffer : c.offer = c'.offer := Option.some.inj h
          rw [Node.path, Node.path, hoffer]

theorem Node.layer_eq {node node' : Node E} (h : node.offer? = node'.offer?) :
    node.layer? = node'.layer? := by
  have hlayer (n : Node E) : n.layer? = n.offer?.map (·.layer) := by cases n <;> rfl
  rw [hlayer, hlayer, h]

theorem Node.source_eq {node node' : Node E} (h : node.offer? = node'.offer?) :
    node.source? = node'.source? := by
  have hsource (n : Node E) : n.source? = n.offer?.map (·.source) := by cases n <;> rfl
  rw [hsource, hsource, h]

/-- Where the clean listings lead from a node along the names. -/
def cached (o : Overlay F E) : Node E → List String → Option (Node E)
  | node, [] => some node
  | node, c :: cs =>
    if (o.listing node.slot).dirty then none
    else ((o.listing node.slot).children.lookup c).bind fun next => o.cached (.entry next) cs

/-! ## Tables with slots -/

theorem lookup_map_offer (l : List (String × Child E)) (n : String) :
    (l.map fun c => (c.1, c.2.offer)).lookup n = (l.lookup n).map (·.offer) := by
  induction l with
  | nil => rfl
  | cons c l ih =>
      rw [List.map_cons, Table.lookup_cons, Table.lookup_cons, ih]
      split <;> rfl

theorem lookup_offers (l : Listing E) (n : String) :
    l.offers.lookup n = (l.children.lookup n).map (·.offer) := lookup_map_offer _ n

theorem mem_of_lookup {α : Type} {l : List (String × α)} {n : String} {a : α}
    (h : l.lookup n = some a) : (n, a) ∈ l := by
  obtain ⟨l₁, l₂, rfl, -⟩ := List.lookup_eq_some_iff.mp h
  simp

/-- In a table that has each name once, every entry is found. -/
theorem lookup_of_nodup {α : Type} {l : List (String × α)} (hl : (l.map (·.1)).Nodup) {n : String}
    {a : α} (h : (n, a) ∈ l) : l.lookup n = some a := by
  induction l with
  | nil => cases h
  | cons e l ih =>
      obtain ⟨hne, hl⟩ := List.nodup_cons.mp hl
      rw [Table.lookup_cons]
      rcases List.mem_cons.mp h with rfl | h
      · rw [if_pos rfl]
      · have hother : n ≠ e.1 := by
          rintro rfl
          exact hne (List.mem_map.mpr ⟨_, h, rfl⟩)
        rw [if_neg hother]
        exact ih hl h

theorem mem_offers_of_mem {l : Listing E} {n : String} {c : Child E} (h : (n, c) ∈ l.children) :
    (n, c.offer) ∈ l.offers := List.mem_map.mpr ⟨(n, c), h, rfl⟩

/-- The entries of a table get the slots from a number on, in order. -/
theorem getElem?_of_mem_assignSlots {k : Nat} {table : List (String × Offer E)} {n : String}
    {c : Child E} (h : (n, c) ∈ assignSlots k table) :
    k ≤ c.slot ∧ table[c.slot - k]? = some (n, c.offer) := by
  induction table generalizing k with
  | nil => simp [assignSlots] at h
  | cons e rest ih =>
      rcases List.mem_cons.mp h with h | h
      · obtain ⟨rfl, rfl⟩ := Prod.mk.inj h
        simp
      · obtain ⟨hk, hg⟩ := ih h
        refine ⟨by omega, ?_⟩
        rwa [show c.slot - k = c.slot - (k + 1) + 1 by omega, List.getElem?_cons_succ]

/-! ## What each change leaves in each slot -/

section
variable (o : Overlay F E) (k : Nat) (table : List (String × Offer E))

theorem listing_of_size_le {j : Nat} (h : o.listings.size ≤ j) : o.listing j = .unlisted := by
  simp [listing, Array.getD_eq_getD_getElem?, Array.getElem?_eq_none h]

@[simp] theorem size_install :
    (o.install k table).listings.size = o.listings.size + table.length := by
  simp [install]

@[simp] theorem size_invalidate : (o.invalidate k).listings.size = o.listings.size := by
  simp [invalidate]

@[simp] theorem size_addNode (offer : Offer E) :
    (o.addNode offer).2.listings.size = o.listings.size + 1 := by
  simp [addNode]

theorem listing_install {k : Nat} (hk : k < o.listings.size) (j : Nat) :
    (o.install k table).listing j =
      if j = k then { children := assignSlots o.listings.size table, dirty := false }
      else o.listing j := by
  simp only [listing, install, Array.getD_eq_getD_getElem?, Array.getElem?_setIfInBounds,
    Array.getElem?_append, Array.size_append, Array.size_replicate, Array.getElem?_replicate]
  by_cases hj : j = k
  · subst hj
    simp [Nat.lt_add_right _ hk]
  · simp only [hj, Ne.symm hj, if_false]
    by_cases hs : j < o.listings.size
    · simp [hs]
    · simp only [hs, if_false]
      split <;> simp [Array.getElem?_eq_none (Nat.not_lt.mp hs)]

/-- What stands in a listing after a table was installed stood there before, or is in the table. -/
theorem mem_listing_install {j : Nat} {c : String × Child E}
    (h : c ∈ ((o.install k table).listing j).children) :
    c ∈ (o.listing j).children ∨ (c.1, c.2.offer) ∈ table := by
  simp only [listing, install, Array.getD_eq_getD_getElem?, Array.getElem?_setIfInBounds,
    Array.getElem?_append, Array.getElem?_replicate] at h ⊢
  by_cases hj : k = j
  · rw [if_pos hj] at h
    split at h
    · refine .inr ?_
      rw [← map_offer_assignSlots o.listings.size table]
      exact List.mem_map.mpr ⟨c, h, rfl⟩
    · simp [Listing.unlisted] at h
  · rw [if_neg hj] at h
    by_cases hs : j < o.listings.size
    · rw [if_pos hs] at h
      exact .inl h
    · rw [if_neg hs] at h
      split at h
      · simp [Listing.unlisted] at h
      · simp [Listing.unlisted] at h

theorem listing_invalidate (j : Nat) :
    (o.invalidate k).listing j =
      if j = k then { o.listing k with dirty := true } else o.listing j := by
  simp only [listing, invalidate, Array.getD_eq_getD_getElem?, Array.getElem?_setIfInBounds]
  by_cases hj : j = k
  · subst hj
    by_cases hs : j < o.listings.size
    · simp [hs]
    · simp [hs, Listing.unlisted]
  · simp [hj, Ne.symm hj]

theorem listing_addNode (offer : Offer E) (j : Nat) :
    (o.addNode offer).2.listing j = o.listing j := by
  simp only [listing, addNode, Array.getD_eq_getD_getElem?, Array.getElem?_push]
  split
  · rename_i h
    simp [h]
  · rfl

end

/-! ## Following clean listings -/

section
variable {o : Overlay F E} {node next : Node E} {c : String} {cs : List String}

@[simp] theorem cached_nil (o : Overlay F E) (node : Node E) : o.cached node [] = some node := rfl

theorem cached_cons :
    o.cached node (c :: cs) = some next ↔
      (o.listing node.slot).dirty = false ∧ ∃ child,
        (o.listing node.slot).children.lookup c = some child ∧
          o.cached (.entry child) cs = some next := by
  rw [cached]
  by_cases hd : (o.listing node.slot).dirty = true
  · simp [hd]
  · simp [hd, Option.bind_eq_some_iff]

theorem cached_append {ds : List String} :
    o.cached node (cs ++ ds) = some next ↔
      ∃ mid, o.cached node cs = some mid ∧ o.cached mid ds = some next := by
  induction cs generalizing node with
  | nil => simp
  | cons c cs ih =>
      simp only [List.cons_append, cached_cons, ih]
      constructor
      · rintro ⟨hd, child, hc, mid, hm, hn⟩
        exact ⟨mid, ⟨hd, child, hc, hm⟩, hn⟩
      · rintro ⟨mid, ⟨hd, child, hc, hm⟩, hn⟩
        exact ⟨hd, child, hc, mid, hm, hn⟩

end

end Strata.Overlay
