/-
# `Strata.Overlay.Basic` — a union of filesystems and its cached listings

An overlay stacks filesystems, its layers, the first one on top.  A name that a
layer offers hides the same name in the layers below it; directories of the same
path merge.  The merged listing of a directory is computed once, kept, and
computed again when it is marked dirty.

A listing holds its children as nodes.  Each node has a slot of its own for its
listing, so a node that somebody still holds keeps its listing when the
directory above it is listed anew.  Slot 0 is the root's.
-/
import Strata.Provider

namespace Strata

namespace Overlay

/-- When a change through the union marks the listing of its directory as dirty. -/
inductive Policy where
  | onDemand
  | eager
  deriving DecidableEq, Repr

namespace Policy

/-- The name of the policy, as it is printed. -/
def name : Policy → String
  | .onDemand => "lazy"
  | .eager => "eager"

/-- The name that starts with a capital. -/
def label : Policy → String
  | .onDemand => "Lazy"
  | .eager => "Eager"

/-- Reads the name of a policy, in either case of its ASCII letters. -/
def ofName? (text : String) : Option Policy :=
  [onDemand, eager].find? fun p => text.toList.map Char.toLower == p.name.toList

end Policy

/-- An entry that a layer offers for a place in the union. -/
structure Offer (E : Type) where
  path : String
  source : E
  layer : Nat

/-- An offer with the slot of its listing. -/
structure Child (E : Type) where
  slot : Nat
  offer : Offer E

/-- The merged entries of a directory by name, in the order in which they were offered. -/
structure Listing (E : Type) where
  children : List (String × Child E) := []
  dirty : Bool := true

/-- The listing of an entry that was not listed yet. -/
def Listing.unlisted {E : Type} : Listing E := {}

/-- An entry of the union: its root, or what a layer offers. -/
inductive Node (E : Type) where
  | root
  | entry (child : Child E)

namespace Node

variable {E : Type}

/-- The slot of the entry's listing. -/
def slot : Node E → Nat
  | .root => 0
  | .entry c => c.slot

/-- The path of the entry, as its layer spells it. -/
def path : Node E → String
  | .root => ""
  | .entry c => c.offer.path

/-- The entry of the layer that provides it; the root has none. -/
def source? : Node E → Option E
  | .root => none
  | .entry c => some c.offer.source

/-- The layer that provides it; the root has none. -/
def layer? : Node E → Option Nat
  | .root => none
  | .entry c => some c.offer.layer

end Node

end Overlay

/-- A union of filesystems. -/
structure Overlay (F E : Type) where
  layers : List F := []
  fold : Bool := false
  policy : Overlay.Policy := .onDemand
  listings : Array (Overlay.Listing E) := #[.unlisted]
  released : Bool := false

namespace Overlay

variable {F E : Type}

/-- The listing in a slot. -/
def listing (o : Overlay F E) (slot : Nat) : Listing E := o.listings.getD slot .unlisted

/-- Marks the listing in a slot as dirty. -/
def invalidate (o : Overlay F E) (slot : Nat) : Overlay F E :=
  { o with listings := o.listings.setIfInBounds slot { o.listing slot with dirty := true } }

/-- Gives each entry of a table the next free slot, from `slot` on. -/
def assignSlots : Nat → List (String × Offer E) → List (String × Child E)
  | _, [] => []
  | slot, (name, offer) :: rest => (name, ⟨slot, offer⟩) :: assignSlots (slot + 1) rest

/-- Keeps a table as the listing in a slot; its entries get new slots. -/
def install (o : Overlay F E) (slot : Nat) (table : List (String × Offer E)) : Overlay F E :=
  { o with
    listings :=
      (o.listings ++ Array.replicate table.length Listing.unlisted).setIfInBounds slot
        { children := assignSlots o.listings.size table, dirty := false } }

/-- Adds an entry that no listing holds. -/
def addNode (o : Overlay F E) (offer : Offer E) : Node E × Overlay F E :=
  (.entry ⟨o.listings.size, offer⟩, { o with listings := o.listings.push .unlisted })

/-- Adds a layer below all others. -/
def addLayer (o : Overlay F E) (layer : F) : Overlay F E :=
  { o with layers := o.layers ++ [layer] }

/-! ## First facts -/

theorem map_fst_assignSlots (slot : Nat) (table : List (String × Offer E)) :
    (assignSlots slot table).map (·.1) = table.map (·.1) := by
  induction table generalizing slot with
  | nil => rfl
  | cons entry rest ih => simp [assignSlots, ih]

theorem map_offer_assignSlots (slot : Nat) (table : List (String × Offer E)) :
    (assignSlots slot table).map (fun c => (c.1, c.2.offer)) = table := by
  induction table generalizing slot with
  | nil => rfl
  | cons entry rest ih => simp [assignSlots, ih]

end Overlay

end Strata
