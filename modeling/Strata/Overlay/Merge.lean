/-
# `Strata.Overlay.Merge` — the listing that the layers give together

The merge of a directory asks the layers that can read, first to last, and takes
each name from the first that offers it.  It looks at no cache: what a clean
listing holds is what this merge once answered.  A name counts as the last
component of its path, trimmed, and lower-cased if the union folds case.
-/
import Strata.Overlay.Basic
import Strata.Path

namespace Strata.Overlay

variable {σ F E S : Type} (P : Provider σ F E S)

/-- The name under which a path is listed. -/
def listedName (fold : Bool) (path : String) : String :=
  Path.normalize (Path.lastName path) fold

/-- Adds an offer to a table, unless its name is empty or taken. -/
def withOffer (fold : Bool) (table : List (String × Offer E)) (offer : Offer E) :
    List (String × Offer E) :=
  let name := listedName fold offer.path
  if name.isEmpty || (table.lookup name).isSome then table else table ++ [(name, offer)]

/-- Adds offers to a table, one after the other. -/
def withOffers (fold : Bool) (table : List (String × Offer E)) (offers : List (Offer E)) :
    List (String × Offer E) :=
  offers.foldl (withOffer fold) table

/-- What a layer offers with these entries. -/
def offersOf (layer : Nat) (entries : List E) : List (Offer E) :=
  entries.map fun e => ⟨Path.normalize (P.path e) false, e, layer⟩

/-- What the layer at a position offers for the directory at a path: nothing if it cannot read or
has no directory there. -/
def layerOffers (path : String) (layer : Nat) (f : F) : Action σ (List (Offer E)) := do
  if (P.operations f (← get)).covers (.only .read) then
    match ← P.resolveDirectory f path with
    | some directory => return offersOf P layer (← P.children directory)
    | none => return []
  else return []

/-- Adds to a table what the layers from a position on offer. -/
def mergeFrom (fold : Bool) (path : String) :
    Nat → List F → List (String × Offer E) → Action σ (List (String × Offer E))
  | _, [], table => return table
  | layer, f :: fs, table => do
    let offers ← layerOffers P path layer f
    mergeFrom fold path (layer + 1) fs (withOffers fold table offers)

/-- The merged listing of the directory at a path. -/
def merge (fold : Bool) (layers : List F) (path : String) :
    Action σ (List (String × Offer E)) :=
  mergeFrom P fold path 0 layers []

theorem withOffers_append (fold : Bool) (table : List (String × Offer E)) (xs ys : List (Offer E)) :
    withOffers fold table (xs ++ ys) = withOffers fold (withOffers fold table xs) ys := by
  simp [withOffers]

end Strata.Overlay
