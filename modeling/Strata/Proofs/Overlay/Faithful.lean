/-
# `Strata.Proofs.Overlay.Faithful` — listings that survive a change

After a change of the layers most listings are what they were, and the union
need not compute them anew.  A listing is `Faithful` if each name leads to what
the layers provide now; that is all a walk asks of it.  A change leaves what the
layers provide as it was where it touches nothing (`provided_shift`), and a union
whose listings guide along a path answers there as a new union would
(`entry_eq_anew`).
-/
import Mathlib.Data.List.Find
import Strata.Proofs.Overlay.Walk
import Strata.Proofs.Store.Changes

namespace Strata.Overlay

open Strata.Action Strata.Path

variable {s s' : Store} {layers : List Filesystem} {label : Nat → String}
  {fits : String → List (String × Offer Entry) → Prop}
  {w : Store × Overlay Filesystem Entry} {touched : List String → Prop}

/-- Each name of the listing of a path leads to what the layers provide there. -/
def Faithful (s : Store) (layers : List Filesystem) (path : String)
    (table : List (String × Offer Entry)) : Prop :=
  ∀ x, IsComponent x → table.lookup x = provided s layers (ofNames (components path ++ [x]))

/-- Nothing is known of the listing. -/
def Whatever (_ : String) (_ : List (String × Offer Entry)) : Prop := True

theorem guides_faithful {names : List String} (hn : ∀ m ∈ names, IsComponent m) :
    Guides s layers (Faithful s layers) names := by
  intro pre x t hpre ht
  have hc : ∀ m ∈ pre ++ [x], IsComponent m := fun m hm => hn m (hpre.subset hm)
  have := ht x (hc x (by simp))
  rwa [components_ofNames fun m hm => hc m (List.mem_append_left _ hm)] at this

section
variable (hs : ∀ f ∈ layers, f.CleanTree s)
include hs

theorem faithful_merged {path : String} (hp : Path.Clean path) :
    Faithful s layers path (merged s layers path) := fun _ hx => lookup_merged_below hs hp hx

/-- A layer has at an untouched path what it had. -/
theorem holds_shift (h : s.Shift s' layers touched) {f : Filesystem} (hf : f ∈ layers)
    {ns : List String} (hn : ∀ n ∈ ns, IsComponent n) (ht : ¬ touched ns) :
    holds s' (ofNames ns) f = holds s (ofNames ns) f := by
  have hread : f.canRead s' = f.canRead s := by rw [Filesystem.canRead, h.allows f hf]; rfl
  rw [holds, holds, hread]
  congr 1
  by_cases hname : ∀ n ∈ ns, IsName n
  · rw [h.kinds f hf ns hname ht]
  · -- in a clean tree there is nothing under such a path
    have missing {t : Outline} (hc : t.Clean) : (t.kind (ofNames ns)).exists? = false := by
      rw [← Bool.not_eq_true]
      exact fun he => hname (hc.isName hn he)
    rw [missing (hs f hf).outline_clean, missing (h.clean f hf).outline_clean]

/-- The layers provide at an untouched path what they did. -/
theorem provided_shift (h : s.Shift s' layers touched) {ns : List String}
    (hn : ∀ n ∈ ns, IsComponent n) (ht : ¬ touched ns) :
    provided s' layers (ofNames ns) = provided s layers (ofNames ns) := by
  rw [provided, provided]
  congr 1
  exact List.find?_congr fun f hf => holds_shift hs h (List.fst_mem_of_mem_zipIdx hf) hn ht

/-- A layer's handle on an untouched path stands for what it did. -/
theorem kindAt_shift (h : s.Shift s' layers touched)
    {f : Filesystem} (hf : f ∈ layers) {ns : List String} (hn : ∀ n ∈ ns, IsName n)
    (ht : ¬ touched ns) {offer : Offer Entry} (hsource : offer.source = f.entryAt (ofNames ns)) :
    kindAt s' (some offer) = kindAt s (some offer) := by
  rw [kindAt, kindAt, hsource, (h.clean f hf).kind_entryAt, (hs f hf).kind_entryAt,
    h.kinds f hf ns hn ht]

/-- Names lead where they did if nothing was touched on the way. -/
theorem follow_shift (h : s.Shift s' layers touched) {done rest : List String}
    {place : Option (Offer Entry)} (hplace : kindAt s' place = kindAt s place)
    (hn : ∀ m ∈ done ++ rest, IsComponent m)
    (hout : ∀ ns, ns <+: done ++ rest → ¬ touched ns) :
    follow s' layers done place rest = follow s layers done place rest := by
  induction rest generalizing done place with
  | nil => rfl
  | cons c rest ih =>
      have hassoc : done ++ c :: rest = done ++ [c] ++ rest := by simp
      rw [hassoc] at hn hout
      have hc : ∀ m ∈ done ++ [c], IsComponent m := fun m hm => hn m (List.mem_append_left _ hm)
      have ht : ¬ touched (done ++ [c]) := hout _ (List.prefix_append _ _)
      rw [follow, follow, hplace, provided_shift hs h hc ht]
      cases hp : provided s layers (ofNames (done ++ [c])) with
      | none => rfl
      | some offer =>
          obtain ⟨f, hat, hholds, -, heq⟩ := provided_eq_some.mp hp
          have hf : f ∈ layers := List.mem_of_getElem? hat
          rw [holds, Bool.and_eq_true] at hholds
          have hname : ∀ m ∈ done ++ [c], IsName m := (hs f hf).outline_clean.isName hc hholds.2
          have hsource : offer.source = f.entryAt (ofNames (done ++ [c])) := congrArg Offer.source heq
          simp only [ih (kindAt_shift hs h hf hname ht hsource) hn hout]

/-- A union answers as a new one where its listings guide. -/
theorem entry_eq_anew (n : Nat) (hm : ∀ d, Path.Clean d → fits d (merged s layers d))
    (path : String) (hw : Over s layers w) (h : Holds layers label fits w.2 .root)
    (hg : Guides s layers fits (components (normalize path false))) :
    ((entry (Store.provider (n + 1)) path).exec w).1.map (·.map Node.offer?)
      = ((entry (Store.provider (n + 1)) path).exec (w.1, anew w.2)).1.map
          (·.map Node.offer?) := by
  obtain ⟨r, -, w', he, -, -, hr, -⟩ := exec_entry hs n hm path hw h
  rw [he, hr hg, entry_anew hs n path hw]

end

end Strata.Overlay
