/-
# `Strata.Proofs.Overlay.Precedence` — a union by who comes first

A union never computes who owns a path: it walks through merged listings.  What
the walk finds can be said without it.  A path leads to what the first layer has
there that can read, unless it runs through a place that no layer has or where
the first layer has a file (`located`); a directory holds what its layers hold,
one after the other, each name by its first layer.  That is what a union answers
once its root is marked dirty, however it was used before
(`entry_after_invalidation`).
-/
import Strata.Proofs.Overlay.Requests
import Strata.Proofs.Overlay.Walk

namespace Strata.Overlay

open Strata.Action Strata.Path

variable {s : Store} {layers : List Filesystem}

/-! ## Paths by their owners -/

/-- The proper prefixes of a list of names, shortest first, the empty one left out. -/
def onTheWay (names : List String) : List (List String) :=
  (List.range' 1 (names.length - 1)).map names.take

/-- What ends the way to a path at a place before it: that no layer has it, or that the first layer
has a file there. -/
def obstacle (s : Store) (layers : List Filesystem) (names : List String) :
    Option (Except Failure (Option (Option (Offer Entry)))) :=
  match provided s layers (ofNames names) with
  | none => some (.ok none)
  | some offer =>
    if (kindAt s (some offer)).isDirectory then none
    else some (.error (.notADirectory (ofNames names)))

/-- Where a path leads by the owners of the places on the way: to the root if it has no names, else
to the first obstacle, else to what its own owner has. -/
def located (s : Store) (layers : List Filesystem) (path : String) :
    Except Failure (Option (Option (Offer Entry))) :=
  let names := components (normalize path false)
  if names.isEmpty then .ok (some none)
  else ((onTheWay names).findSome? (obstacle s layers)).getD
    (.ok ((provided s layers (ofNames names)).map some))

/-- The owner of a path is the first layer that can read and has a node there. -/
theorem layer_provided (s : Store) (layers : List Filesystem) (path : String) :
    (provided s layers path).map (·.layer) = layers.findIdx? (holds s path) := by
  have shift (k : Nat) : ((layers.zipIdx k).find? fun f => holds s path f.1).map (·.2)
      = (layers.findIdx? (holds s path)).map (· + k) := by
    induction layers generalizing k with
    | nil => rfl
    | cons f fs ih =>
        rw [List.zipIdx_cons, List.find?_cons, List.findIdx?_cons]
        cases holds s path f with
        | true => simp
        | false => simp [ih (k + 1), Function.comp_def, Nat.add_assoc, Nat.add_comm 1 k]
  rw [provided, Option.map_map]
  simpa [Function.comp_def] using shift 0

theorem follow_eq_findSome? {done rest : List String} {place : Option (Offer Entry)}
    (hd : (kindAt s place).isDirectory = true) (h0 : rest ≠ []) :
    follow s layers done place rest =
      (((List.range' (done.length + 1) (rest.length - 1)).map (done ++ rest).take).findSome?
        (obstacle s layers)).getD
        (.ok ((provided s layers (ofNames (done ++ rest))).map some)) := by
  induction rest generalizing done place with
  | nil => exact absurd rfl h0
  | cons c rest ih =>
      rw [follow, hd, if_pos rfl]
      have hfirst : (done ++ c :: rest).take (done.length + 1) = done ++ [c] := by
        simp [List.take_append]
      cases rest with
      | nil =>
          cases hp : provided s layers (ofNames (done ++ [c])) with
          | none => rfl
          | some offer => rfl
      | cons c' rest =>
          rw [List.length_cons, List.length_cons, Nat.add_sub_cancel, List.range'_succ,
            List.map_cons, hfirst, List.findSome?_cons, obstacle]
          cases hp : provided s layers (ofNames (done ++ [c])) with
          | none => rfl
          | some offer =>
              cases hk : (kindAt s (some offer)).isDirectory with
              | false =>
                  simp only [hk, Bool.false_eq_true, if_false, follow]
                  rfl
              | true =>
                  simp only [hk, if_true]
                  rw [ih hk (List.cons_ne_nil _ _)]
                  simp

/-- Following merged listings arrives where the owners say. -/
theorem found_eq_located (s : Store) (layers : List Filesystem) (path : String) :
    found s layers path = located s layers path := by
  rw [found, located]
  cases hn : components (normalize path false) with
  | nil => rfl
  | cons c cs =>
      rw [follow_eq_findSome? rfl (List.cons_ne_nil _ _)]
      rfl

/-! ## What a union answers once its root is dirty -/

variable {n : Nat} {layers₀ : List Filesystem} {policy : Policy} {s₀ : Store}
  {held : List (Node Entry)} {w : Store × Overlay Filesystem Entry}

/-- Whatever was done with a union and whatever happened to its layers: once its root is marked
dirty, a path leads to what the owners say, and a directory that it leads to holds what its layers
hold together.  Only where no layer can read, a directory cannot be listed. -/
theorem entry_after_invalidation
    (h : Reaches (Store.provider (n + 1)) (fun _ _ => True) (fun _ _ => True) [.root]
      (s₀, { layers := layers₀, policy := policy }) held w)
    (hs : ∀ f ∈ w.2.layers, f.CleanTree w.1) (path : String) :
    ∃ r w', (do invalidateNode .root; entry (Store.provider (n + 1)) path).exec w = (r, w') ∧
      r.map (·.map Node.offer?) = located w.1 w.2.layers path ∧
      ∀ node, r = .ok (some node) → (kindAt w.1 node.offer?).isDirectory = true →
        ((children (Store.provider (n + 1)) node).exec w').1.map (·.map Node.offer?) =
          if w.2.layers.any fun f => f.canRead w.1 then
            .ok (((stacked w.1 w.2.layers node.path).eraseDupsBy fun a b =>
              listedName false a.path == listedName false b.path).map some)
          else .error (.unsupported
            s!"no filesystem in the union supports listing: {node.path}") := by
  obtain ⟨s, o⟩ := w
  have hsteady := h.steady
  have hw : Over s o.layers (s, o.invalidate 0) :=
    ⟨.refl s, rfl, hsteady.fold, hsteady.released⟩
  have hroot : Holds o.layers (fun _ => "") (AsMerged s o.layers) (o.invalidate 0) .root := by
    refine holds_root ?_ rfl (by rw [listing_invalidate, if_pos rfl])
    rw [size_invalidate]
    exact Nat.lt_of_lt_of_le Nat.zero_lt_one hsteady.size
  have hm := asMerged s o.layers
  obtain ⟨r, label, w', he, hq, -, hr, hcached⟩ := exec_entry hs n hm path hw hroot
  refine ⟨r, w', he, ?_, ?_⟩
  · rw [hr (guides_merged hs fun _ => isComponent_of_mem), found_eq_located]
  · intro node hnode hdir
    have hnode' := (hq.holds _ _ hm hroot).of_cached (hcached node hnode)
    obtain ⟨r', -, w'', he', -, -, ⟨table, rfl, hr'⟩, -⟩ := exec_children hs n hm hq.base hnode'
    rw [he', hr', contents, if_pos hdir, ← map_snd_merged hs hnode'.sound.path, List.map_map]
    rfl

/-- Two memory filesystems: the first has a directory, the second a directory of the same path with
a file in it. -/
def twoTrees : Store where
  memories := #[{ tree := ⟨⟨[("", .directory .epoch), ("a", .directory .epoch)]⟩⟩ },
    { tree := ⟨⟨[("", .directory .epoch), ("a", .directory .epoch), ("a/b", .file [] .epoch)]⟩⟩ }]

theorem entry_after_invalidation_merged :
    let o : Overlay Filesystem Entry := { layers := [.memory 0, .memory 1] }
    Reaches (Store.provider 1) (fun _ _ => True) (fun _ _ => True) [.root] (twoTrees, o) [.root]
        (twoTrees, o) ∧
      (∀ f ∈ o.layers, f.CleanTree twoTrees) ∧
      located twoTrees o.layers "a/b" = .ok (some (some ⟨"a/b", .memory 1 "a/b", 1⟩)) ∧
      ∃ r w', (do invalidateNode .root; entry (Store.provider 1) "a/b").exec (twoTrees, o)
          = (r, w') ∧
        r.map (·.map Node.offer?) = located twoTrees o.layers "a/b" := by
  have hs : ∀ f ∈ [Filesystem.memory 0, .memory 1], f.CleanTree twoTrees := by decide
  obtain ⟨r, w', he, hr, -⟩ := entry_after_invalidation .start hs "a/b"
  exact ⟨.start, hs, rfl, r, w', he, hr⟩

/-- A union in which no layer can read does not list its root as empty, it refuses. -/
theorem unreadable_root_refused :
    let s : Store := { memories := #[{ operations := .only .write }] }
    let o : Overlay Filesystem Entry := { layers := [.memory 0] }
    (∀ f ∈ o.layers, f.CleanTree s) ∧
      ((do invalidateNode .root; entry (Store.provider 1) "").exec (s, o)).1 = .ok (some .root) ∧
      stacked s o.layers "" = [] ∧
      ((do invalidateNode .root; children (Store.provider 1) .root).exec (s, o)).1 ≠ .ok [] :=
  ⟨by decide, rfl, rfl, fun h => by cases h⟩

end Strata.Overlay
