/-
# `Strata.Proofs.Store.Growth` — a store that gets more filesystems

Setting up filesystems adds them to a store one after the other, and looking into
them on the way (a union may be populated as soon as it is there) leaves them what
they are: all that looking changes is what unions have listed and what probes have
counted.  `Grows` is what such steps have in common.  Whatever is looked at, through
however many unions, the store grows (`looks_provider`).
-/
import Strata.Proofs.Overlay.Origins
import Strata.Store.Filesystems

namespace Strata

open Strata.Action

namespace Overlay

variable {σ F E S : Type} {P : Provider σ F E S} {I : σ → Prop} {o o' o'' : Overlay F E}

/-! ## Looking through a union -/

/-- The union has the same layers and the same settings. -/
structure Relisted (o o' : Overlay F E) : Prop where
  steady : Steady o o'
  layers : o'.layers = o.layers

theorem Relisted.refl (o : Overlay F E) : Relisted o o := ⟨.refl o, rfl⟩

theorem Relisted.trans (h : Relisted o o') (h' : Relisted o' o'') : Relisted o o'' :=
  ⟨h.steady.trans h'.steady, h'.layers.trans h.layers⟩

/-- To look into the filesystems of the provider keeps what holds of the world. -/
structure Looks (P : Provider σ F E S) (I : σ → Prop) : Prop where
  child : ∀ e name, Ensures I (P.child e name) fun _ => True
  children : ∀ e, Ensures I (P.children e) fun _ => True

section
variable (h : Looks P I)
include h

theorem Looks.layerOffers (path : String) (layer : Nat) (f : F) :
    Ensures I (layerOffers P path layer f) fun _ => True := by
  have hdir : Ensures I (P.resolveDirectory f path) fun r => ∀ e ∈ r, (fun _ : E => True) e :=
    ensures_resolveDirectory trivial
      (fun e name _ => (h.child e name).mono fun _ _ _ _ => trivial) path
  refine Ensures.get.bind fun _ _ => .ite (hdir.bind ?_) (.pure trivial)
  intro r _
  cases r with
  | none => exact .pure trivial
  | some e => exact (h.children e).bind fun _ _ => .pure trivial

theorem Looks.mergeFrom (fold : Bool) (path : String) (layer : Nat) (layers : List F)
    (table : List (String × Offer E)) :
    Ensures I (mergeFrom P fold path layer layers table) fun _ => True := by
  induction layers generalizing layer table with
  | nil => exact .pure trivial
  | cons f layers ih => exact (h.layerOffers path layer f).bind fun _ _ => ih _ _

/-- To look through a union over them keeps it too, and the union changes its listings only. -/
theorem Looks.observed (o : Overlay F E) :
    Observed P (fun w => I w.1 ∧ Relisted o w.2) fun _ => True where
  root := trivial
  listed _ _ _ _ _ := trivial
  scan node := by
    rintro ⟨s, u⟩ ⟨hs, hu⟩
    refine ⟨?_, fun _ _ => trivial⟩
    have hmerge := (h.mergeFrom u.fold node.path 0 u.layers [] s hs).1
    rw [← merge] at hmerge
    rcases hexec : (merge P u.fold u.layers node.path).exec s with ⟨_ | table, s'⟩
    · rw [hexec] at hmerge
      simpa [scan, current, below, update, hexec] using ⟨hmerge, hu⟩
    · rw [hexec] at hmerge
      have hinstall : Relisted u (u.install node.slot table) := ⟨⟨rfl, rfl, rfl, by simp⟩, rfl⟩
      simpa [scan, current, below, update, hexec] using ⟨hmerge, hu.trans hinstall⟩

end

end Overlay

/-! ## Growing -/

/-- All that is in the first store is in the second one as it was, but for what unions have listed
and what probes have counted. -/
structure Store.Grows (s s' : Store) : Prop where
  disk : s'.disk = s.disk
  clock : s'.clock = s.clock
  memories : ∀ {id : Nat} {m}, s.memories[id]? = some m → s'.memories[id]? = some m
  hosts : ∀ {id : Nat} {h}, s.hosts[id]? = some h → s'.hosts[id]? = some h
  overlays : ∀ {id : Nat} {o}, s.overlays[id]? = some o →
    ∃ o', s'.overlays[id]? = some o' ∧ Overlay.Relisted o o'

namespace Store

open Overlay (Relisted Looks)

variable {s s' s'' : Store}

theorem Grows.refl (s : Store) : s.Grows s := ⟨rfl, rfl, id, id, fun h => ⟨_, h, .refl _⟩⟩

theorem Grows.trans (h : s.Grows s') (h' : s'.Grows s'') : s.Grows s'' where
  disk := h'.disk.trans h.disk
  clock := h'.clock.trans h.clock
  memories hm := h'.memories (h.memories hm)
  hosts hh := h'.hosts (h.hosts hh)
  overlays ho := by
    obtain ⟨o₁, ho₁, hsame⟩ := h.overlays ho
    obtain ⟨o₂, ho₂, hsame'⟩ := h'.overlays ho₁
    exact ⟨o₂, ho₂, hsame.trans hsame'⟩

theorem getElem?_push_of_some {α : Type} {xs : Array α} {i : Nat} {x : α} (h : xs[i]? = some x)
    (y : α) : (xs.push y)[i]? = some x := by
  have hi : i < xs.size := (Array.getElem?_eq_some_iff.mp h).choose
  rw [Array.getElem?_push, if_neg (by omega), h]

theorem grows_addMemory (s : Store) (m : Memory) : s.Grows (s.addMemory m).2 :=
  { Grows.refl s with memories := fun h => getElem?_push_of_some h m }

theorem grows_addHost (s : Store) (h : Host) : s.Grows (s.addHost h).2 :=
  { Grows.refl s with hosts := fun hh => getElem?_push_of_some hh h }

theorem grows_addOverlay (s : Store) (o : Overlay Filesystem Entry) :
    s.Grows (s.addOverlay o).2 :=
  { Grows.refl s with overlays := fun ho => ⟨_, getElem?_push_of_some ho o, .refl _⟩ }

theorem Grows.size_overlays (h : s.Grows s') : s.overlays.size ≤ s'.overlays.size := by
  rcases Nat.eq_zero_or_pos s.overlays.size with h0 | hpos
  · omega
  · obtain ⟨o', ho', -⟩ := h.overlays (Array.getElem?_eq_getElem (Nat.sub_one_lt_of_lt hpos))
    have := (Array.getElem?_eq_some_iff.mp ho').choose
    omega

/-- A union that has been looked through is put back into the store. -/
theorem Grows.setOverlay {t : Store} {id : Nat} {o : Overlay Filesystem Entry} (h : s.Grows t)
    (hsame : ∀ u, s.overlays[id]? = some u → Relisted u o) : s.Grows (t.setOverlay id o) where
  disk := h.disk
  clock := h.clock
  memories := h.memories
  hosts := h.hosts
  overlays {j u} hj := by
    obtain ⟨u', hu', hrel⟩ := h.overlays hj
    have hlt : j < t.overlays.size := (Array.getElem?_eq_some_iff.mp hu').choose
    by_cases hid : id = j
    · subst hid
      exact ⟨o, by simp [Store.setOverlay, hlt], hsame u hj⟩
    · exact ⟨u', by rw [Store.setOverlay, Array.getElem?_setIfInBounds_ne hid, hu'], hrel⟩

/-! ## Looking grows the store -/

theorem ensures_inOverlay {α : Type} {Q : α → Prop} {id : Nat}
    {x : Overlay.Call Store Filesystem Entry α}
    (hx : ∀ o, Ensures (fun w => s.Grows w.1 ∧ Relisted o w.2) x Q) :
    Ensures s.Grows (inOverlay id x) Q := by
  intro t ht
  obtain ⟨⟨hgrows, hrel⟩, hq⟩ := hx (t.overlay id) (t, t.overlay id) ⟨ht, .refl _⟩
  refine ⟨hgrows.setOverlay fun u hu => ?_, hq⟩
  obtain ⟨u', hu', hsame⟩ := ht.overlays hu
  have hover : t.overlay id = u' := by rw [overlay, Array.getD_eq_getD_getElem?, hu']; rfl
  exact hsame.trans (hover ▸ hrel)

theorem ensures_changeProbe (id : Nat) (f : Probe → Probe) :
    Ensures s.Grows (changeProbe id f) fun _ => True :=
  fun _ ht => ⟨⟨ht.disk, ht.clock, ht.memories, ht.hosts, ht.overlays⟩, fun _ _ => trivial⟩

theorem ensures_raise (fault : Option Failure) :
    Ensures s.Grows (Faults.raise fault) fun _ => True := by
  cases fault with
  | none => exact .pure trivial
  | some e => exact .throw e

section
variable {P : Provider Store Filesystem Entry Stream} (h : Looks P s.Grows)
include h

theorem ensures_entry_child (e : Entry) (name : String) :
    Ensures s.Grows (e.child P name) fun _ => True := by
  have hunion (id : Nat) (node : Overlay.Node Entry) :
      Ensures s.Grows (inOverlay id (Overlay.child P node name)) fun _ => True :=
    ensures_inOverlay fun o =>
      (Overlay.ensures_child (h.observed o) node name trivial).mono fun _ _ => trivial
  induction e with
  | memory id path =>
    exact Ensures.get.bind fun _ _ => (Ensures.ofExcept _).bind fun _ _ => .pure trivial
  | archive id path =>
    exact Ensures.get.bind fun _ _ => (Ensures.ofExcept _).bind fun _ _ => .pure trivial
  | host id path =>
    exact Ensures.get.bind fun _ _ => (Ensures.ofExcept _).bind fun _ _ => .pure trivial
  | overlayRoot id => exact (hunion id _).bind fun _ _ => .pure trivial
  | overlayEntry id slot path source layer => exact (hunion id _).bind fun _ _ => .pure trivial
  | probed probe inner ih => exact ih.bind fun _ _ => .pure trivial
  | faulty faults inner ih =>
    exact (ensures_raise _).bind fun _ _ => ih.bind fun _ _ => .pure trivial

theorem ensures_entry_children (e : Entry) : Ensures s.Grows (e.children P) fun _ => True := by
  have hunion (id : Nat) (node : Overlay.Node Entry) :
      Ensures s.Grows (inOverlay id (Overlay.children P node)) fun _ => True :=
    ensures_inOverlay fun o =>
      (Overlay.ensures_children (h.observed o) node).mono fun _ _ => trivial
  induction e with
  | memory id path =>
    exact Ensures.get.bind fun _ _ => (Ensures.ofExcept _).bind fun _ _ => .pure trivial
  | archive id path =>
    exact Ensures.get.bind fun _ _ => (Ensures.ofExcept _).bind fun _ _ => .pure trivial
  | host id path =>
    exact Ensures.get.bind fun _ _ => (Ensures.ofExcept _).bind fun _ _ => .pure trivial
  | overlayRoot id => exact (hunion id _).bind fun _ _ => .pure trivial
  | overlayEntry id slot path source layer => exact (hunion id _).bind fun _ _ => .pure trivial
  | probed probe inner ih =>
    exact (ensures_changeProbe _ _).bind fun _ _ => ih.bind fun _ _ => .pure trivial
  | faulty faults inner ih =>
    exact (ensures_raise _).bind fun _ _ => ih.bind fun _ _ => .pure trivial

end

/-- To look into the filesystems of a store, through however many unions, grows the store. -/
theorem looks_provider (s : Store) (n : Nat) : Looks (provider n) s.Grows := by
  induction n with
  | zero => exact ⟨fun _ _ => .throw _, fun _ => .throw _⟩
  | succ n ih => exact ⟨ensures_entry_child ih, ensures_entry_children ih⟩

/-- To populate a union grows the store. -/
theorem grows_populate (s : Store) (n id depth : Nat) (node : Overlay.Node Entry) :
    s.Grows ((inOverlay id (Overlay.populate (provider n) depth node)).exec s).2 :=
  (ensures_inOverlay
    (fun o => Overlay.ensures_populate ((looks_provider s n).observed o) node depth) s (.refl s)).1

end Store

end Strata
