/-
# `Strata.Proofs.Overlay.History` — where a clean listing comes from

A merge that comes to an end was answered by each layer, and takes the first of
all that they offer for each name (`scan_done`); one that a layer fails leaves
nothing behind (`scan_refused`).

A `History` keeps the nodes that a union has made and what its scans were
answered, the last one first, and `Course` says how it grows: nodes of the history
are scanned, with or without success, or marked as dirty.  From that it follows
that a clean listing is the whole of what the layers answered when its node was
last scanned (`Course.recorded`).

The layers are any at all.  Their world decides when they fail, and it may keep a
log of the calls, so the answers of a history are those that were given.
-/
import Strata.Proofs.Action
import Strata.Proofs.Overlay.Cache
import Strata.Proofs.Overlay.Merge

namespace Strata.Overlay

open Strata.Action

variable {σ F E S : Type} {P : Provider σ F E S}

/-! ## What the layers answer when they are all asked -/

/-- The first offer of each name, in the order in which the names come up.  An offer without a
name is left out. -/
def firstWins (fold : Bool) (offers : List (Offer E)) : List (String × Offer E) :=
  ((offers.filter fun o => !(listedName fold o.path).isEmpty).eraseDupsBy
    fun a b => listedName fold a.path == listedName fold b.path).map
    fun o => (listedName fold o.path, o)

theorem withOffers_filter (fold : Bool) (offers : List (Offer E))
    (table : List (String × Offer E)) :
    withOffers fold table (offers.filter fun o => !(listedName fold o.path).isEmpty)
      = withOffers fold table offers := by
  induction offers generalizing table with
  | nil => rfl
  | cons o os ih =>
      cases hn : (listedName fold o.path).isEmpty with
      | true =>
          have hskip : withOffer fold table o = table := by simp [withOffer, hn]
          rw [List.filter_cons_of_neg (by simp [hn]), ih]
          conv_rhs => rw [withOffers, List.foldl_cons, hskip, ← withOffers]
      | false =>
          rw [List.filter_cons_of_pos (by simp [hn]), withOffers, List.foldl_cons, ← withOffers, ih]
          rfl

/-- A table that is filled from nothing takes the first offer of each name. -/
theorem withOffers_nil (fold : Bool) (offers : List (Offer E)) :
    withOffers fold [] offers = firstWins fold offers := by
  have hnamed : ∀ o ∈ offers.filter fun o => !(listedName fold o.path).isEmpty,
      listedName fold o.path ≠ "" := by
    intro o ho
    simpa using (List.mem_filter.mp ho).2
  have hfree (os : List (Offer E)) :
      os.filter (fun o => (([] : List (String × Offer E)).lookup (listedName fold o.path)).isNone)
        = os := List.filter_eq_self.mpr fun _ _ => rfl
  rw [← withOffers_filter, withOffers_eq_append hnamed, hfree, List.nil_append, firstWins]

/-- What the layers from a position on answer when they are asked to list the directory at a path,
from one world to another: each that can read and has the directory, by its position. -/
inductive Answers (P : Provider σ F E S) (path : String) :
    Nat → List F → σ → List (Nat × List E) → σ → Prop
  | done {layer : Nat} {s : σ} : Answers P path layer [] s [] s
  | unasked {layer : Nat} {f : F} {fs : List F} {s t : σ} {answers : List (Nat × List E)} :
      (P.operations f s).covers (.only .read) = false →
      Answers P path (layer + 1) fs s answers t → Answers P path layer (f :: fs) s answers t
  | absent {layer : Nat} {f : F} {fs : List F} {s s' t : σ} {answers : List (Nat × List E)} :
      (P.operations f s).covers (.only .read) = true →
      (P.resolveDirectory f path).exec s = (.ok none, s') →
      Answers P path (layer + 1) fs s' answers t → Answers P path layer (f :: fs) s answers t
  | listed {layer : Nat} {f : F} {fs : List F} {s s' s'' t : σ} {directory : E}
      {entries : List E} {answers : List (Nat × List E)} :
      (P.operations f s).covers (.only .read) = true →
      (P.resolveDirectory f path).exec s = (.ok (some directory), s') →
      (P.children directory).exec s' = (.ok entries, s'') →
      Answers P path (layer + 1) fs s'' answers t →
      Answers P path layer (f :: fs) s ((layer, entries) :: answers) t

/-- What the answers of the layers offer, one after the other. -/
def offered (P : Provider σ F E S) (answers : List (Nat × List E)) : List (Offer E) :=
  answers.flatMap fun a => offersOf P a.1 a.2

theorem offered_cons (layer : Nat) (entries : List E) (answers : List (Nat × List E)) :
    offered P ((layer, entries) :: answers) = offersOf P layer entries ++ offered P answers :=
  List.flatMap_cons

/-- A merge that comes to an end was answered by each layer. -/
theorem answers_of_mergeFrom {fold : Bool} {path : String} {fs : List F} :
    ∀ {layer : Nat} {table table' : List (String × Offer E)} {s t : σ},
      (mergeFrom P fold path layer fs table).exec s = (.ok table', t) →
      ∃ answers, Answers P path layer fs s answers t ∧
        table' = withOffers fold table (offered P answers) := by
  induction fs with
  | nil =>
      intro layer table table' s t h
      obtain ⟨rfl, rfl⟩ : table = table' ∧ s = t := by simpa [mergeFrom] using h
      exact ⟨[], .done, rfl⟩
  | cons f fs ih =>
      intro layer table table' s t h
      rw [mergeFrom, exec_bind] at h
      cases hcan : (P.operations f s).covers (.only .read) with
      | false =>
          have hnone : (layerOffers P path layer f).exec s = (.ok [], s) := by
            simp [layerOffers, hcan]
          rw [hnone] at h
          obtain ⟨answers, ha, rfl⟩ := ih h
          exact ⟨answers, .unasked hcan ha, rfl⟩
      | true =>
          rcases hdir : (P.resolveDirectory f path).exec s with ⟨_ | _ | directory, s'⟩
          · simp [layerOffers, hcan, hdir] at h
          · have hnone : (layerOffers P path layer f).exec s = (.ok [], s') := by
              simp [layerOffers, hcan, hdir]
            rw [hnone] at h
            obtain ⟨answers, ha, rfl⟩ := ih h
            exact ⟨answers, .absent hcan hdir ha, rfl⟩
          · rcases hlist : (P.children directory).exec s' with ⟨_ | entries, s''⟩
            · simp [layerOffers, hcan, hdir, hlist] at h
            · have hsome : (layerOffers P path layer f).exec s
                  = (.ok (offersOf P layer entries), s'') := by
                simp [layerOffers, hcan, hdir, hlist]
              rw [hsome] at h
              obtain ⟨answers, ha, rfl⟩ := ih h
              refine ⟨(layer, entries) :: answers, .listed hcan hdir hlist ha, ?_⟩
              rw [offered_cons, withOffers_append]

/-- A merge is computed from what each layer answers. -/
theorem Answers.exec_mergeFrom (fold : Bool) {path : String} {layer : Nat} {fs : List F} {s t : σ}
    {answers : List (Nat × List E)} (h : Answers P path layer fs s answers t)
    (table : List (String × Offer E)) :
    (mergeFrom P fold path layer fs table).exec s
      = (.ok (withOffers fold table (offered P answers)), t) := by
  induction h generalizing table with
  | done => rfl
  | unasked hcan _ ih =>
      simp only [mergeFrom, layerOffers, exec_bind, exec_get, hcan, Bool.false_eq_true,
        if_false, exec_pure]
      exact ih table
  | absent hcan hdir _ ih =>
      simp only [mergeFrom, layerOffers, exec_bind, exec_get, hcan, if_true, hdir,
        exec_pure]
      exact ih table
  | listed hcan hdir hlist _ ih =>
      simp only [mergeFrom, layerOffers, exec_bind, exec_get, hcan, if_true, hdir, hlist,
        exec_pure]
      rw [offered_cons, withOffers_append]
      exact ih _

section
variable {node : Node E} {w w' : σ × Overlay F E} {e : Failure} {s : σ}

theorem scan_of_merge_error
    (h : (merge P w.2.fold w.2.layers node.path).exec w.1 = (.error e, s)) :
    (scan P node).exec w = (.error e, (s, w.2)) := by
  simp [scan, current, below, h]

theorem scan_of_merge_ok {table : List (String × Offer E)}
    (h : (merge P w.2.fold w.2.layers node.path).exec w.1 = (.ok table, s)) :
    (scan P node).exec w = (.ok (), (s, w.2.install node.slot table)) := by
  simp [scan, current, below, update, h]

/-- A scan that is refused leaves the union as it was. -/
theorem scan_refused (h : (scan P node).exec w = (.error e, w')) : w'.2 = w.2 := by
  rcases hmerge : (merge P w.2.fold w.2.layers node.path).exec w.1 with ⟨e' | table, s⟩
  · rw [scan_of_merge_error hmerge] at h
    obtain ⟨-, rfl⟩ := Prod.mk.inj h
    rfl
  · rw [scan_of_merge_ok hmerge] at h
    cases (Prod.mk.inj h).1

/-- A scan that is not refused was answered by each layer. -/
theorem answers_of_scan (h : (scan P node).exec w = (.ok (), w')) :
    ∃ answers, Answers P node.path 0 w.2.layers w.1 answers w'.1 := by
  rcases hmerge : (merge P w.2.fold w.2.layers node.path).exec w.1 with ⟨e' | table, s⟩
  · rw [scan_of_merge_error hmerge] at h
    cases (Prod.mk.inj h).1
  · obtain ⟨answers, ha, -⟩ := answers_of_mergeFrom hmerge
    rw [scan_of_merge_ok hmerge] at h
    obtain ⟨-, rfl⟩ := Prod.mk.inj h
    exact ⟨answers, ha⟩

/-- What a scan installs is the first of all that the layers answered for each name. -/
theorem scan_done {answers : List (Nat × List E)} (h : (scan P node).exec w = (.ok (), w'))
    (ha : Answers P node.path 0 w.2.layers w.1 answers w'.1) :
    w'.2 = w.2.install node.slot (firstWins w.2.fold (offered P answers)) := by
  have hmerge : (merge P w.2.fold w.2.layers node.path).exec w.1
      = (.ok (firstWins w.2.fold (offered P answers)), w'.1) := by
    rw [← withOffers_nil]
    exact ha.exec_mergeFrom w.2.fold []
  rw [scan_of_merge_ok hmerge] at h
  rw [← (Prod.mk.inj h).2]

end

/-! ## How a history grows -/

/-- The entries of a table of nodes. -/
def nodesOf (children : List (String × Child E)) : List (Node E) :=
  children.map fun c => .entry c.2

/-- A scan that was not refused: what was scanned, and what each layer answered. -/
structure Scan (E : Type) where
  node : Node E
  answers : List (Nat × List E)

/-- The nodes that a union has made, and its scans, the last one first. -/
structure History (E : Type) where
  nodes : List (Node E) := [.root]
  scans : List (Scan E) := []

namespace History

/-- The last scan of a node. -/
def last? (h : History E) (node : Node E) : Option (Scan E) :=
  h.scans.find? fun scan => scan.node.slot == node.slot

/-- The history after a scan that made these nodes. -/
def scanned (h : History E) (scan : Scan E) (made : List (Node E)) : History E :=
  { nodes := h.nodes ++ made, scans := scan :: h.scans }

theorem last?_scanned (h : History E) (scan : Scan E) (made : List (Node E)) (node : Node E) :
    (h.scanned scan made).last? node
      = if scan.node.slot = node.slot then some scan else h.last? node := by
  rw [last?, scanned, List.find?_cons, last?]
  by_cases hslot : scan.node.slot = node.slot
  · rw [if_pos hslot, beq_iff_eq.mpr hslot]
  · rw [if_neg hslot, beq_eq_false_iff_ne.mpr hslot]

end History

/-- What can become of a union that starts in a world, with its history: the world below it
changes as `env` says, and nodes of the history are scanned or marked as dirty. -/
inductive Course (P : Provider σ F E S) (env : σ → σ → Prop) (w₀ : σ × Overlay F E) :
    History E → σ × Overlay F E → Prop
  | start : Course P env w₀ {} w₀
  | world {h : History E} {w : σ × Overlay F E} {s : σ} :
      Course P env w₀ h w → env w.1 s → Course P env w₀ h (s, w.2)
  | invalidated {h : History E} {w : σ × Overlay F E} {node : Node E} :
      Course P env w₀ h w → node ∈ h.nodes → Course P env w₀ h (w.1, w.2.invalidate node.slot)
  | refused {h : History E} {w w' : σ × Overlay F E} {node : Node E} {e : Failure} :
      Course P env w₀ h w → node ∈ h.nodes → (scan P node).exec w = (.error e, w') →
      Course P env w₀ h w'
  | scanned {h : History E} {w w' : σ × Overlay F E} {node : Node E}
      {answers : List (Nat × List E)} :
      Course P env w₀ h w → node ∈ h.nodes → (scan P node).exec w = (.ok (), w') →
      Answers P node.path 0 w.2.layers w.1 answers w'.1 →
      Course P env w₀ (h.scanned ⟨node, answers⟩ (nodesOf (w'.2.listing node.slot).children)) w'

section
variable {env : σ → σ → Prop} {w₀ w w' : σ × Overlay F E} {h : History E} {node : Node E}

theorem Course.settings (hc : Course P env w₀ h w) :
    w.2.fold = w₀.2.fold ∧ w.2.layers = w₀.2.layers := by
  induction hc with
  | start => exact ⟨rfl, rfl⟩
  | world _ _ ih => exact ih
  | invalidated _ _ ih => exact ih
  | refused _ _ hscan ih =>
      rw [scan_refused hscan]
      exact ih
  | scanned _ _ hscan ha ih =>
      rw [scan_done hscan ha]
      exact ih

theorem Course.root_mem (hc : Course P env w₀ h w) : .root ∈ h.nodes := by
  induction hc with
  | start => exact List.mem_singleton_self _
  | world _ _ ih => exact ih
  | invalidated _ _ ih => exact ih
  | refused _ _ _ ih => exact ih
  | scanned _ _ _ _ ih => exact List.mem_append_left _ ih

/-- Every scan of a history was answered by each layer. -/
theorem Course.answered (hc : Course P env w₀ h w) :
    ∀ scan ∈ h.scans, ∃ s s', Answers P scan.node.path 0 w₀.2.layers s scan.answers s' := by
  induction hc with
  | start => exact fun _ hs => (by cases hs)
  | world _ _ ih => exact ih
  | invalidated _ _ ih => exact ih
  | refused _ _ _ ih => exact ih
  | scanned hc _ _ ha ih =>
      intro scan hscan
      rcases List.mem_cons.mp hscan with rfl | hscan
      · rw [hc.settings.2] at ha
        exact ⟨_, _, ha⟩
      · exact ih scan hscan

/-- What a history says of a union: each node has a slot of its own, what clean listings hold is
known, and a clean listing is the whole of what the layers answered to the last scan. -/
structure Recorded (P : Provider σ F E S) (h : History E) (o : Overlay F E) : Prop where
  slots : ∀ node ∈ h.nodes, node.slot < o.listings.size
  unique : ∀ node ∈ h.nodes, ∀ node' ∈ h.nodes, node.slot = node'.slot → node = node'
  known : ∀ node ∈ h.nodes, (o.listing node.slot).dirty = false →
    nodesOf (o.listing node.slot).children ⊆ h.nodes
  whole : ∀ node ∈ h.nodes, (o.listing node.slot).dirty = false →
    ∃ scan, h.last? node = some scan ∧ scan.node = node ∧
      (o.listing node.slot).offers = firstWins o.fold (offered P scan.answers)

theorem Recorded.start {o : Overlay F E} (hsize : 0 < o.listings.size)
    (hdirty : (o.listing 0).dirty = true) : Recorded P {} o where
  slots node hn := by
    obtain rfl := List.mem_singleton.mp hn
    exact hsize
  unique node hn node' hn' _ := by
    rw [List.mem_singleton.mp hn, List.mem_singleton.mp hn']
  known node hn hd := by
    obtain rfl := List.mem_singleton.mp hn
    exact absurd (hdirty.symm.trans hd) (by decide)
  whole node hn hd := by
    obtain rfl := List.mem_singleton.mp hn
    exact absurd (hdirty.symm.trans hd) (by decide)

theorem Recorded.invalidated {o : Overlay F E} (hr : Recorded P h o) (slot : Nat) :
    Recorded P h (o.invalidate slot) := by
  have hclean {node : Node E} (hd : ((o.invalidate slot).listing node.slot).dirty = false) :
      (o.invalidate slot).listing node.slot = o.listing node.slot := by
    rw [listing_invalidate] at hd ⊢
    split
    · rename_i hslot
      rw [if_pos hslot] at hd
      cases hd
    · rfl
  refine ⟨?_, hr.unique, ?_, ?_⟩
  · intro node hn
    rw [size_invalidate]
    exact hr.slots node hn
  · intro node hn hd
    have heq := hclean hd
    rw [heq] at hd ⊢
    exact hr.known node hn hd
  · intro node hn hd
    have heq := hclean hd
    rw [heq] at hd ⊢
    exact hr.whole node hn hd

/-- The nodes that a table makes have slots of their own. -/
theorem slot_of_mem_assigned {k : Nat} {table : List (String × Offer E)} {node : Node E}
    (hn : node ∈ nodesOf (assignSlots k table)) : k ≤ node.slot ∧ node.slot < k + table.length ∧
      ∀ node' ∈ nodesOf (assignSlots k table), node.slot = node'.slot → node = node' := by
  obtain ⟨⟨n, c⟩, hc, rfl⟩ := List.mem_map.mp hn
  obtain ⟨hle, hget⟩ := getElem?_of_mem_assignSlots hc
  have hlt : c.slot - k < table.length := (List.getElem?_eq_some_iff.mp hget).1
  refine ⟨hle, by show c.slot < _; omega, ?_⟩
  intro node' hn' hslot
  obtain ⟨⟨n', c'⟩, hc', rfl⟩ := List.mem_map.mp hn'
  have hslot : c.slot = c'.slot := hslot
  have hget' := (getElem?_of_mem_assignSlots hc').2
  rw [← hslot, hget] at hget'
  obtain ⟨-, hoffer⟩ := Prod.mk.inj (Option.some.inj hget')
  obtain ⟨slot, offer⟩ := c
  obtain ⟨slot', offer'⟩ := c'
  obtain rfl : slot = slot' := hslot
  obtain rfl : offer = offer' := hoffer
  rfl

theorem Recorded.scanned {o : Overlay F E} (hr : Recorded P h o) (hnode : node ∈ h.nodes)
    (answers : List (Nat × List E)) :
    let o' := o.install node.slot (firstWins o.fold (offered P answers))
    Recorded P (h.scanned ⟨node, answers⟩ (nodesOf (o'.listing node.slot).children)) o' := by
  intro o'
  have hlisting (j : Nat) : o'.listing j = if j = node.slot then
      { children := assignSlots o.listings.size (firstWins o.fold (offered P answers)),
        dirty := false }
      else o.listing j := listing_install o _ (hr.slots node hnode) j
  have hmade {made : Node E} (hm : made ∈ nodesOf (o'.listing node.slot).children) :
      made ∈ nodesOf
        (assignSlots o.listings.size (firstWins o.fold (offered P answers))) := by
    rwa [hlisting, if_pos rfl] at hm
  -- a node that the scan made has not been listed
  have hfresh {made : Node E} (hm : made ∈ nodesOf (o'.listing node.slot).children) :
      (o'.listing made.slot).dirty = true := by
    have hle := (slot_of_mem_assigned (hmade hm)).1
    have hslot := hr.slots node hnode
    rw [hlisting, if_neg (by omega), listing_of_size_le o hle]
    rfl
  refine ⟨?_, ?_, ?_, ?_⟩
  · intro n hn
    rw [size_install]
    rcases List.mem_append.mp hn with hn | hn
    · have := hr.slots n hn
      omega
    · exact (slot_of_mem_assigned (hmade hn)).2.1
  · intro n hn n' hn' hslot
    rcases List.mem_append.mp hn with hn | hn
    · rcases List.mem_append.mp hn' with hn' | hn'
      · exact hr.unique n hn n' hn' hslot
      · have hlt := hr.slots n hn
        have hle := (slot_of_mem_assigned (hmade hn')).1
        omega
    · rcases List.mem_append.mp hn' with hn' | hn'
      · have hlt := hr.slots n' hn'
        have hle := (slot_of_mem_assigned (hmade hn)).1
        omega
      · exact (slot_of_mem_assigned (hmade hn)).2.2 n' (hmade hn') hslot
  · intro n hn hd
    rcases List.mem_append.mp hn with hn | hn
    · by_cases hslot : n.slot = node.slot
      · rw [hslot]
        exact List.subset_append_right _ _
      · rw [hlisting, if_neg hslot] at hd ⊢
        exact List.subset_append_of_subset_left _ (hr.known n hn hd)
    · rw [hfresh hn] at hd
      cases hd
  · intro n hn hd
    rw [History.last?_scanned]
    rcases List.mem_append.mp hn with hn | hn
    · by_cases hslot : node.slot = n.slot
      · obtain rfl := hr.unique node hnode n hn hslot
        refine ⟨_, if_pos rfl, rfl, ?_⟩
        rw [hlisting, if_pos rfl]
        exact map_offer_assignSlots _ _
      · rw [if_neg hslot]
        rw [hlisting, if_neg (Ne.symm hslot)] at hd ⊢
        exact hr.whole n hn hd
    · rw [hfresh hn] at hd
      cases hd

/-- Whatever becomes of a union that has listed nothing, a clean listing is the first of all that
the layers answered, for each name, when it was last computed. -/
theorem Course.recorded (hc : Course P env w₀ h w) (hsize : 0 < w₀.2.listings.size)
    (hdirty : (w₀.2.listing 0).dirty = true) : Recorded P h w.2 := by
  induction hc with
  | start => exact .start hsize hdirty
  | world _ _ ih => exact ih
  | invalidated _ _ ih => exact ih.invalidated _
  | refused _ _ hscan ih =>
      rw [scan_refused hscan]
      exact ih
  | scanned _ hnode hscan ha ih =>
      rw [scan_done hscan ha]
      exact ih.scanned hnode _

end

end Strata.Overlay
