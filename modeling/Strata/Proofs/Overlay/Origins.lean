/-
# `Strata.Proofs.Overlay.Origins` — every node stands for an entry of a layer

A union makes its nodes of what its layers answer.  So, whatever is asked of it, the
source of a node is an entry of the layer that the node names, and its path is that
of the entry in normal form (`Reaches.origin`).  Nothing is assumed of the layers but
that their calls lead from their entries to their entries.
-/
import Strata.Proofs.Overlay.Merge
import Strata.Proofs.Overlay.Requests
import Strata.Proofs.Store.Ownership

namespace Strata

open Strata.Action

/-- The calls of a provider lead from the entries that a filesystem owns to such entries. -/
structure Provider.Closed {σ F E S : Type} (P : Provider σ F E S) (owns : F → E → Prop) :
    Prop where
  root : ∀ f, owns f (P.root f)
  child : ∀ f e name, owns f e →
    Ensures (fun _ => True) (P.child e name) fun r => ∀ e' ∈ r, owns f e'
  children : ∀ f e, owns f e → Ensures (fun _ => True) (P.children e) fun es => ∀ e' ∈ es, owns f e'
  create : ∀ f e kind name, owns f e → Ensures (fun _ => True) (P.create e kind name) (owns f)

theorem Store.provider_closed (n : Nat) : (Store.provider (n + 1)).Closed Filesystem.Has where
  root f := f.has_root
  child _ _ name h := Filesystem.has_child _ h name
  children _ _ h := Filesystem.has_children _ h
  create _ _ kind name h := Filesystem.has_create _ h kind name

namespace Overlay

variable {σ F E S : Type} {P : Provider σ F E S} {owns : F → E → Prop}

/-- The source of the offer is an entry of the layer, and its path is that of the entry. -/
structure Offer.Origin (P : Provider σ F E S) (owns : F → E → Prop) (layers : List F)
    (o : Offer E) : Prop where
  owned : ∃ f, layers[o.layer]? = some f ∧ owns f o.source
  path : o.path = Path.normalize (P.path o.source) false

/-- What a path of a filesystem leads to is owned, if the root is and lookups lead to what is. -/
theorem ensures_resolve {I : σ → Prop} {owned : E → Prop} {f : F} (hroot : owned (P.root f))
    (hchild : ∀ e name, owned e → Ensures I (P.child e name) fun r => ∀ e' ∈ r, owned e')
    (path : String) : Ensures I (P.resolve f path) fun r => ∀ e ∈ r, owned e := by
  refine .ite (.pure fun e he => Option.some.inj he ▸ hroot) ?_
  refine (hchild _ path hroot).attempt.bind ?_
  intro r hr
  split
  · rename_i e
    refine Ensures.get.bind fun _ _ => .pure ?_
    intro e' he'
    split at he'
    · exact Option.some.inj he' ▸ hr (some e) rfl e rfl
    · cases he'
  · exact .pure fun _ he => (by cases he)
  · exact .pure fun _ he => (by cases he)
  · exact .throw _

theorem ensures_resolveDirectory {I : σ → Prop} {owned : E → Prop} {f : F}
    (hroot : owned (P.root f))
    (hchild : ∀ e name, owned e → Ensures I (P.child e name) fun r => ∀ e' ∈ r, owned e')
    (path : String) : Ensures I (P.resolveDirectory f path) fun r => ∀ e ∈ r, owned e := by
  refine (ensures_resolve hroot hchild path).bind ?_
  intro r hr
  split
  · rename_i e
    refine Ensures.get.bind fun _ _ => .pure ?_
    intro e' he'
    split at he'
    · exact hr e' he'
    · cases he'
  · exact .pure fun _ he => (by cases he)

section
variable (h : P.Closed owns)
include h

theorem owns_resolveDirectory (f : F) (path : String) :
    Ensures (fun _ => True) (P.resolveDirectory f path) fun r => ∀ e ∈ r, owns f e :=
  ensures_resolveDirectory (h.root f) (fun e name => h.child f e name) path

variable {layers : List F}

theorem origin_layerOffers (path : String) {layer : Nat} {f : F} (hf : layers[layer]? = some f) :
    Ensures (fun _ => True) (layerOffers P path layer f) fun os => ∀ o ∈ os, o.Origin P owns layers := by
  refine (Ensures.any _).bind fun _ _ => .ite ?_ (.pure fun _ ho => (by cases ho))
  refine (owns_resolveDirectory h f path).bind ?_
  intro r hr
  split
  · rename_i directory
    refine (h.children f directory (hr directory rfl)).bind fun es hes => .pure ?_
    intro o ho
    obtain ⟨e, he, rfl⟩ := List.mem_map.mp ho
    exact ⟨⟨f, hf, hes e he⟩, rfl⟩
  · exact .pure fun _ ho => (by cases ho)

omit h in
/-- The first of the layers that stand from a position on, and those after it. -/
theorem layers_from {f : F} {rest : List F} {layer : Nat}
    (hfrom : ∀ i, (f :: rest)[i]? = layers[layer + i]?) :
    layers[layer]? = some f ∧ ∀ i, rest[i]? = layers[layer + 1 + i]? := by
  refine ⟨(hfrom 0).symm, fun i => ?_⟩
  have := hfrom (i + 1)
  rwa [List.getElem?_cons_succ, show layer + (i + 1) = layer + 1 + i by omega] at this

/-- What the layers offer together comes from them. -/
theorem origin_mergeFrom (fold : Bool) (path : String) (layer : Nat) (rest : List F)
    (hrest : ∀ i, rest[i]? = layers[layer + i]?) (table : List (String × Offer E))
    (ht : ∀ c ∈ table, c.2.Origin P owns layers) :
    Ensures (fun _ => True) (mergeFrom P fold path layer rest table)
      fun t => ∀ c ∈ t, c.2.Origin P owns layers := by
  induction rest generalizing layer table with
  | nil => exact .pure ht
  | cons f rest ih =>
      obtain ⟨hf, hlater⟩ := layers_from hrest
      refine (origin_layerOffers h path hf).bind ?_
      intro offers ho
      refine ih (layer + 1) hlater _ ?_
      intro c hc
      exact (mem_withOffers hc).elim (ht c) fun hm => ho _ hm.1

omit h in
theorem ensures_consult {α : Type} {I : σ → Prop} {x : Action σ α} {Q : α → Prop}
    (hx : Ensures I x Q) : Ensures I (consult x) fun r => ∀ a ∈ r, Q a := by
  refine hx.attempt.bind ?_
  intro r hr
  split
  · rename_i a
    exact .pure fun a' ha => Option.some.inj ha ▸ hr a rfl
  · exact .ite (.throw _) (.pure fun _ ha => (by cases ha))

theorem owns_createInLayer (path : String) (kind : Kind) (name : String) (f : F) :
    Ensures (fun _ => True) (createInLayer P path kind name f) fun r => ∀ e ∈ r, owns f e := by
  refine (owns_resolveDirectory h f path).bind ?_
  intro r hr
  split
  · rename_i directory
    refine (h.create f directory kind name (hr directory rfl)).bind fun e he => .pure ?_
    exact fun e' he' => Option.some.inj he' ▸ he
  · exact .pure fun _ he => (by cases he)

/-- What a layer makes comes from it. -/
theorem origin_createFrom (path : String) (kind : Kind) (name : String) (layer : Nat)
    (rest : List F) (hrest : ∀ i, rest[i]? = layers[layer + i]?) :
    Ensures (fun _ => True) (createFrom P path kind name layer rest)
      fun r => ∀ o ∈ r, o.Origin P owns layers := by
  induction rest generalizing layer with
  | nil => exact .pure fun _ ho => (by cases ho)
  | cons f rest ih =>
      obtain ⟨hf, hrest⟩ := layers_from hrest
      have hlater := ih (layer + 1) hrest
      have hmade := ensures_consult (owns_createInLayer h path kind name f)
      refine (Ensures.any _).bind fun _ _ => .ite (hmade.bind fun made hown => ?_) hlater
      rcases made with _ | _ | e
      · exact hlater
      · exact hlater
      · refine .pure ?_
        intro o ho
        obtain rfl := Option.some.inj ho
        exact ⟨⟨f, hf, hown (some e) rfl e rfl⟩, rfl⟩

/-- The nodes of a union come from its layers. -/
def Owned (P : Provider σ F E S) (owns : F → E → Prop) (layers : List F) (w : σ × Overlay F E) :
    Prop :=
  w.2.layers = layers ∧ ∀ slot, ∀ c ∈ (w.2.listing slot).children, c.2.offer.Origin P owns layers

theorem invariant_owned (layers : List F) :
    Invariant P (Owned P owns layers) fun node => ∀ o ∈ node.offer?, o.Origin P owns layers where
  root _ ho := by cases ho
  world _ _ hw := hw
  listed w slot c hw hc := by
    rintro _ ⟨⟩
    exact hw.2 slot c hc
  install w k path s table hw ht := by
    refine ⟨hw.1, ?_⟩
    intro slot c hc
    rcases mem_listing_install w.2 k table hc with hc | hc
    · exact hw.2 slot c hc
    · have := origin_mergeFrom h w.2.fold path 0 layers (fun i => by rw [Nat.zero_add]) []
        fun _ hm => (by cases hm)
      rw [hw.1] at ht
      exact (this s trivial).2 table ht _ hc
  invalidate w k hw := by
    refine ⟨hw.1, ?_⟩
    intro slot c hc
    rw [listing_invalidate] at hc
    split at hc
    · exact hw.2 _ c hc
    · exact hw.2 slot c hc
  addNode w path kind name s offer hw hmade := by
    rw [hw.1] at hmade
    have horigin : offer.Origin P owns layers :=
      (origin_createFrom h path kind name 0 layers (fun i => by rw [Nat.zero_add]) s trivial).2 _
        hmade offer rfl
    refine ⟨⟨hw.1, ?_⟩, ?_⟩
    · intro slot c hc
      rw [listing_addNode] at hc
      exact hw.2 slot c hc
    · rintro _ ⟨⟩
      exact horigin

omit h in
theorem Offer.Origin.addLayer {o : Offer E} (ho : o.Origin P owns layers) (layer : F) :
    o.Origin P owns (layers ++ [layer]) := by
  obtain ⟨⟨f, hf, hown⟩, hpath⟩ := ho
  exact ⟨⟨f, by rw [List.getElem?_append_left (List.getElem?_eq_some_iff.mp hf).1, hf], hown⟩,
    hpath⟩

/-- Wherever requests lead, the nodes that are held come from the layers. -/
theorem Reaches.origin {env : σ → σ → Prop} {allowed : σ × Overlay F E → Request F E → Prop}
    {s₀ : σ} {policy : Policy} {fold : Bool} {held : List (Node E)} {w : σ × Overlay F E}
    (hr : Reaches P env allowed [.root] (s₀, { layers := layers, policy := policy, fold := fold })
      held w) :
    ∀ node ∈ held, ∀ o ∈ node.offer?, o.Origin P owns w.2.layers := by
  suffices Owned P owns w.2.layers w ∧ ∀ node ∈ held, ∀ o ∈ node.offer?, o.Origin P owns w.2.layers
    from this.2
  induction hr with
  | start =>
      refine ⟨⟨rfl, fun slot c hc => ?_⟩, ?_⟩
      · have hempty : (({ layers := layers, policy := policy, fold := fold } : Overlay F E).listing
            slot).children = [] := by
          cases slot <;> rfl
        rw [hempty] at hc
        cases hc
      · intro node hn o ho
        rw [List.mem_singleton.mp hn] at ho
        cases ho
  | world _ _ ih => exact ih
  | request r _ hnode _ ih =>
      obtain ⟨howned, hheld⟩ := ih
      by_cases hadd : ∃ layer, r = .addLayer layer
      · obtain ⟨layer, rfl⟩ := hadd
        refine ⟨⟨rfl, fun slot c hc => (howned.2 slot c hc).addLayer layer⟩, ?_⟩
        intro node hn o ho
        rcases List.mem_append.mp hn with hn | hn
        · exact (hheld node hn o ho).addLayer layer
        · cases hn
      · have hstep := ensures_perform (invariant_owned h _) r
          (fun _ layer hr => absurd ⟨layer, hr⟩ hadd) fun m hm => hheld m (hnode m hm)
        obtain ⟨howned', hanswer⟩ := hstep _ howned
        rw [howned'.1]
        refine ⟨howned', ?_⟩
        intro node hn o ho
        rcases List.mem_append.mp hn with hn | hn
        · exact hheld node hn o ho
        · obtain ⟨a, ha, hm⟩ := mem_handed hn
          exact hanswer a ha node hm o ho

end

end Overlay

end Strata
