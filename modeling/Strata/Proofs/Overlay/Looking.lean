/-
# `Strata.Proofs.Overlay.Looking` — looking around when any layer may fail

A layer may fail in the middle of a scan, of a walk or of a deep scan that has
already replaced the listings above.  Whatever of it succeeds, a call that looks
around is one more part of the course of the union, and the nodes that it answers
are nodes of its history (`Advances`): this holds of the few steps that such
calls are made of, and is handed on from step to call and from call to request.
So wherever requests lead, no listing is a partial one (`clean_listing_whole`).
-/
import Strata.Proofs.Overlay.History
import Strata.Proofs.Overlay.Readings

namespace Strata.Overlay

open Strata.Action

variable {σ F E S α β : Type} {P : Provider σ F E S}

/-! ## Calls that look around -/

/-- Whatever becomes of a union of which these nodes are known, the call is one more part of its
course, and the nodes that it answers are known then. -/
def Advances (P : Provider σ F E S) (env : σ → σ → Prop) (w₀ : σ × Overlay F E)
    (known : List (Node E)) (x : Call σ F E α) (nodes : α → List (Node E)) : Prop :=
  ∀ h w, Course P env w₀ h w → known ⊆ h.nodes →
    ∃ h', Course P env w₀ h' (x.exec w).2 ∧ h.nodes ⊆ h'.nodes ∧
      ∀ a, (x.exec w).1 = .ok a → nodes a ⊆ h'.nodes

section
variable {env : σ → σ → Prop} {w₀ : σ × Overlay F E} {known : List (Node E)} {x y : Call σ F E α}
  {nodes : α → List (Node E)} {f : α → Call σ F E β} {nodes' : β → List (Node E)} {node : Node E}

/-- A call that changes nothing, and answers nodes that are known. -/
theorem Advances.still (h : ∀ w, (x.exec w).2 = w)
    (ha : ∀ w a, (x.exec w).1 = .ok a → nodes a ⊆ known) : Advances P env w₀ known x nodes := by
  intro h₀ w hc hknown
  refine ⟨h₀, ?_, List.Subset.refl _, fun a hx => List.Subset.trans (ha w a hx) hknown⟩
  rw [h]
  exact hc

theorem Advances.pure {a : α} (h : nodes a ⊆ known) : Advances P env w₀ known (pure a) nodes :=
  .still (fun _ => rfl) fun _ _ hx => Except.ok.inj hx ▸ h

theorem Advances.throw (e : Failure) : Advances P env w₀ known (throw e) nodes :=
  .still (fun _ => rfl) fun _ _ hx => (by cases hx)

theorem Advances.bind (hx : Advances P env w₀ known x nodes)
    (hf : ∀ a, Advances P env w₀ (known ++ nodes a) (f a) nodes') :
    Advances P env w₀ known (x >>= f) nodes' := by
  intro h w hc hknown
  obtain ⟨h', hc', hsub, hanswer⟩ := hx h w hc hknown
  rw [exec_bind]
  rcases hexec : x.exec w with ⟨e | a, w'⟩
  · rw [hexec] at hc'
    exact ⟨h', hc', hsub, fun _ hb => (by cases hb)⟩
  · rw [hexec] at hc' hanswer
    have hknown' : known ++ nodes a ⊆ h'.nodes :=
      List.append_subset.mpr ⟨List.Subset.trans hknown hsub, hanswer a rfl⟩
    obtain ⟨h'', hc'', hsub', hanswer'⟩ := hf a h' w' hc' hknown'
    exact ⟨h'', hc'', List.Subset.trans hsub hsub', hanswer'⟩

/-- A step of which only the success matters. -/
theorem Advances.after (hx : Advances P env w₀ known x fun _ => [])
    (hf : ∀ a, Advances P env w₀ known (f a) nodes') :
    Advances P env w₀ known (x >>= f) nodes' := by
  refine hx.bind fun a => ?_
  rw [List.append_nil]
  exact hf a

theorem Advances.map (hx : Advances P env w₀ known x nodes) {g : α → β}
    (hg : ∀ a, nodes' (g a) ⊆ nodes a) : Advances P env w₀ known (g <$> x) nodes' := by
  rw [← bind_pure_comp]
  exact hx.bind fun a => .pure (List.Subset.trans (hg a) (List.subset_append_right _ _))

theorem Advances.ite {c : Prop} [Decidable c] (hx : Advances P env w₀ known x nodes)
    (hy : Advances P env w₀ known y nodes) :
    Advances P env w₀ known (if c then x else y) nodes := by
  split
  · exact hx
  · exact hy

theorem Advances.mono {known' : List (Node E)} (hx : Advances P env w₀ known x nodes)
    (hsub : known ⊆ known') : Advances P env w₀ known' x nodes :=
  fun h w hc hknown => hx h w hc (List.Subset.trans hsub hknown)

theorem advances_current :
    Advances P env w₀ known (current : Call σ F E (Overlay F E)) fun _ => [] :=
  .still (fun _ => rfl) fun _ _ _ => List.nil_subset _

theorem advances_get :
    Advances P env w₀ known (get : Call σ F E (σ × Overlay F E)) fun _ => [] :=
  .still (fun _ => rfl) fun _ _ _ => List.nil_subset _

theorem advances_requireLive :
    Advances P env w₀ known (requireLive node : Call σ F E Unit) fun _ => [] :=
  advances_current.after fun _ => .ite (.throw _) (.pure (List.nil_subset _))

theorem advances_requireDirectory :
    Advances P env w₀ known (requireDirectory P node) fun _ => [] :=
  advances_get.after fun _ => .ite (.pure (List.nil_subset _)) (.throw _)

theorem advances_require (ops : Operations) (what : String) :
    Advances P env w₀ known (require P ops what node) fun _ => [] :=
  advances_get.after fun _ => .ite (.pure (List.nil_subset _)) (.throw _)

theorem advances_invalidateNode (hnode : node ∈ known) :
    Advances P env w₀ known (invalidateNode node : Call σ F E Unit) fun _ => [] :=
  fun h _ hc hknown =>
    ⟨h, hc.invalidated (hknown hnode), List.Subset.refl _, fun _ _ => List.nil_subset _⟩

/-- A scan of a known node, refused or not, is a part of the course; what the listing holds after
it is known. -/
theorem Course.scan {h : History E} {w : σ × Overlay F E} (hc : Course P env w₀ h w)
    (hnode : node ∈ h.nodes) :
    ∃ h', Course P env w₀ h' ((scan P node).exec w).2 ∧ h.nodes ⊆ h'.nodes ∧
      (((scan P node).exec w).1 = .ok () →
        nodesOf (((scan P node).exec w).2.2.listing node.slot).children ⊆ h'.nodes) := by
  rcases hscan : (Overlay.scan P node).exec w with ⟨e | _, w'⟩
  · exact ⟨h, hc.refused hnode hscan, List.Subset.refl _, fun ha => (by cases ha)⟩
  · obtain ⟨answers, hanswers⟩ := answers_of_scan hscan
    exact ⟨_, hc.scanned hnode hscan hanswers, List.subset_append_left _ _,
      fun _ => List.subset_append_right _ _⟩

theorem advances_scan (hnode : node ∈ known) :
    Advances P env w₀ known (scan P node) fun _ => [] := by
  intro h w hc hknown
  obtain ⟨h', hc', hsub, -⟩ := hc.scan (hknown hnode)
  exact ⟨h', hc', hsub, fun _ _ => List.nil_subset _⟩

/-- A scan, and a look at the listing. -/
theorem advances_scanned (hnode : node ∈ known) :
    Advances P env w₀ known
      (do scan P node; return ((← current).listing node.slot).children : Call σ F E _) nodesOf := by
  intro h w hc hknown
  obtain ⟨h', hc', hsub, hchildren⟩ := hc.scan (hknown hnode)
  rcases hscan : (scan P node).exec w with ⟨e | _, w'⟩
  · rw [hscan] at hc'
    rw [exec_bind, hscan]
    exact ⟨h', hc', hsub, fun _ ha => (by cases ha)⟩
  · rw [hscan] at hc' hchildren
    rw [exec_bind, hscan]
    exact ⟨h', hc', hsub, fun a ha => Except.ok.inj ha ▸ hchildren rfl⟩

variable (hsize : 0 < w₀.2.listings.size) (hdirty : (w₀.2.listing 0).dirty = true)
include hsize hdirty

theorem advances_listed (hnode : node ∈ known) :
    Advances P env w₀ known (listed P node) nodesOf := by
  intro h w hc hknown
  cases hd : (w.2.listing node.slot).dirty with
  | true =>
      have heq : (listed P node).exec w = (do
          scan P node; return ((← current).listing node.slot).children : Call σ F E _).exec w := by
        simp [listed, current, hd]
      rw [heq]
      exact advances_scanned hnode h w hc hknown
  | false =>
      have heq : (listed P node).exec w = (.ok (w.2.listing node.slot).children, w) := by
        simp [listed, current, hd]
      rw [heq]
      refine ⟨h, hc, List.Subset.refl _, ?_⟩
      intro a ha
      obtain rfl := Except.ok.inj ha
      exact (hc.recorded hsize hdirty).known node (hknown hnode) hd

theorem advances_listedChild (name : String) (hnode : node ∈ known) :
    Advances P env w₀ known (listedChild P node name) Option.toList := by
  refine (advances_listed hsize hdirty hnode).bind fun children => .pure ?_
  refine List.subset_append_of_subset_right _ fun m hm => ?_
  obtain ⟨c, hc, rfl⟩ := Option.map_eq_some_iff.mp (Option.mem_toList.mp hm)
  exact List.mem_map.mpr ⟨(name, c), mem_of_lookup hc, rfl⟩

theorem advances_descend (cs : List String) (hnode : node ∈ known) :
    Advances P env w₀ known (descend P node cs) Option.toList := by
  induction cs generalizing node known with
  | nil => exact .pure fun m hm => List.mem_singleton.mp hm ▸ hnode
  | cons c cs ih =>
      refine advances_requireDirectory.after fun _ =>
        (advances_listedChild hsize hdirty c hnode).bind fun next => ?_
      cases next with
      | none => exact .pure (List.nil_subset _)
      | some next => exact ih (List.mem_append_right _ (List.mem_singleton_self next))

theorem advances_lookup (path : String) (hnode : node ∈ known) :
    Advances P env w₀ known (lookup P node path) Option.toList := by
  refine advances_requireLive.after fun _ => advances_requireDirectory.after fun _ => ?_
  cases Path.components path with
  | nil => exact .pure (List.nil_subset _)
  | cons c cs => exact advances_descend hsize hdirty (c :: cs) hnode

theorem advances_entry (path : String) (hroot : .root ∈ known) :
    Advances P env w₀ known (entry P path) Option.toList :=
  advances_current.after fun _ => .ite (.pure fun _ hm => List.mem_singleton.mp hm ▸ hroot)
    (advances_lookup hsize hdirty _ hroot)

theorem advances_child (name : String) (hnode : node ∈ known) :
    Advances P env w₀ known (child P node name) Option.toList :=
  advances_requireLive.after fun _ => advances_requireDirectory.after fun _ =>
    advances_current.after fun _ => .ite (.pure (List.nil_subset _))
      (advances_lookup hsize hdirty _ hnode)

theorem advances_children (hnode : node ∈ known) :
    Advances P env w₀ known (children P node) id :=
  advances_requireLive.after fun _ => (advances_require _ _).after fun _ =>
    advances_requireDirectory.after fun _ => (advances_listed hsize hdirty hnode).bind fun _ =>
      .pure (List.subset_append_right _ _)

omit hsize hdirty in
theorem advances_forM (cs : List α) {g : α → Call σ F E PUnit}
    (hg : ∀ c ∈ cs, Advances P env w₀ known (g c) fun _ => []) :
    Advances P env w₀ known (cs.forM g) fun _ => [] := by
  induction cs with
  | nil => exact .pure (List.nil_subset _)
  | cons c cs ih =>
      rw [List.forM_eq_forM, List.forM_cons]
      exact (hg c List.mem_cons_self).after fun _ =>
        ih fun d hd => hg d (List.mem_cons_of_mem _ hd)

omit hsize hdirty in
theorem advances_populate (depth : Nat) (hnode : node ∈ known) :
    Advances P env w₀ known (populate P depth node) fun _ => [] := by
  induction depth generalizing node known with
  | zero => exact .pure (List.nil_subset _)
  | succ depth ih =>
      have hbelow (children : List (String × Child E)) :
          Advances P env w₀ (known ++ nodesOf children) (children.forM fun c => do
            if (P.kind c.2.offer.source (← get).1).isDirectory then
              populate P depth (.entry c.2)) fun _ => [] := by
        refine advances_forM children fun c hc => advances_get.after fun _ => .ite (ih ?_)
          (.pure (List.nil_subset _))
        exact List.mem_append_right _ (List.mem_map.mpr ⟨c, hc, rfl⟩)
      have hrest := (advances_scanned hnode).bind hbelow
      simp only [bind_assoc, pure_bind] at hrest
      exact advances_requireLive.after fun _ => hrest

omit hsize hdirty in
theorem advances_refresh (hnode : node ∈ known) :
    Advances P env w₀ known (refresh P node) fun _ => [] :=
  advances_requireLive.after fun _ => advances_scan hnode

/-- What is asked of a node that only reads. -/
theorem advances_ask {what : Ask} (hwhat : what.isReading = true) (hnode : node ∈ known) :
    Advances P env w₀ known (what.perform P node) Answer.nodes := by
  cases what with
  | child name => exact (advances_child hsize hdirty name hnode).map fun _ => List.Subset.refl _
  | children => exact (advances_children hsize hdirty hnode).map fun _ => List.Subset.refl _
  | count =>
      have hcount : Advances P env w₀ known (count P node) fun _ => [] :=
        (advances_children hsize hdirty hnode).bind fun _ => .pure (List.nil_subset _)
      exact hcount.map fun _ => List.nil_subset _
  | populate depth => exact (advances_populate depth hnode).map fun _ => List.nil_subset _
  | refresh => exact (advances_refresh hnode).map fun _ => List.nil_subset _
  | invalidate => exact (advances_invalidateNode hnode).map fun _ => List.nil_subset _
  | _ => cases hwhat

end

/-! ## Requests that look around -/

/-- Whether the request changes no layer, nor which layers there are. -/
def Request.looks : Request F E → Bool
  | .entry _ => true
  | .ask _ what => what.isReading
  | .addLayer _ => false

section
variable {env : σ → σ → Prop} {w₀ w : σ × Overlay F E} {held : List (Node E)}

/-- Wherever requests that look around lead, there is a history that knows all nodes that are
held. -/
theorem Reaches.course
    (h : Reaches P env (fun _ r => r.looks = true) [.root] w₀ held w)
    (hsize : 0 < w₀.2.listings.size) (hdirty : (w₀.2.listing 0).dirty = true) :
    ∃ history, Course P env w₀ history w ∧ held ⊆ history.nodes := by
  induction h with
  | start => exact ⟨{}, .start, List.Subset.refl _⟩
  | world _ hs ih =>
      obtain ⟨h, hc, hheld⟩ := ih
      exact ⟨h, hc.world hs, hheld⟩
  | @request held w r _ hr hlooks ih =>
      obtain ⟨h, hc, hheld⟩ := ih
      -- the root is known to every history, and so is a node that is asked
      have hstep : Advances P env w₀ h.nodes (r.perform P) Answer.nodes := by
        cases r with
        | entry path =>
            exact (advances_entry hsize hdirty path hc.root_mem).map fun _ => List.Subset.refl _
        | ask node what => exact advances_ask hsize hdirty hlooks (hheld (hr node rfl))
        | addLayer layer => cases hlooks
      obtain ⟨h', hc', hsub, hanswer⟩ := hstep h w hc (List.Subset.refl _)
      refine ⟨h', hc', List.append_subset.mpr ⟨List.Subset.trans hheld hsub, fun m hm => ?_⟩⟩
      obtain ⟨a, ha, hma⟩ := mem_handed hm
      exact hanswer a ha hma

/-- Layers that may fail at any call: a scan that fails leaves the union as it was, and wherever
looking around leads, the listing of each node is dirty, or it is all that the layers answered in
the last scan of the node that did not fail, the first offer of each name. -/
theorem clean_listing_whole {layers : List F} {fold : Bool} {policy : Policy} {s₀ : σ}
    (h : Reaches P env (fun _ r => r.looks = true) [.root]
      (s₀, { layers := layers, fold := fold, policy := policy }) held w) :
    (∀ node w₁ w₂ e, (scan P node).exec w₁ = (.error e, w₂) → w₂.2 = w₁.2) ∧
    ∃ history, Course P env (s₀, { layers := layers, fold := fold, policy := policy }) history w ∧
      held ⊆ history.nodes ∧
      ∀ node ∈ history.nodes, (w.2.listing node.slot).dirty = false →
        nodesOf (w.2.listing node.slot).children ⊆ history.nodes ∧
        ∃ scan, history.last? node = some scan ∧ scan.node = node ∧
          (∃ s s', Answers P node.path 0 layers s scan.answers s') ∧
          (w.2.listing node.slot).offers = firstWins fold (offered P scan.answers) := by
  refine ⟨fun node w₁ w₂ e => scan_refused, ?_⟩
  obtain ⟨history, hc, hheld⟩ := h.course Nat.zero_lt_one rfl
  refine ⟨history, hc, hheld, ?_⟩
  intro node hnode hclean
  have hr := hc.recorded Nat.zero_lt_one rfl
  obtain ⟨scan, hlast, rfl, hoffers⟩ := hr.whole node hnode hclean
  rw [hc.settings.1] at hoffers
  exact ⟨hr.known _ hnode hclean, scan, hlast, rfl,
    hc.answered scan (List.mem_of_find?_eq_some hlast), hoffers⟩

/-- A store with a union that has one file, and refuses every call once it is gone. -/
def passing (gone : Bool) : Store where
  memories := #[{ tree := ⟨⟨[("", .directory .epoch), ("a", .file [] .epoch)]⟩⟩ }]
  overlays := #[{ layers := [.memory 0], released := gone }]

/-- A new union over that union, while it is there. -/
def passingUnion : Store × Overlay Filesystem Entry := (passing false, { layers := [.overlay 0] })

/-- A listing that was computed before its layer was gone is still whole when a scan is refused. -/
theorem clean_listing_whole_passing :
    ∃ held w, Reaches (Store.provider 2) (fun _ s' => s' = passing true)
        (fun _ r => r.looks = true) [.root] passingUnion held w ∧
      ((scan (Store.provider 2) .root).exec w).1.toOption = none ∧
      (w.2.listing 0).dirty = false ∧ (w.2.listing 0).offers.map (·.1) = ["a"] ∧
      ∃ history scan, Course (Store.provider 2) (fun _ s' => s' = passing true) passingUnion
          history w ∧
        history.last? .root = some scan ∧
        (w.2.listing 0).offers = firstWins false (offered (Store.provider 2) scan.answers) := by
  have hstart : Reaches (Store.provider 2) (fun _ s' => s' = passing true)
      (fun _ r => r.looks = true) [.root] passingUnion [.root] passingUnion := .start
  have hlisted := hstart.request (.ask .root .children)
    (fun node hn => Option.some.inj hn ▸ List.mem_singleton_self Node.root) rfl
  have hgone := hlisted.world (s := passing true) rfl
  have hrefused := hgone.request (.ask .root .refresh)
    (fun node hn => Option.some.inj hn ▸ List.mem_append_left _ (List.mem_singleton_self Node.root))
    rfl
  refine ⟨_, _, hrefused, by decide +kernel, by decide +kernel, by decide +kernel, ?_⟩
  obtain ⟨-, history, hc, -, hwhole⟩ := clean_listing_whole hrefused
  obtain ⟨-, scan, hlast, -, -, hoffers⟩ := hwhole .root hc.root_mem (by decide +kernel)
  exact ⟨history, scan, hc, hlast, hoffers⟩

end

end Strata.Overlay
