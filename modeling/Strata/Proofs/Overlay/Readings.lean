/-
# `Strata.Proofs.Overlay.Readings` — requests that only read

A request that reads changes no tree, answers by what the listings on its way
hold, and hands out nodes that clean listings lead to.  If those listings are
what the layers give together, then the answer is `expected`, in which no listing
occurs.
-/
import Strata.Proofs.Overlay.Populate
import Strata.Proofs.Overlay.Requests

namespace Strata.Overlay

open Strata.Action Strata.Path

variable {s : Store} {layers : List Filesystem} {label : Nat → String}
  {fits : String → List (String × Offer Entry) → Prop}
  {w : Store × Overlay Filesystem Entry} {node : Node Entry}

/-- Whether what is asked changes no layer. -/
def Ask.isReading : Ask → Bool
  | .child _ | .children | .count | .populate _ | .refresh | .invalidate => true
  | _ => false

/-- Whether what is asked leaves clean listings as they are. -/
def Ask.isGentle : Ask → Bool
  | .child _ | .children | .count => true
  | _ => false

namespace Request

/-- Whether the request changes no layer, nor which layers there are. -/
def isReading : Request Filesystem Entry → Bool
  | .entry _ => true
  | .ask _ what => what.isReading
  | .addLayer _ => false

/-- Whether the request changes no layer and leaves clean listings as they are. -/
def isGentle : Request Filesystem Entry → Bool
  | .entry _ => true
  | .ask _ what => what.isGentle
  | .addLayer _ => false

theorem isReading_of_isGentle (r : Request Filesystem Entry) (h : r.isGentle = true) :
    r.isReading = true := by
  cases r with
  | entry path => rfl
  | ask node what =>
      cases what with
      | child name => rfl
      | children => rfl
      | count => rfl
      | _ => cases h
  | addLayer f => cases h

end Request

/-- The answer to what is asked of a place, by the layers alone. -/
def Ask.expected (s : Store) (layers : List Filesystem) (path : String)
    (place : Option (Offer Entry)) : Ask → Except Failure (Answer (Option (Offer Entry)))
  | .child name => (foundBelow s layers path place name).map .place
  | .children => (contents s layers path place (merged s layers path)).map .places
  | .count => (contents s layers path place (merged s layers path)).map fun es =>
      .number es.length
  | _ => .ok .done

/-- The answer to a request, by the layers alone. -/
def Request.expected (s : Store) (layers : List Filesystem) :
    Request Filesystem Entry → Except Failure (Answer (Option (Offer Entry)))
  | .entry path => (found s layers path).map .place
  | .ask node what => what.expected s layers node.path node.offer?
  | .addLayer _ => .ok .done

/-- Clean listings lead from a node to another one.  So do the layers, if the listings are what
they give together. -/
def Leads (s : Store) (layers : List Filesystem)
    (fits : String → List (String × Offer Entry) → Prop) (o : Overlay Filesystem Entry)
    (node next : Node Entry) : Prop :=
  ∃ cs, o.cached node cs = some next ∧
    ((∀ d t, fits d t → AsMerged s layers d t) →
      follow s layers (components node.path) node.offer? cs = .ok (some next.offer?))

/-- What comes of asking a node what changes no layer. -/
structure Reading (s : Store) (layers : List Filesystem)
    (fits : String → List (String × Offer Entry) → Prop) (node : Node Entry) (what : Ask)
    (label : Nat → String) (w : Store × Overlay Filesystem Entry)
    (r : Except Failure (Answer (Node Entry))) (label' : Nat → String)
    (w' : Store × Overlay Filesystem Entry) : Prop where
  quiet : Quiet s layers label w label' w'
  keeps : what.isGentle = true → Keeps w.2 w'.2
  answer : (∀ d t, fits d t → AsMerged s layers d t) →
    r.map (·.map Node.offer?) = what.expected s layers node.path node.offer?
  leads : ∀ m ∈ handed r, Leads s layers fits w'.2 node m

theorem Reading.of_done {what : Ask} {label' : Nat → String}
    {w' : Store × Overlay Filesystem Entry} (hq : Quiet s layers label w label' w')
    (hgentle : what.isGentle = false)
    (hexpected : what.expected s layers node.path node.offer? = .ok .done) :
    Reading s layers fits node what label w (.ok .done) label' w' where
  quiet := hq
  keeps hg := by
    rw [hgentle] at hg
    cases hg
  answer _ := hexpected.symm
  leads := List.forall_mem_nil _

section
variable (hs : ∀ f ∈ layers, f.CleanTree s) (n : Nat)
include hs

omit n in
theorem guides_of_merged (hf : ∀ d t, fits d t → AsMerged s layers d t) {names : List String}
    (hn : ∀ m ∈ names, IsComponent m) : Guides s layers fits names :=
  fun pre x t hpre ht => guides_merged hs hn pre x t hpre (hf _ _ ht)

omit n in
/-- The entries in the listing of a directory. -/
theorem leads_listed {c : String} {m : Node Entry} (h : Holds layers label fits w.2 node)
    (hd : (kindAt s node.offer?).isDirectory = true) (hc : w.2.cached node [c] = some m) :
    Leads s layers fits w.2 node m := by
  refine ⟨[c], hc, ?_⟩
  intro hf
  obtain ⟨hclean, child, hl, hn⟩ := cached_cons.mp hc
  obtain rfl := Option.some.inj hn
  have hfits : (w.2.listing node.slot).offers = merged s layers node.path :=
    hf _ _ (h.sound.fits hclean)
  have hlook : ((w.2.listing node.slot).children.lookup c).map (·.offer)
      = provided s layers (ofNames (components node.path ++ [c])) := by
    rw [← lookup_offers, hfits]
    have hname := (h.sound.made hclean).isName _ _ (mem_offers_of_mem (mem_of_lookup hl))
    exact lookup_merged_below hs h.sound.path hname.1
  rw [follow, if_pos hd, ← hlook, hl]
  rfl

omit hs n in
theorem forall_handed_place {p : Node Entry → Prop} {r : Except Failure (Option (Node Entry))}
    (h : ∀ m, r = .ok (some m) → p m) : ∀ m ∈ handed (r.map .place), p m := by
  intro m hm
  rcases r with e | _ | x
  · exact absurd hm List.not_mem_nil
  · exact absurd hm List.not_mem_nil
  · obtain rfl := List.mem_singleton.mp hm
    exact h m rfl

omit hs n in
/-- A name leads from a node to what is found below it. -/
theorem foundBelow_of_ok {path name : String} {place next : Option (Offer Entry)}
    (h : foundBelow s layers path place name = .ok (some next)) :
    follow s layers (components path) place (components (normalize name false))
      = .ok (some next) := by
  rw [foundBelow] at h
  split at h
  · split at h
    · cases h
    · rename_i heq
      rw [heq]
      exact h
  · cases h

theorem exec_ask_child (hm : ∀ d, Path.Clean d → fits d (merged s layers d)) (name : String)
    (hw : Over s layers w) (h : Holds layers label fits w.2 node) :
    ∃ r label' w', ((Ask.child name).perform (Store.provider (n + 1)) node).exec w = (r, w') ∧
      Reading s layers fits node (.child name) label w r label' w' := by
  obtain ⟨r, label', w', he, hq, hk, hr, hcached⟩ := exec_child hs n hm name hw h
  have hr (hf : ∀ d t, fits d t → AsMerged s layers d t) := by
    refine hr (guides_of_merged hs hf ?_)
    intro m hm
    exact (List.mem_append.mp hm).elim isComponent_of_mem isComponent_of_mem
  refine ⟨_, label', w', exec_map_of_eq he _, hq, fun _ => hk, ?_, forall_handed_place ?_⟩
  · intro hf
    rw [Ask.expected, ← hr hf]
    cases r <;> rfl
  · rintro m rfl
    exact ⟨_, hcached m rfl, fun hf => foundBelow_of_ok (hr hf).symm⟩

theorem exec_ask_children (hm : ∀ d, Path.Clean d → fits d (merged s layers d))
    (hw : Over s layers w) (h : Holds layers label fits w.2 node) :
    ∃ r label' w', (Ask.children.perform (Store.provider (n + 1)) node).exec w = (r, w') ∧
      Reading s layers fits node .children label w r label' w' := by
  obtain ⟨r, label', w', he, hq, hk, ⟨table, ht, hr⟩, hlist⟩ := exec_children hs n hm hw h
  refine ⟨_, label', w', exec_map_of_eq he _, hq, fun _ => hk, ?_, ?_⟩
  · intro hf
    obtain rfl := hf _ _ ht
    rw [Ask.expected, ← hr]
    cases r <;> rfl
  · intro m hmem
    cases r with
    | error e => exact absurd hmem List.not_mem_nil
    | ok ms =>
        have hd : (kindAt s node.offer?).isDirectory = true := by
          rw [contents] at hr
          by_contra hd
          rw [if_neg hd] at hr
          split at hr <;> cases hr
        obtain ⟨c, hc⟩ := hlist ms rfl m hmem
        exact leads_listed hs (hq.holds _ _ hm h) hd hc

theorem exec_ask_count (hm : ∀ d, Path.Clean d → fits d (merged s layers d))
    (hw : Over s layers w) (h : Holds layers label fits w.2 node) :
    ∃ r label' w', (Ask.count.perform (Store.provider (n + 1)) node).exec w = (r, w') ∧
      Reading s layers fits node .count label w r label' w' := by
  obtain ⟨r, label', w', he, hq, hk, ⟨table, ht, hr⟩, -⟩ := exec_children hs n hm hw h
  refine ⟨r.map fun ms => .number ms.length, label', w', ?_, hq, fun _ => hk, ?_, ?_⟩
  · simp only [Ask.perform, count, exec_map, exec_bind, he]
    cases r <;> rfl
  · intro hf
    obtain rfl := hf _ _ ht
    rw [Ask.expected, ← hr]
    cases r with
    | error e => rfl
    | ok ms => simp [Except.map, Answer.map]
  · cases r <;> exact List.forall_mem_nil _

/-- Asking a node. -/
theorem exec_ask {what : Ask} (hr : what.isReading = true)
    (hm : ∀ d, Path.Clean d → fits d (merged s layers d)) (hw : Over s layers w)
    (h : Holds layers label fits w.2 node) :
    ∃ r label' w', (what.perform (Store.provider (n + 1)) node).exec w = (r, w') ∧
      Reading s layers fits node what label w r label' w' := by
  cases what with
  | child name => exact exec_ask_child hs n hm name hw h
  | children => exact exec_ask_children hs n hm hw h
  | count => exact exec_ask_count hs n hm hw h
  | populate depth =>
      obtain ⟨label', w', he, hp⟩ := exec_populate hs n hm depth hw h
      exact ⟨_, label', w', exec_map_of_eq he _, .of_done hp.quiet rfl rfl⟩
  | refresh =>
      obtain ⟨label', w', he, hq⟩ := exec_refresh hs n hw h.sound
      exact ⟨_, label', w', exec_map_of_eq he _, .of_done hq rfl rfl⟩
  | invalidate =>
      obtain ⟨w', he, hq⟩ := exec_invalidateNode hw node
      exact ⟨_, label, w', exec_map_of_eq he _, .of_done hq rfl rfl⟩
  | openStream mode => cases hr
  | delete name => cases hr
  | create kind name => cases hr
  | rename target => cases hr

/-- Asking a union, or a node that the caller holds. -/
theorem exec_request {r : Request Filesystem Entry} (hr : r.isReading = true)
    (hm : ∀ d, Path.Clean d → fits d (merged s layers d)) (hw : Over s layers w)
    (hroot : Holds layers label fits w.2 .root)
    (hnode : ∀ node ∈ r.node?, Holds layers label fits w.2 node) :
    ∃ res label' w', (r.perform (Store.provider (n + 1))).exec w = (res, w') ∧
      Quiet s layers label w label' w' ∧ (r.isGentle = true → Keeps w.2 w'.2) ∧
      ((∀ d t, fits d t → AsMerged s layers d t) →
        res.map (·.map Node.offer?) = r.expected s layers) ∧
      ∀ m ∈ handed res, Leads s layers fits w'.2 (r.node?.getD .root) m := by
  cases r with
  | entry path =>
      obtain ⟨r, label', w', he, hq, hk, hr, hcached⟩ := exec_entry hs n hm path hw hroot
      have hr (hf : ∀ d t, fits d t → AsMerged s layers d t) :=
        hr (guides_of_merged hs hf fun _ => isComponent_of_mem)
      refine ⟨_, label', w', exec_map_of_eq he _, hq, fun _ => hk, ?_, forall_handed_place ?_⟩
      · intro hf
        rw [Request.expected, ← hr hf]
        cases r <;> rfl
      · rintro m rfl
        exact ⟨_, hcached m rfl, fun hf => (hr hf).symm⟩
  | ask node what =>
      obtain ⟨res, label', w', he, h⟩ := exec_ask hs n hr hm hw (hnode node rfl)
      exact ⟨res, label', w', he, h.quiet, h.keeps, h.answer, h.leads⟩
  | addLayer layer => cases hr

end

end Strata.Overlay
