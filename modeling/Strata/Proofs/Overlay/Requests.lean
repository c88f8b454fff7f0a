/-
# `Strata.Proofs.Overlay.Requests` — all that can be asked of a union

A `Request` is one call on a union or on a node that the caller holds, and
`Reaches` says what any sequence of requests leads to, while the world below the
union may change in the meantime.  The caller holds the root and every node that
a request answered.

All requests are made of a few steps on the union: an `Invariant` that these steps
keep holds wherever requests lead (`ensures_perform`).  One of them is that the
settings of the union stay, and no slot goes away (`Reaches.steady`).
-/
import Strata.Overlay.Calls
import Strata.Proofs.Action
import Strata.Proofs.Overlay.Cache

namespace Strata.Overlay

open Strata.Action

variable {σ F E S α β : Type}

/-- What a request answers. -/
inductive Answer (α : Type) where
  | place (found : Option α)
  | places (all : List α)
  | number (n : Nat)
  | flag (b : Bool)
  | done

namespace Answer

/-- The answer with its nodes replaced. -/
def map (f : α → β) : Answer α → Answer β
  | .place found => .place (found.map f)
  | .places all => .places (all.map f)
  | .number n => .number n
  | .flag b => .flag b
  | .done => .done

/-- The nodes that the caller gets. -/
def nodes : Answer α → List α
  | .place found => found.toList
  | .places all => all
  | _ => []

end Answer

/-- What can be asked of a node. -/
inductive Ask where
  | child (name : String)
  | children
  | count
  | populate (depth : Nat)
  | refresh
  | invalidate
  | openStream (mode : OpenMode)
  | delete (name : String)
  | create (kind : Kind) (name : String)
  | rename (target : String)

/-- What can be asked of a union. -/
inductive Request (F E : Type) where
  | entry (path : String)
  | ask (node : Node E) (what : Ask)
  | addLayer (layer : F)

/-- Asks a node. -/
def Ask.perform (P : Provider σ F E S) (node : Node E) : Ask → Call σ F E (Answer (Node E))
  | .child name => .place <$> Overlay.child P node name
  | .children => .places <$> Overlay.children P node
  | .count => .number <$> Overlay.count P node
  | .populate depth => (fun _ => .done) <$> Overlay.populate P depth node
  | .refresh => (fun _ => .done) <$> Overlay.refresh P node
  | .invalidate => (fun _ => .done) <$> invalidateNode node
  | .openStream mode => (fun _ => .done) <$> Overlay.openStream P node mode
  | .delete name => .flag <$> Overlay.delete P node name
  | .create kind name => (fun n => .place (some n)) <$> Overlay.create P node kind name
  | .rename target => (fun _ => .done) <$> Overlay.rename P node target

namespace Request

/-- The node that is asked. -/
def node? : Request F E → Option (Node E)
  | .ask node _ => some node
  | _ => none

/-- Asks a union. -/
def perform (P : Provider σ F E S) : Request F E → Call σ F E (Answer (Node E))
  | .entry path => .place <$> Overlay.entry P path
  | .ask node what => what.perform P node
  | .addLayer layer => (fun _ => .done) <$> update (·.addLayer layer)

end Request

/-- The nodes that an answer hands out, if there is one. -/
def handed (r : Except Failure (Answer (Node E))) : List (Node E) :=
  match r with
  | .ok a => a.nodes
  | .error _ => []

/-- Where requests lead from a world in which these nodes are held: the nodes that are held then,
and the world.  In between the world below the union may change as `env` says. -/
inductive Reaches (P : Provider σ F E S) (env : σ → σ → Prop)
    (allowed : σ × Overlay F E → Request F E → Prop)
    (held : List (Node E)) (w : σ × Overlay F E) : List (Node E) → σ × Overlay F E → Prop
  | start : Reaches P env allowed held w held w
  | world {held' : List (Node E)} {w' : σ × Overlay F E} {s : σ} :
      Reaches P env allowed held w held' w' → env w'.1 s →
      Reaches P env allowed held w held' (s, w'.2)
  | request {held' : List (Node E)} {w' : σ × Overlay F E} (r : Request F E) :
      Reaches P env allowed held w held' w' → (∀ node ∈ r.node?, node ∈ held') → allowed w' r →
      Reaches P env allowed held w (held' ++ handed ((r.perform P).exec w').1)
        ((r.perform P).exec w').2

theorem Reaches.mono {P : Provider σ F E S} {env env' : σ → σ → Prop}
    {allowed allowed' : σ × Overlay F E → Request F E → Prop} {held held' : List (Node E)}
    {w w' : σ × Overlay F E} (henv : ∀ s s', env s s' → env' s s')
    (hall : ∀ w r, allowed w r → allowed' w r) (h : Reaches P env allowed held w held' w') :
    Reaches P env' allowed' held w held' w' := by
  induction h with
  | start => exact .start
  | world _ hs ih => exact ih.world (henv _ _ hs)
  | request r _ hr ha ih => exact ih.request r hr (hall _ r ha)

section
variable {P : Provider σ F E S} {env : σ → σ → Prop}
  {allowed : σ × Overlay F E → Request F E → Prop} {held held' held'' : List (Node E)}
  {w w' w'' : σ × Overlay F E}

theorem Reaches.trans (h : Reaches P env allowed held w held' w')
    (h' : Reaches P env allowed held' w' held'' w'') : Reaches P env allowed held w held'' w'' := by
  induction h' with
  | start => exact h
  | world _ hs ih => exact ih.world hs
  | request r _ hr ha ih => exact ih.request r hr ha

/-- What is held stays held. -/
theorem Reaches.held_subset (h : Reaches P env allowed held w held' w') : held ⊆ held' := by
  induction h with
  | start => exact List.Subset.refl _
  | world _ _ ih => exact ih
  | request _ _ _ _ ih => exact List.subset_append_of_subset_left _ ih

end

/-! ## What every request keeps -/

/-- What holds of a world with a union, and of the nodes of the union, however the union is used:
the steps that requests are made of keep it. -/
structure Invariant (P : Provider σ F E S) (I : σ × Overlay F E → Prop) (Q : Node E → Prop) :
    Prop where
  root : Q .root
  world : ∀ s w, I w → I (s, w.2)
  listed : ∀ w slot c, I w → c ∈ (w.2.listing slot).children → Q (.entry c.2)
  install : ∀ w slot path s table, I w →
    ((merge P w.2.fold w.2.layers path).exec s).1 = .ok table → I (w.1, w.2.install slot table)
  invalidate : ∀ w slot, I w → I (w.1, w.2.invalidate slot)
  addNode : ∀ w path kind name s offer, I w →
    ((createFrom P path kind name 0 w.2.layers).exec s).1 = .ok (some offer) →
    I (w.1, (w.2.addNode offer).2) ∧ Q (w.2.addNode offer).1

/-- What holds of a world with a union, and of the nodes of the union, however names are looked up
in it and directories listed: to compute a listing keeps it. -/
structure Observed (P : Provider σ F E S) (I : σ × Overlay F E → Prop) (Q : Node E → Prop) :
    Prop where
  root : Q .root
  listed : ∀ w slot c, I w → c ∈ (w.2.listing slot).children → Q (.entry c.2)
  scan : ∀ node, Ensures I (scan P node) fun _ => True

section
variable {P : Provider σ F E S} {I : σ × Overlay F E → Prop} {Q : Node E → Prop}

theorem ensures_current : Ensures I (current : Call σ F E _) fun o => ∃ s, I (s, o) := by
  intro w hw
  refine ⟨hw, ?_⟩
  rintro _ ⟨⟩
  exact ⟨w.1, hw⟩

theorem ensures_requireLive (node : Node E) :
    Ensures I (requireLive node : Call σ F E Unit) fun _ => True :=
  ensures_current.bind fun _ _ => .ite (.throw _) (.pure trivial)

theorem ensures_requireDirectory (node : Node E) :
    Ensures I (requireDirectory P node) fun _ => True :=
  Ensures.get.bind fun _ _ => .ite (.pure trivial) (.throw _)

theorem ensures_require (node : Node E) (ops : Operations) (what : String) :
    Ensures I (require P ops what node) fun _ => True :=
  Ensures.get.bind fun _ _ => .ite (.pure trivial) (.throw _)

section
variable (h : Observed P I Q) (node : Node E)
include h

theorem ensures_listed : Ensures I (listed P node) fun cs => ∀ c ∈ cs, Q (.entry c.2) := by
  have answer : Ensures I (do return ((← current).listing node.slot).children : Call σ F E _)
      fun cs => ∀ c ∈ cs, Q (.entry c.2) := by
    refine ensures_current.bind ?_
    rintro o ⟨s, ho⟩
    exact .pure fun c hc => h.listed (s, o) node.slot c ho hc
  refine ensures_current.bind ?_
  intro o _
  split
  · exact (h.scan node).bind fun _ _ => answer
  · exact answer

theorem ensures_listedChild (name : String) :
    Ensures I (listedChild P node name) fun r => ∀ m ∈ r, Q m := by
  refine (ensures_listed h node).bind ?_
  intro cs hcs
  refine .pure ?_
  intro m hm
  obtain ⟨c, hc, rfl⟩ := Option.map_eq_some_iff.mp hm
  exact hcs _ (mem_of_lookup hc)

theorem ensures_descend (cs : List String) (hnode : Q node) :
    Ensures I (descend P node cs) fun r => ∀ m ∈ r, Q m := by
  induction cs generalizing node with
  | nil => exact .pure fun m hm => Option.some.inj hm ▸ hnode
  | cons c cs ih =>
      refine (ensures_requireDirectory node).bind fun _ _ => (ensures_listedChild h node c).bind ?_
      intro next hnext
      cases next with
      | none => exact .pure fun m hm => (by cases hm)
      | some next => exact ih next (hnext next rfl)

theorem ensures_lookup (path : String) (hnode : Q node) :
    Ensures I (lookup P node path) fun r => ∀ m ∈ r, Q m := by
  refine (ensures_requireLive node).bind fun _ _ => (ensures_requireDirectory node).bind ?_
  intro _ _
  split
  · exact .pure fun m hm => (by cases hm)
  · exact ensures_descend h node _ hnode

theorem ensures_entry (path : String) : Ensures I (entry P path) fun r => ∀ m ∈ r, Q m :=
  ensures_current.bind fun _ _ =>
    .ite (.pure fun _ hm => Option.some.inj hm ▸ h.root) (ensures_lookup h _ _ h.root)

theorem ensures_child (name : String) (hnode : Q node) :
    Ensures I (child P node name) fun r => ∀ m ∈ r, Q m :=
  (ensures_requireLive node).bind fun _ _ => (ensures_requireDirectory node).bind fun _ _ =>
    ensures_current.bind fun _ _ =>
      .ite (.pure fun _ hm => (by cases hm)) (ensures_lookup h node _ hnode)

theorem ensures_children : Ensures I (children P node) fun ms => ∀ m ∈ ms, Q m := by
  refine (ensures_requireLive node).bind fun _ _ => (ensures_require node _ _).bind fun _ _ =>
    (ensures_requireDirectory node).bind fun _ _ => (ensures_listed h node).bind ?_
  intro cs hcs
  refine .pure ?_
  intro m hm
  obtain ⟨c, hc, rfl⟩ := List.mem_map.mp hm
  exact hcs c hc

omit h in
theorem ensures_forM (cs : List α) {f : α → Call σ F E PUnit}
    (hf : ∀ c, Ensures I (f c) fun _ => True) : Ensures I (cs.forM f) fun _ => True := by
  induction cs with
  | nil => exact .pure trivial
  | cons c cs ih =>
      rw [List.forM_eq_forM, List.forM_cons]
      exact (hf c).bind fun _ _ => ih

theorem ensures_populate (depth : Nat) : Ensures I (populate P depth node) fun _ => True := by
  induction depth generalizing node with
  | zero => exact .pure trivial
  | succ depth ih =>
      refine (ensures_requireLive node).bind fun _ _ => (h.scan node).bind fun _ _ =>
        ensures_current.bind fun _ _ => ensures_forM _ ?_
      intro c
      exact Ensures.get.bind fun _ _ => .ite (ih _) (.pure trivial)

end

variable (h : Invariant P I Q) (node : Node E)
include h

theorem ensures_below (x : Action σ α) : Ensures I (below x : Call σ F E α) fun _ => True :=
  fun w hw => ⟨h.world _ w hw, fun _ _ => trivial⟩

theorem ensures_invalidateNode : Ensures I (invalidateNode node : Call σ F E Unit) fun _ => True :=
  fun w hw => ⟨h.invalidate w node.slot hw, fun _ _ => trivial⟩

theorem ensures_noteChange : Ensures I (noteChange node : Call σ F E Unit) fun _ => True :=
  ensures_current.bind fun _ _ => .ite (ensures_invalidateNode h node) (.pure trivial)

theorem ensures_scan : Ensures I (scan P node) fun _ => True := by
  intro w hw
  refine ⟨?_, fun _ _ => trivial⟩
  rcases hmerge : (merge P w.2.fold w.2.layers node.path).exec w.1 with ⟨_ | table, s⟩
  · simpa [scan, below, current, update, hmerge] using h.world s w hw
  · have hinstall := h.install w node.slot node.path w.1 table hw (by rw [hmerge])
    simpa [scan, below, current, update, hmerge] using h.world s _ hinstall

theorem Invariant.observed : Observed P I Q := ⟨h.root, h.listed, ensures_scan h⟩

theorem ensures_refresh : Ensures I (refresh P node) fun _ => True :=
  (ensures_requireLive node).bind fun _ _ => ensures_scan h node

theorem ensures_openStream (mode : OpenMode) :
    Ensures I (openStream P node mode) fun _ => True := by
  refine (ensures_requireLive node).bind fun _ _ => Ensures.get.bind fun w _ =>
    (Ensures.ofExcept _).bind fun required _ =>
      .ite ?_ ((Ensures.throw _).bind fun _ (_ : True) => ?_)
  all_goals cases node.source?
  all_goals
    refine Ensures.bind (Q := fun _ => True) ?_ ?_
    · first
      | exact .pure trivial
      | exact (ensures_below h _).attempt.mono fun _ _ => trivial
    · intro own _
      cases own with
      | ok stream => exact .pure trivial
      | error e =>
          refine (ensures_below h _).bind ?_
          intro found _
          cases found with
          | none => exact .throw _
          | some stream => exact .pure trivial

theorem ensures_spelling (name : String) : Ensures I (spelling P node name) fun _ => True := by
  refine ensures_current.bind fun o _ => .ite ((ensures_listedChild h.observed node name).bind ?_)
    (.pure trivial)
  intro c _
  cases c with
  | none => exact .pure trivial
  | some c => exact .pure trivial

theorem ensures_deleteWithin (depth : Nat) (name : String) :
    Ensures I (deleteWithin P depth node name) fun _ => True := by
  induction depth generalizing node name with
  | zero => exact .pure trivial
  | succ depth ih =>
      refine (ensures_requireLive node).bind fun _ _ => (ensures_require node _ _).bind fun _ _ =>
        (ensures_requireDirectory node).bind fun _ _ => ensures_current.bind fun _ _ =>
          .ite (.pure trivial) ?_
      split
      · refine (ensures_listedChild h.observed node _).bind ?_
        intro c _
        cases c with
        | none => exact .pure trivial
        | some c => exact ih c _
      · exact (ensures_spelling h node _).bind fun _ _ => ensures_current.bind fun _ _ =>
          (ensures_below h _).bind fun _ _ => .ite
            ((ensures_noteChange h node).bind fun _ _ => .pure trivial) (.pure trivial)

/-- Making an entry in the layers and adding a node for it. -/
theorem ensures_made (path : String) (kind : Kind) (name place : String) :
    Ensures I (do
      match ← below (createFrom P path kind name 0 (← current).layers) with
      | some offer =>
        noteChange node
        let (s, o) ← get
        let (made, o) := o.addNode offer
        set (s, o)
        return made
      | none => throw (.backend place) : Call σ F E (Node E)) Q := by
  intro w hw
  rcases hmade : (createFrom P path kind name 0 w.2.layers).exec w.1 with ⟨_ | _ | offer, s⟩
  · simpa [current, below, hmade] using h.world s w hw
  · simpa [current, below, hmade] using h.world s w hw
  · -- the union may have marked a listing as dirty before the node is added
    have hnoted : ∃ o, (noteChange node).exec (s, w.2) = (.ok (), (s, o)) ∧ I (s, o) ∧
        o.layers = w.2.layers := by
      by_cases hp : w.2.policy = .eager
      · refine ⟨w.2.invalidate node.slot, ?_, h.invalidate (s, w.2) _ (h.world s w hw), rfl⟩
        simp [noteChange, current, invalidateNode, update, hp]
      · refine ⟨w.2, ?_, h.world s w hw, rfl⟩
        simp [noteChange, current, hp]
    obtain ⟨o, hexec, ho, hlayers⟩ := hnoted
    have hadd := h.addNode (s, o) path kind name w.1 offer ho (by rw [hlayers, hmade])
    simp only [exec_bind, current, exec_look, below, exec_zoom, hmade, hexec, exec_get, exec_set,
      exec_pure]
    exact ⟨hadd.1, fun a ha => Except.ok.inj ha ▸ hadd.2⟩

theorem ensures_create (kind : Kind) (name : String) : Ensures I (create P node kind name) Q := by
  refine (ensures_requireLive node).bind fun _ _ => (ensures_require node _ _).bind fun _ _ =>
    .ite ?_ ((Ensures.throw _).bind fun _ (_ : True) => ?_)
  all_goals
    refine (ensures_requireDirectory node).bind fun _ _ =>
      .ite ((Ensures.throw _).bind fun _ (_ : True) => ?_) ?_
    all_goals exact ensures_made h node _ _ _ _

theorem ensures_rename (target : String) : Ensures I (rename P node target) fun _ => True := by
  unfold rename
  cases node.source? with
  | none => exact .throw _
  | some e =>
      refine (ensures_requireLive node).bind fun _ _ => (ensures_below h _).bind ?_
      intro _ _
      cases Path.parent? node.path with
      | none => exact ensures_invalidateNode h .root
      | some parent =>
          refine ensures_current.bind fun o _ =>
            (ensures_lookup h.observed .root _ h.root).attempt.bind ?_
          intro r _
          split
          · exact ensures_invalidateNode h _
          · exact ensures_invalidateNode h .root

theorem ensures_ask (what : Ask) (hnode : Q node) :
    Ensures I (what.perform P node) fun a => ∀ m ∈ a.nodes, Q m := by
  have silent {a : Answer (Node E)} (ha : a.nodes = []) : ∀ m ∈ a.nodes, Q m := by
    simp [ha]
  cases what with
  | child name =>
      exact (ensures_child h.observed node name hnode).map fun r hr m hm => hr m (Option.mem_toList.mp hm)
  | children => exact (ensures_children h.observed node).map fun _ hr => hr
  | count =>
      refine Ensures.map (Q := fun _ => True) ?_ fun _ _ => silent rfl
      exact (ensures_children h.observed node).bind fun _ _ => .pure trivial
  | populate depth => exact (ensures_populate h.observed node depth).map fun _ _ => silent rfl
  | refresh => exact (ensures_refresh h node).map fun _ _ => silent rfl
  | invalidate => exact (ensures_invalidateNode h node).map fun _ _ => silent rfl
  | openStream mode => exact (ensures_openStream h node mode).map fun _ _ => silent rfl
  | delete name => exact (ensures_deleteWithin h node _ name).map fun _ _ => silent rfl
  | create kind name =>
      refine (ensures_create h node kind name).map ?_
      intro m hm m' hm'
      exact List.mem_singleton.mp hm' ▸ hm
  | rename target => exact (ensures_rename h node target).map fun _ _ => silent rfl

/-- A request keeps what holds of the union, and answers nodes of which it holds.  A new layer has
to be looked at for itself. -/
theorem ensures_perform (r : Request F E)
    (hlayer : ∀ w layer, r = .addLayer layer → I w → I (w.1, w.2.addLayer layer))
    (hr : ∀ m ∈ r.node?, Q m) : Ensures I (r.perform P) fun a => ∀ m ∈ a.nodes, Q m := by
  cases r with
  | entry path =>
      exact (ensures_entry h.observed path).map fun r hr m hm => hr m (Option.mem_toList.mp hm)
  | ask node what => exact ensures_ask h node what (hr node rfl)
  | addLayer layer =>
      intro w hw
      refine ⟨hlayer w layer rfl hw, ?_⟩
      rintro _ ⟨⟩
      simp [Answer.nodes]

omit h in
theorem mem_handed {r : Except Failure (Answer (Node E))} {m : Node E} (hm : m ∈ handed r) :
    ∃ a, r = .ok a ∧ m ∈ a.nodes := by
  cases r with
  | error e => cases hm
  | ok a => exact ⟨a, rfl, hm⟩

end

/-! ## What no request changes -/

/-- The settings of a union stay, and no slot goes away. -/
structure Steady (o o' : Overlay F E) : Prop where
  fold : o'.fold = o.fold
  policy : o'.policy = o.policy
  released : o'.released = o.released
  size : o.listings.size ≤ o'.listings.size

theorem Steady.refl (o : Overlay F E) : Steady o o := ⟨rfl, rfl, rfl, Nat.le_refl _⟩

theorem Steady.trans {o o' o'' : Overlay F E} (h : Steady o o') (h' : Steady o' o'') :
    Steady o o'' :=
  ⟨h'.fold.trans h.fold, h'.policy.trans h.policy, h'.released.trans h.released,
    Nat.le_trans h.size h'.size⟩

theorem invariant_steady (P : Provider σ F E S) (o : Overlay F E) :
    Invariant P (fun w => Steady o w.2) fun _ => True where
  root := trivial
  world _ _ h := h
  listed _ _ _ _ _ := trivial
  install w slot _ _ table h _ := h.trans ⟨rfl, rfl, rfl, by simp⟩
  invalidate w slot h := h.trans ⟨rfl, rfl, rfl, by simp⟩
  addNode w _ _ _ _ offer h _ := ⟨h.trans ⟨rfl, rfl, rfl, by simp⟩, trivial⟩

/-- No sequence of requests changes the settings of a union or takes a slot away. -/
theorem Reaches.steady {P : Provider σ F E S} {env : σ → σ → Prop}
    {allowed : σ × Overlay F E → Request F E → Prop} {held held' : List (Node E)}
    {w w' : σ × Overlay F E} (h : Reaches P env allowed held w held' w') :
    Overlay.Steady w.2 w'.2 := by
  induction h with
  | start => exact .refl _
  | world _ _ ih => exact ih
  | request r _ _ _ ih =>
      have hstep := ensures_perform (invariant_steady P w.2) r
        (fun _ _ _ hw => hw.trans ⟨rfl, rfl, rfl, Nat.le_refl _⟩) fun _ _ => trivial
      exact (hstep _ ih).1

end Strata.Overlay
