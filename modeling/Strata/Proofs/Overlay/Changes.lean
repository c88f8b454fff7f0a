/-
# `Strata.Proofs.Overlay.Changes` — the calls of a union that change its layers

Creating and deleting change the layers in one directory, where the first of the
names leads and below, and mark at most the listing of one node as dirty: the
node that was asked, or the one that a deletion with several names walks to.
Moving changes them below the entry and below the first part of the target that
was missing, and marks the directory that the entry was in, where the root still
leads there.  A call that fails changes no tree.
-/
import Strata.Proofs.Overlay.Faithful

namespace Strata.Overlay

open Strata.Action Strata.Path

variable {s : Store} {layers : List Filesystem} {label : Nat → String}
  {w : Store × Overlay Filesystem Entry} {node : Node Entry}

theorem exec_consult {σ α : Type} (x : Action σ α) (t : σ) :
    (consult x).exec t = match x.exec t with
      | (.ok a, t) => (.ok (some a), t)
      | (.error e, t) => (if e.isMisuse then .error e else .ok none, t) := by
  rw [consult]
  simp only [exec_bind, exec_attempt]
  rcases x.exec t with ⟨e | a, t⟩
  · by_cases h : e.isMisuse = true <;> simp [h]
  · rfl

section
variable (n : Nat) (hs : ∀ f ∈ layers, f.CleanTree s) {path : String} (hp : Path.Clean path)
  {name : String} (hname : ∀ n ∈ components (normalize name false), IsName n)
include hs hp hname

/-! ## Creating -/

theorem exec_createInLayer (kind : Kind) {f : Filesystem} (hf : f.CleanTree s) :
    ∃ r s', (createInLayer (Store.provider (n + 1)) path kind name f).exec s = (r, s') ∧
      (∀ e, r = .error e → s' = s) ∧ (r = .ok none → s' = s) ∧
      ∀ e, r = .ok (some e) →
        e = f.entryAt (ofNames (components path ++ components (normalize name false))) ∧
        s.Shift s' layers
          (Memory.Through (components path) (components (normalize name false))) := by
  rw [createInLayer]
  simp only [exec_bind, f.exec_resolveDirectory n hf hp]
  by_cases hd : (f.outline s).kind path = .directory
  · obtain ⟨r, s', he, herr, hok⟩ := f.exec_create n hs hf hp kind hname
    simp only [if_pos hd, exec_bind, he]
    cases r with
    | error e => exact ⟨_, s', rfl, fun _ _ => herr e rfl, by simp, by simp⟩
    | ok e =>
        refine ⟨_, s', rfl, by simp, by simp, fun e' he' => ?_⟩
        obtain rfl := Option.some.inj (Except.ok.inj he')
        exact hok e rfl
  · simp only [if_neg hd]
    exact ⟨_, s, rfl, fun _ _ => rfl, fun _ => rfl, by simp⟩

omit hs hp hname in
/-- What came of making an entry in a directory: nothing has changed, or a layer has it, and the
layers differ where its first name leads, and below. -/
structure Created (layers : List Filesystem) (top names : List String) (s : Store)
    (r : Except Failure (Option (Offer Entry))) (s' : Store) : Prop where
  failed : ∀ e, r = .error e → s' = s
  passed : r = .ok none → s' = s
  made : ∀ offer, r = .ok (some offer) → Path.Clean offer.path ∧
    (∃ f, layers[offer.layer]? = some f ∧ offer.source = f.entryAt offer.path) ∧
    s.Shift s' layers (Memory.Through top names)

/-- The first layer that can makes the entry. -/
theorem created_createFrom (kind : Kind) (layer : Nat) (rest : List Filesystem)
    (hrest : rest = layers.drop layer) :
    Created layers (components path) (components (normalize name false)) s
      ((createFrom (Store.provider (n + 1)) path kind name layer rest).exec s).1
      ((createFrom (Store.provider (n + 1)) path kind name layer rest).exec s).2 := by
  induction rest generalizing layer with
  | nil => exact ⟨fun _ h => (by cases h), fun _ => rfl, fun _ h => (by cases h)⟩
  | cons f rest ih =>
      have hat : layers[layer]? = some f := by
        rw [← List.head?_drop, ← hrest, List.head?_cons]
      have hf := hs f (List.mem_of_getElem? hat)
      have hnext := ih (layer + 1) (by rw [← List.tail_drop, ← hrest, List.tail_cons])
      have hops : (Store.provider (n + 1)).operations f s = f.allows s := hf.operations _
      rw [createFrom]
      simp only [exec_bind, exec_get, hops]
      by_cases hcan : (f.allows s).covers (.only .create) = true
      swap
      · simp only [if_neg hcan]
        exact hnext
      obtain ⟨r, s', he, herr, hnone, hsome⟩ := exec_createInLayer n hs hp hname kind hf
      simp only [if_pos hcan, exec_bind, exec_consult, he]
      rcases r with e | _ | e
      · obtain rfl := herr e rfl
        by_cases hmis : e.isMisuse = true
        · simp only [if_pos hmis]
          exact ⟨fun _ _ => rfl, by simp, by simp⟩
        · simp only [if_neg hmis]
          exact hnext
      · obtain rfl := hnone rfl
        exact hnext
      · obtain ⟨rfl, hshift⟩ := hsome e rfl
        refine ⟨by simp, by simp, fun offer ho => ?_⟩
        obtain rfl := Option.some.inj (Except.ok.inj ho)
        have hcn : ∀ m ∈ components path ++ components (normalize name false), IsName m :=
          fun m hm => (List.mem_append.mp hm).elim hp.isName (hname m)
        have hpath (p : String) : (Store.provider (n + 1)).path (f.entryAt p) = p :=
          hf.path_entryAt p
        simp only [hpath, normalize_ofNames hcn]
        exact ⟨clean_ofNames hcn, ⟨f, hat, rfl⟩, hshift⟩

/-! ## Deleting -/

theorem exec_deleteInLayer {f : Filesystem} (hf : f.CleanTree s)
    (hcan : (f.allows s).covers (.only .delete) = true) :
    ∃ b s', (deleteInLayer (Store.provider (n + 1)) path name f).exec s = (.ok b, s') ∧
      (b = false → s' = s) ∧
      s.Shift s' layers (Memory.Through (components path) (components (normalize name false))) := by
  rw [deleteInLayer]
  simp only [exec_bind, f.exec_resolveDirectory n hf hp]
  by_cases hd : (f.outline s).kind path = .directory
  · obtain ⟨r, s', he, -, hok, hgoes⟩ := f.exec_delete n hs hf hp hname
    obtain ⟨b, rfl⟩ := hgoes hcan hd
    simp only [if_pos hd, he]
    exact ⟨b, s', rfl, hok b rfl⟩
  · simp only [if_neg hd]
    exact ⟨false, s, rfl, fun _ => rfl, .refl hs _⟩

/-- Deleting in all layers that can, which never fails. -/
theorem exec_deleteInLayers (rest : List Filesystem) (hrest : ∀ f ∈ rest, f ∈ layers)
    (deleted : Bool) :
    ∃ b s', (deleteInLayers (Store.provider (n + 1)) path name rest deleted).exec s = (.ok b, s') ∧
      (b = false → deleted = false ∧ s' = s) ∧
      s.Shift s' layers (Memory.Through (components path) (components (normalize name false))) := by
  induction rest generalizing s deleted with
  | nil => exact ⟨deleted, s, rfl, fun hb => ⟨hb, rfl⟩, .refl hs _⟩
  | cons f rest ih =>
      have hf := hs f (hrest f (by simp))
      have hrest := fun g hg => hrest g (List.mem_cons_of_mem _ hg)
      have hops : (Store.provider (n + 1)).operations f s = f.allows s := hf.operations _
      rw [deleteInLayers]
      simp only [exec_bind, exec_get, hops]
      by_cases hcan : (f.allows s).covers (.only .delete) = true
      · obtain ⟨b, s₁, he₁, hb₁, hshift₁⟩ := exec_deleteInLayer n hs hp hname hf hcan
        obtain ⟨b', s₂, he₂, hb₂, hshift₂⟩ := ih hshift₁.clean hrest (deleted || b)
        simp only [if_pos hcan, exec_bind, exec_consult, he₁, Option.getD_some]
        refine ⟨b', s₂, he₂, ?_, hshift₁.trans hshift₂⟩
        intro hb
        obtain ⟨hor, rfl⟩ := hb₂ hb
        obtain ⟨hd, hb⟩ := Bool.or_eq_false_iff.mp hor
        exact ⟨hd, hb₁ hb⟩
      · simp only [if_neg hcan]
        exact ih hs hrest deleted

end

/-! ## Calls on the union -/

/-- The union once a change in the directory of a slot was noted. -/
def noted (o : Overlay Filesystem Entry) (slot : Nat) : Overlay Filesystem Entry :=
  if o.policy = .eager then o.invalidate slot else o

@[simp] theorem layers_noted (o : Overlay Filesystem Entry) (slot : Nat) :
    (o.noted slot).layers = o.layers := by
  rw [noted]
  split <;> rfl

theorem Over.noted {layers : List Filesystem} {s : Store} {o : Overlay Filesystem Entry}
    (h : Over s layers (s, o)) (slot : Nat) : Over s layers (s, o.noted slot) := by
  rw [Overlay.noted]
  split
  · exact ⟨h.trees, h.layers, h.fold, h.live⟩
  · exact h

theorem exec_noteChange (w : Store × Overlay Filesystem Entry) (node : Node Entry) :
    (noteChange node).exec w = (.ok (), (w.1, noted w.2 node.slot)) := by
  rw [noteChange]
  simp only [exec_bind, exec_current, noted]
  split <;> rfl

/-- Creating is refused where no layer can create, for a kind that cannot be made, outside of a
directory and without a name; else the layers are asked one after the other. -/
theorem create_cases (P : Provider Store Filesystem Entry Stream)
    (w : Store × Overlay Filesystem Entry) (hlive : w.2.released = false) (node : Node Entry)
    (kind : Kind) (name : String) :
    (¬ ((operations P w.2 w.1).covers (.only .create) = true ∧ kind.isCreatable = true ∧
        (Overlay.kind P node w.1).isDirectory = true ∧ normalize name false ≠ "") ∧
      ∃ e, (create P node kind name).exec w = (.error e, w)) ∨
    ((operations P w.2 w.1).covers (.only .create) = true ∧ kind.isCreatable = true ∧
      (Overlay.kind P node w.1).isDirectory = true ∧ normalize name false ≠ "" ∧
      (create P node kind name).exec w =
        match (createFrom P node.path kind (normalize name false) 0 w.2.layers).exec w.1 with
        | (.ok (some offer), s) =>
          (.ok ((noted w.2 node.slot).addNode offer).1,
            (s, ((noted w.2 node.slot).addNode offer).2))
        | (.ok none, s) =>
          (.error (.backend
            s!"no filesystem could create {join node.path (normalize name false)}"), (s, w.2))
        | (.error e, s) => (.error e, (s, w.2))) := by
  rw [create]
  simp only [exec_bind, exec_requireLive hlive, exec_require]
  by_cases hcan : (operations P w.2 w.1).covers (.only .create) = true
  swap
  · simp only [if_neg hcan]
    exact .inl ⟨fun h => hcan h.1, _, rfl⟩
  by_cases hk : kind.isCreatable = true
  swap
  · simp only [if_pos hcan, if_neg hk, exec_bind, exec_throw]
    exact .inl ⟨fun h => hk h.2.1, _, rfl⟩
  by_cases hd : (Overlay.kind P node w.1).isDirectory = true
  swap
  · simp only [if_pos hcan, if_pos hk, exec_bind, exec_requireDirectory_of_kind rfl, if_neg hd]
    exact .inl ⟨fun h => hd h.2.2.1, _, rfl⟩
  by_cases h0 : normalize name false = ""
  · simp only [if_pos hcan, if_pos hk, exec_bind, exec_requireDirectory_of_kind rfl, if_pos hd,
      String.isEmpty_iff, if_pos h0, exec_throw]
    exact .inl ⟨fun h => h.2.2.2 h0, _, rfl⟩
  refine .inr ⟨hcan, hk, hd, h0, ?_⟩
  simp only [if_pos hcan, if_pos hk, exec_bind, exec_requireDirectory_of_kind rfl, if_pos hd,
    String.isEmpty_iff, if_neg h0, exec_current, exec_below]
  rcases (createFrom P node.path kind (normalize name false) 0 w.2.layers).exec w.1 with
    ⟨e | _ | offer, s'⟩
  · rfl
  · rfl
  · simp only [exec_bind, exec_noteChange, exec_get, exec_set, exec_pure]

section
variable (n : Nat) (hs : ∀ f ∈ layers, f.CleanTree w.1) (hw : Over w.1 layers w)
include hs hw

omit hs hw in
/-- What came of creating through a node: nothing has changed, or a node was added on an entry that
a layer has now, and the layers differ where the first name leads, and below. -/
structure CreatedAt (layers : List Filesystem) (node : Node Entry) (names : List String)
    (w : Store × Overlay Filesystem Entry) (r : Except Failure (Node Entry))
    (w' : Store × Overlay Filesystem Entry) : Prop where
  failed : ∀ e, r = .error e → w' = w
  made : ∀ m, r = .ok m → ∃ offer s', Path.Clean offer.path ∧
    (∃ f, layers[offer.layer]? = some f ∧ offer.source = f.entryAt offer.path) ∧
    w.1.Shift s' layers (Memory.Through (components node.path) names) ∧
    m = ((noted w.2 node.slot).addNode offer).1 ∧
    w' = (s', ((noted w.2 node.slot).addNode offer).2)

/-- Creating through a node. -/
theorem createdAt_create (h : Sound layers label Whatever w.2 node) (kind : Kind) {name : String}
    (hname : ∀ n ∈ components (normalize name false), IsName n) :
    CreatedAt layers node (components (normalize name false)) w
      ((create (Store.provider (n + 1)) node kind name).exec w).1
      ((create (Store.provider (n + 1)) node kind name).exec w).2 := by
  have hidem : normalize (normalize name false) false = normalize name false := by
    have := normalize_ofNames hname
    rwa [ofNames_components_normalize] at this
  have hmade := created_createFrom n hs h.path (hidem.symm ▸ hname) kind 0 layers rfl
  rw [hidem] at hmade
  obtain ⟨-, e, he⟩ | ⟨-, -, -, -, he⟩ :=
    create_cases (Store.provider (n + 1)) w hw.live node kind name
  · rw [he]
    exact ⟨fun _ _ => rfl, by simp⟩
  rw [he, hw.layers]
  generalize (createFrom (Store.provider (n + 1)) node.path kind (normalize name false) 0
    layers).exec w.1 = out at hmade
  rcases out with ⟨e | _ | offer, s'⟩
  · refine ⟨fun _ _ => ?_, by simp⟩
    rw [show s' = w.1 from hmade.failed e rfl]
  · refine ⟨fun _ _ => ?_, by simp⟩
    rw [show s' = w.1 from hmade.passed rfl]
  · obtain ⟨hp, hsource, hshift⟩ := hmade.made offer rfl
    exact ⟨by simp, fun m hm => ⟨offer, s', hp, hsource, hshift, (Except.ok.inj hm).symm, rfl⟩⟩

end

section
variable (n : Nat) (mode : OpenMode) (touched : List String → Prop)

theorem exec_openInLayer (hs : ∀ f ∈ layers, f.CleanTree s) {path : String} (hp : Path.Clean path)
    {f : Filesystem} (hf : f.CleanTree s) :
    ∃ r s', (openInLayer (Store.provider (n + 1)) mode path f).exec s = (.ok r, s') ∧
      s.Shift s' layers touched := by
  rw [openInLayer]
  simp only [exec_bind, exec_attempt, f.exec_resolve n hf hp]
  by_cases hex : ((f.outline s).kind path).exists? = true
  · simp only [if_pos hex, exec_bind, exec_get, exec_ite]
    split
    · obtain ⟨r, s', he, hshift⟩ := f.exec_openStream n hs hf path mode touched
      simp only [exec_attempt, he]
      exact ⟨_, s', rfl, hshift⟩
    · exact ⟨_, s, rfl, .refl hs touched⟩
  · simp only [if_neg hex]
    exact ⟨_, s, rfl, .refl hs touched⟩

theorem exec_openFrom (required : Operations) {path : String} (hp : Path.Clean path)
    (skip : Option Nat) (layer : Nat) (rest : List Filesystem)
    (hs : ∀ f ∈ layers, f.CleanTree s) (hrest : ∀ f ∈ rest, f ∈ layers) :
    ∃ r s', (openFrom (Store.provider (n + 1)) mode required path skip layer rest).exec s
        = (.ok r, s') ∧ s.Shift s' layers touched := by
  induction rest generalizing s layer with
  | nil => exact ⟨none, s, rfl, .refl hs touched⟩
  | cons f rest ih =>
      have hf := hs f (hrest f (by simp))
      have hrest := fun g hg => hrest g (List.mem_cons_of_mem _ hg)
      rw [openFrom]
      simp only [exec_bind, exec_get]
      split
      · obtain ⟨r, s₁, he₁, hshift₁⟩ := exec_openInLayer n mode touched hs hp hf
        simp only [exec_bind, he₁]
        cases r with
        | some stream => exact ⟨_, s₁, rfl, hshift₁⟩
        | none =>
            obtain ⟨r, s₂, he₂, hshift₂⟩ := ih (layer + 1) hshift₁.clean hrest
            exact ⟨r, s₂, he₂, hshift₁.trans hshift₂⟩
      · exact ih (layer + 1) hs hrest

/-- Opening changes neither the union nor what it could see of its layers. -/
theorem exec_openStream (hs : ∀ f ∈ layers, f.CleanTree w.1) (hw : Over w.1 layers w)
    (h : Sound layers label Whatever w.2 node) :
    ∃ r s', (openStream (Store.provider (n + 1)) node mode).exec w = (r, (s', w.2)) ∧
      w.1.Shift s' layers touched := by
  have stay {r : Except Failure Stream} : ∃ r' s', (r, w) = (r', (s', w.2)) ∧
      w.1.Shift s' layers touched := ⟨r, w.1, rfl, .refl hs touched⟩
  rw [openStream]
  simp only [exec_bind, exec_requireLive hw.live, exec_get, exec_ofExcept]
  rcases mode.checkAgainst (operations (Store.provider (n + 1)) w.2 w.1) node.path with e | required
  · exact stay
  by_cases hfile : (kind (Store.provider (n + 1)) node w.1).isFile = true
  swap
  · simp only [if_neg hfile, exec_bind, exec_throw]
    exact stay
  simp only [if_pos hfile]
  cases node with
  | root => cases hfile
  | entry child =>
      obtain ⟨f, hf, hsource⟩ := h.source _ rfl
      obtain ⟨own, s₁, he₁, hshift₁⟩ :=
        f.exec_openStream n hs (hs f (List.mem_of_getElem? hf)) child.offer.path mode touched
      have he₁ : ((Store.provider (n + 1)).openStream child.offer.source mode).exec w.1
          = (own, s₁) := by
        rw [hsource]
        exact he₁
      simp only [Node.source?, exec_bind, exec_attempt, exec_below, he₁]
      cases own with
      | ok stream => exact ⟨_, s₁, rfl, hshift₁⟩
      | error e =>
          obtain ⟨r, s₂, he₂, hshift₂⟩ := exec_openFrom n mode touched required h.path
            (Node.entry child).layer? 0 layers hshift₁.clean fun _ hg => hg
          simp only [exec_bind, exec_below, hw.layers, he₂]
          cases r <;> exact ⟨_, s₂, rfl, hshift₁.trans hshift₂⟩

end

section
variable (hs : ∀ f ∈ layers, f.CleanTree s) (n : Nat)
include hs

omit hs in
/-- Paths that lie below a path and are not the path itself. -/
def Inside (top ns : List String) : Prop := ∃ ms, ms ≠ [] ∧ ns = top ++ ms

omit hs in
/-- Of the listings that were there, only that of the node and those below its path differ. -/
def Within (label : Nat → String) (node : Node Entry) (o o' : Overlay Filesystem Entry) : Prop :=
  ∀ j < o.listings.size, j ≠ node.slot →
    ¬ Inside (components node.path) (components (label j)) → o'.listing j = o.listing j

omit hs in
theorem Within.refl (o : Overlay Filesystem Entry) : Within label node o o := fun _ _ _ _ => rfl

omit hs in
/-- What came of deleting through a node after the walk along the names: nothing more has changed,
or the layers differ in the directory that the walk arrived at, where the last name leads, and
below. -/
def DeletedAt (layers : List Filesystem) (node : Node Entry) (names : List String)
    (w w' : Store × Overlay Filesystem Entry) : Prop :=
  w' = w ∨ ∃ way rest m s', names = way ++ rest ∧ w.2.cached node way = some m ∧
    w.1.Shift s' layers (Memory.Through (components m.path) rest) ∧ w' = (s', noted w.2 m.slot)

omit hs in
/-- What comes of deleting through a node: first the walk, which lists nothing but the node and
directories below it, then the deletion. -/
def Deletion (s : Store) (layers : List Filesystem) (label : Nat → String) (node : Node Entry)
    (names : List String) (w w' : Store × Overlay Filesystem Entry) : Prop :=
  ∃ label₁ w₁, Quiet s layers label w label₁ w₁ ∧ Keeps w.2 w₁.2 ∧ Within label node w.2 w₁.2 ∧
    DeletedAt layers node names w₁ w'

omit hs in
theorem Deletion.of_deletedAt {names : List String} {w' : Store × Overlay Filesystem Entry}
    (hw : Over s layers w) (hd : DeletedAt layers node names w w') :
    Deletion s layers label node names w w' :=
  ⟨label, w, .refl hw, .refl _, .refl _, hd⟩

omit hs in
/-- Deleting through an entry in the listing of a node is deleting through the node. -/
theorem Deletion.of_child {label₁ : Nat → String} {w₁ w' : Store × Overlay Filesystem Entry}
    {c : String} {cs : List String} {child : Node Entry}
    (h : Holds layers label₁ Whatever w₁.2 node)
    (hat : w₁.2.cached node [c] = some child) (hq : Quiet s layers label w label₁ w₁)
    (hk : Keeps w.2 w₁.2) (hin : Within label node w.2 w₁.2)
    (hd : Deletion s layers label₁ child cs w₁ w') :
    Deletion s layers label node (c :: cs) w w' := by
  obtain ⟨label₂, w₂, hq₂, hk₂, hin₂, hdel⟩ := hd
  have hpath := h.path_of_cached hat
  refine ⟨label₂, w₂, hq.trans hq₂, hk.trans hk₂, ?_, ?_⟩
  · intro j hj hne hout
    rw [← hin j hj hne hout]
    refine hin₂ j (hj.trans_le hq.size) ?_ ?_
    · intro hj'
      refine hout ?_
      rw [← hq.labelled j hj, hj', (h.of_cached hat).sound.label, hpath]
      exact ⟨[c], by simp, rfl⟩
    · rintro ⟨ms, -, hms⟩
      refine hout ?_
      rw [← hq.labelled j hj, hms, hpath]
      exact ⟨c :: ms, by simp, by simp⟩
  · rcases hdel with rfl | ⟨way, rest, m, s', rfl, hm, hshift, rfl⟩
    · exact .inl rfl
    · have hway := cached_append.mpr ⟨_, hk₂.cached hat, hm⟩
      exact .inr ⟨c :: way, rest, m, s', rfl, hway, hshift, rfl⟩

/-- Deleting a name in the directory of a node. -/
theorem exec_deleteHere {name : String}
    (hname : ∀ n ∈ components (normalize name false), IsName n) (hw : Over s layers w)
    (h : Sound layers label Whatever w.2 node) :
    ∃ b w', (do
        let deleted ← below
          (deleteInLayers (Store.provider (n + 1)) node.path name (← current).layers false)
        if deleted then noteChange node
        return deleted : Call Store Filesystem Entry Bool).exec w = (.ok b, w') ∧
      DeletedAt layers node (components (normalize name false)) w w' := by
  obtain ⟨b, s', he, hb, hshift⟩ := exec_deleteInLayers n
    (fun f hf => (hs f hf).congr hw.trees) h.path hname layers (fun _ hf => hf) false
  simp only [exec_bind, exec_current, exec_below, hw.layers, he]
  cases b with
  | false =>
      obtain rfl := (hb rfl).2
      exact ⟨_, w, rfl, .inl rfl⟩
  | true =>
      simp only [if_true, exec_bind, exec_noteChange]
      have hnames := List.nil_append (components (normalize name false))
      exact ⟨_, _, rfl, .inr ⟨[], _, node, s', hnames.symm, rfl, hshift, rfl⟩⟩

/-- Deleting through a node. -/
theorem exec_deleteWithin (depth : Nat) {name : String}
    (hname : ∀ n ∈ components (normalize name false), IsName n) (hw : Over s layers w)
    (h : Holds layers label Whatever w.2 node) :
    ∃ r w', (deleteWithin (Store.provider (n + 1)) depth node name).exec w = (r, w') ∧
      Deletion s layers label node (components (normalize name false)) w w' := by
  induction depth generalizing node name label w with
  | zero => exact ⟨_, w, rfl, .of_deletedAt hw (.inl rfl)⟩
  | succ depth ih =>
      have stay {names : List String} {r : Except Failure Bool} : ∃ r' w', (r, w) = (r', w') ∧
          Deletion s layers label node names w w' := ⟨r, w, rfl, .of_deletedAt hw (.inl rfl)⟩
      rw [deleteWithin]
      simp only [exec_bind, exec_requireLive hw.live, exec_require]
      by_cases hcan : (operations (Store.provider (n + 1)) w.2 w.1).covers (.only .delete) = true
      swap
      · simp only [if_neg hcan]
        exact stay
      simp only [if_pos hcan, exec_requireDirectory hs n hw h.sound]
      by_cases hd : (kindAt s node.offer?).isDirectory = true
      swap
      · simp only [if_neg hd]
        exact stay
      simp only [if_pos hd, exec_current, hw.fold, exec_ite, String.isEmpty_iff]
      by_cases h0 : normalize name false = ""
      · simp only [if_pos h0]
        exact stay
      simp only [if_neg h0]
      rw [← ofNames_components_normalize] at h0 ⊢
      generalize components (normalize name false) = names at hname h0 ⊢
      rw [components_ofNames fun m hm => (hname m hm).1]
      rcases names with _ | ⟨c, cs⟩
      · exact absurd ofNames_nil h0
      rw [splitHead_ofNames_cons (hname c (by simp)).1]
      have hcomp {ns : List String} (hns : ∀ m ∈ ns, IsName m) :
          components (normalize (ofNames ns) false) = ns := by
        rw [normalize_ofNames hns, components_ofNames fun m hm => (hns m hm).1]
      by_cases hcs : cs = []
      · subst hcs
        have hc := hcomp hname
        rw [ofNames_singleton] at hc
        simp only [if_pos, spelling, exec_bind, exec_current, hw.fold, Bool.false_eq_true, if_false,
          exec_pure]
        obtain ⟨b, w', he, hdel⟩ := exec_deleteHere hs n (hc.symm ▸ hname) hw h.sound
        rw [hc] at hdel
        simp only [exec_bind, exec_current] at he
        exact ⟨_, w', he, .of_deletedAt hw hdel⟩
      · simp only [if_neg hcs]
        obtain ⟨label₁, w₁, he₁, hd₁, hk₁, hq₁, hw₁⟩ := exec_listed hs n hw h.sound
        have h₁ := hq₁.holds Whatever node (fun _ _ => trivial) h
        have hin₁ : Within label node w.2 w₁.2 := by
          intro j _ hne _
          rw [hw₁]
          split
          · rw [listing_install _ _ h.sound.slot, if_neg hne]
          · rfl
        simp only [listedChild, exec_bind, he₁, exec_pure]
        cases hl : (w₁.2.listing node.slot).children.lookup c with
        | none => exact ⟨_, w₁, rfl, label₁, w₁, hq₁, hk₁, hin₁, .inl rfl⟩
        | some child =>
            have hat : w₁.2.cached node [c] = some (.entry child) :=
              cached_cons.mpr ⟨hd₁, child, hl, cached_nil _ _⟩
            have hrest := hcomp fun m hm => hname m (List.mem_cons_of_mem c hm)
            obtain ⟨r, w', he, hdel⟩ :=
              ih (fun m hm => hname m (List.mem_cons_of_mem c (hrest ▸ hm))) hq₁.base
                (h₁.of_cached hat)
            rw [hrest] at hdel
            exact ⟨r, w', he, .of_child h₁ hat hq₁ hk₁ hin₁ hdel⟩

end

section
variable (n : Nat) (hs : ∀ f ∈ layers, f.CleanTree w.1) (hw : Over w.1 layers w)
include hs hw

omit hs hw in
/-- What came of moving an entry: its layer has it at the target, the root was walked from to the
directory that it was in, and the listing of the last directory on the way, or the root's, was
marked as dirty. -/
structure MovedAt (layers : List Filesystem) (label : Nat → String) (node : Node Entry)
    (target : List String) (w w' : Store × Overlay Filesystem Entry) : Prop where
  moved : ∃ offer f s', node.offer? = some offer ∧ layers[offer.layer]? = some f ∧
    Filesystem.Renamed w.1 s' layers f (components node.path) target ∧
    ∃ label₁ w₁ top m, Quiet s' layers label (s', w.2) label₁ w₁ ∧ Keeps w.2 w₁.2 ∧
      top <+: (components node.path).dropLast ∧ w₁.2.cached .root top = some m ∧
      w' = (w₁.1, w₁.2.invalidate m.slot)

omit hs hw in
/-- What follows once the layer of an entry has moved it: a walk from the root to the directory that
it was in, whose listing is marked as dirty, or else the root's is. -/
theorem exec_rename_of_moved {s' : Store} {child : Child Entry} {target : String}
    (hs : ∀ f ∈ layers, f.CleanTree s') (hw : Over w.1 layers w)
    (hroot : Holds layers label Whatever w.2 .root) (hp : Path.Clean child.offer.path)
    (h0 : components child.offer.path ≠ [])
    (he : ((Store.provider (n + 1)).rename child.offer.source target).exec w.1 = (.ok (), s')) :
    ∃ label₁ w₁ top m, Quiet s' layers label (s', w.2) label₁ w₁ ∧ Keeps w.2 w₁.2 ∧
      top <+: (components child.offer.path).dropLast ∧ w₁.2.cached .root top = some m ∧
      (rename (Store.provider (n + 1)) (.entry child) target).exec w
        = (.ok (), (w₁.1, w₁.2.invalidate m.slot)) := by
  have hw' := hw.changed s'
  rw [rename]
  simp only [Node.source?, exec_bind, exec_requireLive hw.live, exec_below, he]
  rcases List.eq_nil_or_concat' (components child.offer.path) with hnil | ⟨qs, x, hpath⟩
  · exact absurd hnil h0
  have hname : ∀ n ∈ qs ++ [x], IsName n := hpath ▸ fun n hn => hp.isName hn
  rw [hpath, List.dropLast_concat]
  rw [show (Node.entry child).path = ofNames (qs ++ [x]) by
    rw [← hpath]; exact hp.ofNames_components.symm]
  rw [parent?_ofNames_snoc (hname x (by simp)).1]
  by_cases hqs : qs = []
  · simp only [if_pos hqs]
    exact ⟨_, _, _, _, .refl hw', .refl _, List.nil_prefix, rfl, rfl⟩
  · have hqname : ∀ n ∈ qs, IsName n := fun n hn => hname n (List.mem_append_left _ hn)
    have hqcomp := components_ofNames fun n hn => (hqname n hn).1
    obtain ⟨r, label₁, w₁, he, hq, hk, -, hcached⟩ :=
      exec_lookup hs n (fun _ _ => trivial) (hqcomp.symm ▸ hqs) hw' hroot
    simp only [if_neg hqs, exec_bind, exec_current, hw.fold, normalize_ofNames hqname,
      exec_attempt, he]
    rcases r with e | _ | directory
    · exact ⟨_, _, _, _, hq, hk, List.nil_prefix, rfl, rfl⟩
    · exact ⟨_, _, _, _, hq, hk, List.nil_prefix, rfl, rfl⟩
    · have hm := hcached directory rfl
      rw [hqcomp] at hm
      exact ⟨_, _, _, _, hq, hk, List.prefix_rfl, hm, rfl⟩

/-- Moving an entry. -/
theorem exec_rename (hroot : Holds layers label Whatever w.2 .root)
    (h : Sound layers label Whatever w.2 node) {target : String}
    (htarget : ∀ n ∈ components (normalize target false), IsName n) :
    ∃ r w', (rename (Store.provider (n + 1)) node target).exec w = (r, w') ∧
      (∀ e, r = .error e → w' = w) ∧
      (r = .ok () → MovedAt layers label node (components (normalize target false)) w w') := by
  cases node with
  | root => exact ⟨_, w, rfl, fun _ _ => rfl, by simp⟩
  | entry child =>
      obtain ⟨f, hf, hsource⟩ := h.source _ rfl
      obtain ⟨r, s', he, herr, hok⟩ := f.exec_rename n hs (hs f (List.mem_of_getElem? hf)) h.path
        htarget
      have he : ((Store.provider (n + 1)).rename child.offer.source target).exec w.1 = (r, s') := by
        rw [hsource]
        exact he
      cases r with
      | error e =>
          refine ⟨.error e, w, ?_, fun _ _ => rfl, by simp⟩
          rw [rename]
          simp only [Node.source?, exec_bind, exec_requireLive hw.live, exec_below, he]
          rw [herr e rfl]
      | ok u =>
          have hren := hok rfl
          obtain ⟨_, _, -, -, -, hshift⟩ := hren.shift
          obtain ⟨label₁, w₁, top, m, hq, hk, htop, hm, hexec⟩ :=
            exec_rename_of_moved n hshift.clean hw hroot h.path hren.inner he
          exact ⟨_, _, hexec, by simp, fun _ =>
            ⟨child.offer, f, s', rfl, hf, hren, label₁, w₁, top, m, hq, hk, htop, hm, rfl⟩⟩

end

end Strata.Overlay
