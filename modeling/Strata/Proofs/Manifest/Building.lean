/-
# `Strata.Proofs.Manifest.Building` — which manifests give a union, and which one

A manifest is a tree of layers, and a union is built from it in one walk over the
tree.  What stops the walk can be said of the tree alone (`Layer.Sound`), but for
the listings that a union is to make as soon as it is there: these are calls on
the layers below it, and one that fails ends the building too (`Layer.Stuck`).

An `Outcome` is all that is to be said of a step of the building: that the store
grows by it, when exactly it succeeds, and what is there if it does.  Outcomes are
put together as the steps are, so the theorem is one induction over the tree.
-/
import Strata.Proofs.Manifest.Operations
import Strata.Proofs.Memory.Filling
import Strata.Proofs.Overlay.Walk
import Strata.Proofs.Store.Growth

namespace Strata.Manifest

open Store (Grows)

variable {α β : Type} {s s' t : Store} {base : Option String} {names : Option (List String)}
  {l : Layer} {ls : List Layer} {f : Filesystem} {fs : List Filesystem} {op : Operation}

/-! ## Steps of setting up -/

namespace Setup

/-- What a step answers, and the store that it leaves behind. -/
def exec (x : Setup α) (s : Store) : Except Problem α × Store := x.run.run s

@[simp] theorem exec_pure (a : α) (s : Store) : (pure a : Setup α).exec s = (.ok a, s) := rfl

@[simp] theorem exec_throw (p : Problem) (s : Store) :
    (throw p : Setup α).exec s = (.error p, s) := rfl

@[simp] theorem exec_get (s : Store) : (get : Setup Store).exec s = (.ok s, s) := rfl

@[simp] theorem exec_lift (r : Except Problem α) (s : Store) :
    (liftM r : Setup α).exec s = (r, s) := by
  cases r <;> rfl

@[simp] theorem exec_adding (add : Store → Filesystem × Store) (s : Store) :
    (adding add).exec s = (.ok (add s).1, (add s).2) := rfl

@[simp] theorem exec_calling (x : Action Store α) (s : Store) :
    (calling x).exec s = ((x.exec s).1.mapError .failure, (x.exec s).2) := by
  rcases h : x.exec s with ⟨e | a, t⟩
  all_goals
    rw [Action.exec] at h
    rw [exec, calling, ExceptT.run_mk, StateT.run_bind, h]
    rfl

@[simp] theorem exec_bind (x : Setup α) (f : α → Setup β) (s : Store) :
    (x >>= f).exec s =
      match x.exec s with
      | (.ok a, t) => (f a).exec t
      | (.error p, t) => (.error p, t) := by
  simp only [exec, ExceptT.run_bind, StateT.run_bind]
  rcases x.run.run s with ⟨_ | _, _⟩ <;> rfl

@[simp] theorem exec_ite (c : Prop) [Decidable c] (x y : Setup α) (s : Store) :
    (if c then x else y).exec s = if c then x.exec s else y.exec s := by
  split <;> rfl

end Setup

/-- A step in a store: the store grows, the step succeeds exactly if it can and is not stuck, and
what it answers has the property `made` in the store that it leaves behind. -/
structure Outcome (s : Store) (x : Setup α) (can stuck : Prop) (made : Store → α → Prop) :
    Prop where
  grows : s.Grows (x.exec s).2
  ok_iff : (∃ a, (x.exec s).1 = .ok a) ↔ can ∧ ¬stuck
  made : ∀ a, (x.exec s).1 = .ok a → made (x.exec s).2 a

section
variable {x y : Setup α} {g : α → Setup β} {can can' stuck stuck' : Prop}
  {made : Store → α → Prop} {p : Problem}

theorem Outcome.pure {a : α} (h : made s a) : Outcome s (pure a) True False made where
  grows := .refl s
  ok_iff := iff_of_true ⟨a, rfl⟩ ⟨trivial, id⟩
  made := by
    rintro _ ⟨⟩
    exact h

theorem Outcome.of_error (hexec : x.exec s = (.error p, t)) (hgrows : s.Grows t)
    (hno : ¬(can ∧ ¬stuck)) : Outcome s x can stuck made := by
  refine ⟨?_, ?_, ?_⟩ <;> rw [hexec]
  · exact hgrows
  · exact iff_of_false (by simp) hno
  · simp

theorem Outcome.of_ok {a : α} (hexec : x.exec s = (.ok a, t)) (hgrows : s.Grows t)
    (hcan : can) (hstuck : ¬stuck) (hmade : made t a) : Outcome s x can stuck made := by
  refine ⟨?_, ?_, ?_⟩ <;> rw [hexec]
  · exact hgrows
  · exact iff_of_true ⟨a, rfl⟩ ⟨hcan, hstuck⟩
  · rintro _ ⟨⟩
    exact hmade

/-- A step that goes on as another one does in a store that has grown. -/
theorem Outcome.of_exec_eq (h : Outcome t y can stuck made) (hexec : x.exec s = y.exec t)
    (hgrows : s.Grows t) (hiff : can ∧ ¬stuck ↔ can' ∧ ¬stuck') : Outcome s x can' stuck' made := by
  refine ⟨?_, ?_, ?_⟩ <;> rw [hexec]
  · exact hgrows.trans h.grows
  · exact h.ok_iff.trans hiff
  · exact h.made

/-- Two steps: the second one is made in the store that the first one leaves behind. -/
theorem Outcome.bind {stuck' : α → Store → Prop} {made' : Store → β → Prop}
    (hx : Outcome s x can stuck made)
    (hg : ∀ a t, x.exec s = (.ok a, t) → s.Grows t → made t a →
      Outcome t (g a) can' (stuck' a t) made') :
    Outcome s (x >>= g) (can ∧ can')
      (stuck ∨ ∃ a t, x.exec s = (.ok a, t) ∧ stuck' a t) made' := by
  obtain ⟨hgrows, hiff, hmade⟩ := hx
  rcases hexec : x.exec s with ⟨p | a, t⟩
  · rw [hexec] at hgrows hiff
    have hno : ¬(can ∧ ¬stuck) := fun h => by simpa using hiff.mpr h
    exact .of_error (by rw [Setup.exec_bind, hexec]) hgrows fun h =>
      hno ⟨h.1.1, fun hs => h.2 (.inl hs)⟩
  · rw [hexec] at hgrows hiff hmade
    obtain ⟨hcan, hstuck⟩ := hiff.mp ⟨a, rfl⟩
    refine (hg a t hexec hgrows (hmade a rfl)).of_exec_eq ?_ hgrows ?_
    · rw [Setup.exec_bind, hexec]
    · simp [hcan, hstuck]

/-- A step whose answer is worked on. -/
theorem Outcome.map {g : α → β} {made' : Store → β → Prop} (hx : Outcome s x can stuck made)
    (hg : ∀ a t, s.Grows t → made t a → made' t (g a)) :
    Outcome s (x >>= fun a => Pure.pure (g a)) can stuck made' := by
  obtain ⟨hgrows, hiff, hmade⟩ := hx
  rcases hexec : x.exec s with ⟨p | a, t⟩
  · rw [hexec] at hgrows hiff
    exact .of_error (by rw [Setup.exec_bind, hexec]) hgrows fun h => by simpa using hiff.mpr h
  · rw [hexec] at hgrows hiff hmade
    obtain ⟨hcan, hstuck⟩ := hiff.mp ⟨a, rfl⟩
    exact .of_ok (by rw [Setup.exec_bind, hexec]; rfl) hgrows hcan hstuck
      (hg a t hgrows (hmade a rfl))

/-- A check before a step. -/
theorem Outcome.lift_bind {made' : Store → β → Prop} {r : Except Problem α}
    (hr : (∃ a, r = .ok a) ↔ can) (hg : ∀ a, r = .ok a → Outcome s (g a) can' stuck made') :
    Outcome s (liftM r >>= g) (can ∧ can') stuck made' := by
  cases r with
  | error p =>
      have hno : ¬can := fun h => by simpa using hr.mpr h
      exact .of_error (by rw [Setup.exec_bind, Setup.exec_lift]) (.refl s) fun h => hno h.1.1
  | ok a =>
      refine (hg a rfl).of_exec_eq ?_ (.refl s) ?_
      · rw [Setup.exec_bind, Setup.exec_lift]
      · rw [and_iff_right (hr.mp ⟨a, rfl⟩)]

theorem Outcome.guard {c : Prop} [Decidable c] {y' : PUnit → Setup α}
    (hy : ¬c → Outcome s y can stuck made) :
    Outcome s (if c then throw p >>= y' else y) (¬c ∧ can) stuck made := by
  by_cases h : c
  · rw [if_pos h]
    exact .of_error rfl (.refl s) fun hno => hno.1.1 h
  · rw [if_neg h]
    simpa only [h, not_false_eq_true, true_and] using hy h

end

/-! ## What a manifest has to say -/

/-- The names of operations are understood, if there are names. -/
def Understood : Option (List String) → Prop
  | none => True
  | some tokens => ∀ t ∈ tokens, IsToken (Text.trim t)

/-- The operation is one of those that are named; without names it is any. -/
def Declares : Option (List String) → Operation → Prop
  | none, _ => True
  | some tokens, op => ∃ t ∈ tokens, Denotes (Text.trim t) op

mutual

/-- Nothing that a layer says stops the building: its unions have layers, its names of operations
are understood, its roots are directories of the disk, and its files fit together. -/
def Layer.Sound (d : Disk) (base : Option String) : Layer → Prop
  | .directory root names => Understood names ∧ (d.kindAt (rootFrom base root)).isDirectory = true
  | .files files names => Understood names ∧ Memory.Fitting files.entries
  | .union settings layers names =>
    Understood names ∧ layers ≠ [] ∧ layersSound d (settings.baseIn base) layers

/-- Nothing that the layers say stops the building. -/
def layersSound (d : Disk) (base : Option String) : List Layer → Prop
  | [] => True
  | l :: ls => l.Sound d base ∧ layersSound d base ls

end

/-- The store with a union over these filesystems, in which nothing is listed yet. -/
def withUnion (settings : Settings) (fs : List Filesystem) (s : Store) : Store :=
  (s.addOverlay { layers := fs, fold := settings.fold, policy := settings.policy }).2

/-- What comes of populating a union over these filesystems. -/
def populated (settings : Settings) (fs : List Filesystem) (depth : Nat) (s : Store) :
    Except Failure Unit × Store :=
  let stacked := withUnion settings fs s
  (Store.inOverlay s.overlays.size (Overlay.populate stacked.layerCalls depth .root)).exec stacked

/-- A union over these filesystems is to be populated, and this fails. -/
def unionStuck (settings : Settings) (fs : List Filesystem) (s : Store) : Prop :=
  ∃ depth failure, settings.populateDepth = some depth ∧
    (populated settings fs depth s).1 = .error failure

mutual

/-- A union in the layer is made and cannot be populated. -/
def Layer.Stuck (base : Option String) : Layer → Store → Prop
  | .directory _ _, _ => False
  | .files _ _, _ => False
  | .union settings layers _, s =>
    layersStuck (settings.baseIn base) layers s ∨
      ∃ fs t, (buildLayers (settings.baseIn base) layers).exec s = (.ok fs, t) ∧
        unionStuck settings fs t

/-- A union in one of the layers is made, after the layers before, and cannot be populated. -/
def layersStuck (base : Option String) : List Layer → Store → Prop
  | [], _ => False
  | l :: ls, s =>
    l.Stuck base s ∨ ∃ f t, (buildLayer base l).exec s = (.ok f, t) ∧ layersStuck base ls t

end

/-! ## What is there in the end -/

mutual

/-- The filesystem is what the layer describes. -/
inductive Made (s : Store) : Option String → Layer → Filesystem → Prop
  | directory {base : Option String} {root : String} {names : Option (List String)} {id : Nat}
      {h : Host} :
      s.hosts[id]? = some h → h.root = (Host.ofRoot s.disk (rootFrom base root)).root →
      (∀ op, op ∈ h.operations ↔ Declares names op) →
      Made s base (.directory root names) (.host id)
  | files {base : Option String} {files : Table String} {names : Option (List String)} {id : Nat}
      {m : Memory} :
      s.memories[id]? = some m → Memory.Filled s.clock files.entries m.tree →
      (∀ op, op ∈ m.operations ↔ Declares names op) →
      Made s base (.files files names) (.memory id)
  | union {base : Option String} {settings : Settings} {layers : List Layer}
      {names : Option (List String)} {id : Nat} {o : Overlay Filesystem Entry} :
      s.overlays[id]? = some o → o.fold = settings.fold → o.policy = settings.policy →
      o.released = false → (∀ f ∈ o.layers, ∀ j, f.overlayId? = some j → j < id) →
      MadeEach s (settings.baseIn base) layers o.layers →
      Made s base (.union settings layers names) (.overlay id)

/-- The filesystems are what the layers describe, one for each, in their order. -/
inductive MadeEach (s : Store) : Option String → List Layer → List Filesystem → Prop
  | nil {base : Option String} : MadeEach s base [] []
  | cons {base : Option String} {l : Layer} {ls : List Layer} {f : Filesystem}
      {fs : List Filesystem} :
      Made s base l f → MadeEach s base ls fs → MadeEach s base (l :: ls) (f :: fs)

end

mutual

/-- The layers that are no unions, however deep they are. -/
def Layer.leaves : Layer → List Layer
  | .directory root names => [.directory root names]
  | .files files names => [.files files names]
  | .union _ layers _ => leavesOf layers

/-- The layers that are no unions, in all of these. -/
def leavesOf : List Layer → List Layer
  | [] => []
  | l :: ls => l.leaves ++ leavesOf ls

end

/-- No name on the way to a file of the layer has white space around it. -/
def Layer.PathsTrimmed : Layer → Prop
  | .files table _ => Memory.Trimmed table.entries
  | _ => True

instance : DecidablePred Layer.PathsTrimmed
  | .files table _ => inferInstanceAs (Decidable (Memory.Trimmed table.entries))
  | .directory _ _ => .isTrue trivial
  | .union _ _ _ => .isTrue trivial

/-! ## Over all layers -/

theorem layer_induction {p : Layer → Prop}
    (directory : ∀ root names, p (.directory root names))
    (files : ∀ files names, p (.files files names))
    (union : ∀ settings layers names, (∀ l ∈ layers, p l) → p (.union settings layers names))
    (l : Layer) : p l :=
  @Layer.rec p (fun ls => ∀ l ∈ ls, p l) directory files union (fun _ h => (by cases h))
    (fun _ _ hl hls => List.forall_mem_cons.mpr ⟨hl, hls⟩) l

theorem MadeEach.mono (h : MadeEach s base ls fs)
    (hmono : ∀ l ∈ ls, ∀ base f, Made s base l f → Made s' base l f) : MadeEach s' base ls fs := by
  induction ls generalizing fs with
  | nil =>
      cases h
      exact .nil
  | cons l ls ih =>
      obtain ⟨hl, hls⟩ := List.forall_mem_cons.mp hmono
      cases h with
      | cons hf hfs => exact .cons (hl _ _ hf) (ih hfs hls)

/-- What a layer describes is still there when the store has grown. -/
theorem Made.mono (hgrows : s.Grows s') (h : Made s base l f) : Made s' base l f := by
  induction l using layer_induction generalizing base f with
  | directory root names =>
      cases h with
      | directory hid hroot hops =>
          exact .directory (hgrows.hosts hid) (by rw [hgrows.disk, hroot]) hops
  | files files names =>
      cases h with
      | files hid hfilled hops =>
          exact .files (hgrows.memories hid) (by rw [hgrows.clock]; exact hfilled) hops
  | union settings layers names ih =>
      cases h with
      | union hid hfold hpolicy hheld hbelow hlayers =>
          obtain ⟨o', hid', hsame⟩ := hgrows.overlays hid
          refine .union hid' (hsame.steady.fold.trans hfold) (hsame.steady.policy.trans hpolicy)
            (hsame.steady.released.trans hheld) ?_ ?_
          · rwa [hsame.layers]
          · rw [hsame.layers]
            exact hlayers.mono fun l hl base f => ih l hl

/-! ## The operations of a union -/

theorem mem_operations {P : Provider Store Filesystem Entry Stream}
    {o : Overlay Filesystem Entry} :
    op ∈ Overlay.operations P o s ↔ ∃ f ∈ o.layers, op ∈ P.operations f s := by
  rw [← Operations.covers_only, Overlay.operations_covers_only, List.any_eq_true]
  simp only [Operations.covers_only]

theorem MadeEach.mem_operations {n : Nat} (h : MadeEach s base ls fs)
    (heach : ∀ l ∈ ls, ∀ base f, Made s base l f → f ∈ fs →
      (op ∈ (Store.provider n).operations f s ↔ ∃ x ∈ l.leaves, Declares x.operations op)) :
    (∃ f ∈ fs, op ∈ (Store.provider n).operations f s) ↔
      ∃ x ∈ leavesOf ls, Declares x.operations op := by
  induction ls generalizing fs with
  | nil =>
      cases h
      simp [leavesOf]
  | cons l ls ih =>
      obtain ⟨hl, hls⟩ := List.forall_mem_cons.mp heach
      cases h with
      | cons hf hfs =>
          have hrest := ih hfs fun x hx base f hmade hmem =>
            hls x hx base f hmade (List.mem_cons_of_mem _ hmem)
          simp only [List.mem_cons, or_and_right, exists_or, exists_eq_left, hl _ _ hf (by simp),
            hrest, leavesOf, List.mem_append]

/-- A filesystem that a layer describes may be asked for what one of the leaves declares. -/
theorem Made.mem_operations {n : Nat} (h : Made s base l f)
    (hdepth : ∀ j, f.overlayId? = some j → j < n) :
    op ∈ (Store.provider (n + 1)).operations f s ↔ ∃ x ∈ l.leaves, Declares x.operations op := by
  induction l using layer_induction generalizing base f n with
  | directory root names =>
      cases h with
      | @directory _ _ _ id h hid hroot hops =>
          have hhost : s.host id = h := by
            rw [Store.host, Array.getD_eq_getD_getElem?, hid]
            rfl
          show op ∈ (s.host id).operations ↔ _
          simp [hhost, hops, Layer.leaves, Layer.operations]
  | files files names =>
      cases h with
      | @files _ _ _ id m hid hfilled hops =>
          have hmemory : s.memory id = m := by
            rw [Store.memory, Array.getD_eq_getD_getElem?, hid]
            rfl
          show op ∈ (s.memory id).operations ↔ _
          simp [hmemory, hops, Layer.leaves, Layer.operations]
  | union settings layers names ih =>
      cases h with
      | @union _ _ _ _ id o hid hfold hpolicy hheld hbelow hlayers =>
          have hover : s.overlay id = o := by
            rw [Store.overlay, Array.getD_eq_getD_getElem?, hid]
            rfl
          have hlt : id < n := hdepth id rfl
          obtain ⟨k, rfl⟩ : ∃ k, n = k + 1 := ⟨n - 1, by omega⟩
          show op ∈ Overlay.operations (Store.provider (k + 1)) (s.overlay id) s ↔ _
          rw [Manifest.mem_operations, hover, Layer.leaves]
          refine hlayers.mem_operations fun l hl base f hmade hf => ih l hl hmade fun j hj => ?_
          have := hbelow f hf j hj
          omega

/-! ## One layer -/

/-- The filesystem is not a union that is still to come. -/
def Known (s : Store) (f : Filesystem) : Prop := ∀ j, f.overlayId? = some j → j < s.overlays.size

theorem Known.mono (hgrows : s.Grows s') (h : Known s f) : Known s' f :=
  fun j hj => Nat.lt_of_lt_of_le (h j hj) hgrows.size_overlays

theorem operationsOf_ok_iff : (∃ ops, operationsOf names = .ok ops) ↔ Understood names := by
  cases names with
  | none => exact iff_of_true ⟨none, rfl⟩ trivial
  | some tokens =>
      constructor
      · rintro ⟨ops, h⟩
        obtain ⟨set, hset, -⟩ := bind_eq_ok.mp h
        exact (operationsOfTokens_eq_ok.mp hset).1
      · intro h
        obtain ⟨set, hset, -⟩ := operationsOfTokens_ok h
        exact ⟨some set, operationsOf_some hset⟩

/-- Where nothing else is said all operations are declared. -/
theorem mem_operationsOf {ops : Option Operations} (h : operationsOf names = .ok ops)
    (op : Operation) : op ∈ ops.getD .all ↔ Declares names op := by
  cases names with
  | none =>
      cases h
      exact iff_of_true (by cases op <;> decide) trivial
  | some tokens =>
      obtain ⟨set, hset, heq⟩ := bind_eq_ok.mp h
      cases heq
      exact (operationsOfTokens_eq_ok.mp hset).2 op

theorem outcome_buildDirectory (s : Store) (base : Option String) (root : String)
    {ops : Option Operations} (hops : ∀ op, op ∈ ops.getD .all ↔ Declares names op) :
    Outcome s (buildDirectory base root ops)
      ((s.disk.kindAt (rootFrom base root)).isDirectory = true) False
      fun t f => Made t base (.directory root names) f ∧ Known t f := by
  have hall : (Host.ofRoot s.disk (rootFrom base root)).operations = .all := by
    rw [Host.ofRoot]
    split <;> rfl
  have hexec : (buildDirectory base root ops).exec s =
      if (s.disk.kindAt (rootFrom base root)).isDirectory then
        (.ok (.host s.hosts.size), (s.addHost { Host.ofRoot s.disk (rootFrom base root) with
          operations := ops.getD .all }).2)
      else (.error (.missingRoot (rootFrom base root)), s) := by
    rw [← hall]
    simp [buildDirectory, Store.addHost]
  by_cases hdir : (s.disk.kindAt (rootFrom base root)).isDirectory = true
  · rw [if_pos hdir] at hexec
    exact .of_ok hexec (Store.grows_addHost s _) hdir id
      ⟨.directory Array.getElem?_push_size rfl hops, by simp [Known, Filesystem.overlayId?]⟩
  · rw [if_neg hdir] at hexec
    exact .of_error hexec (.refl s) fun h => hdir h.1

theorem outcome_buildFiles (s : Store) (base : Option String) {files : Table String}
    (htrim : Memory.Trimmed files.entries) {ops : Option Operations}
    (hops : ∀ op, op ∈ ops.getD .all ↔ Declares names op) :
    Outcome s (buildFiles files ops) (Memory.Fitting files.entries) False
      fun t f => Made t base (.files files names) f ∧ Known t f := by
  have hfill := Memory.exec_addFiles (m := { operations := ops.getD .all })
    Memory.fitting_nil (Memory.filled_root s.clock) htrim
  have hexec : (buildFiles files ops).exec s =
      match (Memory.addFiles s.clock files.entries).exec { operations := ops.getD .all } with
      | (.ok _, m) => (.ok (.memory s.memories.size), (s.addMemory m).2)
      | (.error e, _) => (.error (.failure e), s) := by
    rcases hrun : (Memory.addFiles s.clock files.entries).exec { operations := ops.getD .all } with
      ⟨_ | _, _⟩
    all_goals
      rw [Action.exec, Memory.addFiles] at hrun
      simp only [buildFiles, Setup.exec_bind, Setup.exec_get]
      rw [hrun]
      rfl
  rcases hrun : (Memory.addFiles s.clock files.entries).exec { operations := ops.getD .all } with
    ⟨e | u, m⟩
  · simp only [hrun] at hexec
    rw [hrun] at hfill
    refine .of_error hexec (.refl s) fun hfit => ?_
    cases hfill.1.mpr hfit.1
  · simp only [hrun] at hexec
    rw [hrun] at hfill
    obtain ⟨t, rfl, hfilled⟩ := hfill.2 rfl
    exact .of_ok hexec (Store.grows_addMemory s _) (hfill.1.mp rfl) id
      ⟨.files Array.getElem?_push_size hfilled hops, by simp [Known, Filesystem.overlayId?]⟩

theorem exec_buildUnion (settings : Settings) (fs : List Filesystem) (s : Store) :
    (buildUnion settings fs).exec s =
      match settings.populateDepth with
      | none => (.ok (.overlay s.overlays.size), withUnion settings fs s)
      | some depth =>
        match populated settings fs depth s with
        | (.ok _, t) => (.ok (.overlay s.overlays.size), t)
        | (.error e, t) => (.error (.failure e), t) := by
  cases hdepth : settings.populateDepth with
  | none =>
      simp only [buildUnion, hdepth]
      rfl
  | some depth =>
      simp only [buildUnion, hdepth, Setup.exec_bind, Setup.exec_get, Setup.exec_adding,
        Setup.exec_calling]
      rcases hrun : populated settings fs depth s with ⟨_ | _, _⟩
      all_goals
        rw [populated, withUnion] at hrun
        rw [hrun]
        rfl

/-- A union over filesystems that are there: it is made, and then populated if it is to be. -/
theorem outcome_buildUnion (s : Store) (base : Option String) {settings : Settings}
    (hmade : MadeEach s (settings.baseIn base) ls fs) (hknown : ∀ f ∈ fs, Known s f) :
    Outcome s (buildUnion settings fs) True (unionStuck settings fs s)
      fun t f => Made t base (.union settings ls names) f ∧ Known t f := by
  have hstacked : s.Grows (withUnion settings fs s) := Store.grows_addOverlay s _
  have hthere : Made (withUnion settings fs s) base (.union settings ls names)
      (.overlay s.overlays.size) :=
    .union Array.getElem?_push_size rfl rfl rfl hknown
      (hmade.mono fun _ _ _ _ h => h.mono hstacked)
  have hsize : s.overlays.size < (withUnion settings fs s).overlays.size := by
    simp [withUnion, Store.addOverlay]
  -- the union is still there when it has been populated
  have hwell {t : Store} (ht : (withUnion settings fs s).Grows t) :
      Made t base (.union settings ls names) (.overlay s.overlays.size) ∧
        Known t (.overlay s.overlays.size) := by
    refine ⟨hthere.mono ht, ?_⟩
    rintro _ ⟨⟩
    exact Nat.lt_of_lt_of_le hsize ht.size_overlays
  have hexec := exec_buildUnion settings fs s
  cases hdepth : settings.populateDepth with
  | none =>
      rw [hdepth] at hexec
      exact .of_ok hexec hstacked trivial (by simp [unionStuck, hdepth]) (hwell (.refl _))
  | some depth =>
      have hgrows : (withUnion settings fs s).Grows (populated settings fs depth s).2 :=
        Store.grows_populate _ _ _ _ _
      rcases hrun : populated settings fs depth s with ⟨e | u, t⟩
      · simp only [hdepth, hrun] at hexec hgrows
        exact .of_error hexec (hstacked.trans hgrows) fun h =>
          h.2 ⟨depth, e, hdepth, by rw [hrun]⟩
      · simp only [hdepth, hrun] at hexec hgrows
        refine .of_ok hexec (hstacked.trans hgrows) trivial ?_ (hwell hgrows)
        rintro ⟨_, e, hd, he⟩
        obtain rfl := Option.some.inj (hdepth.symm.trans hd)
        rw [hrun] at he
        cases he

/-! ## All layers -/

theorem outcome_buildLayers (s : Store) (base : Option String)
    (heach : ∀ l ∈ ls, ∀ s, Outcome s (buildLayer base l) (l.Sound s.disk base) (l.Stuck base s)
      fun t f => Made t base l f ∧ Known t f) :
    Outcome s (buildLayers base ls) (layersSound s.disk base ls) (layersStuck base ls s)
      fun t fs => MadeEach t base ls fs ∧ ∀ f ∈ fs, Known t f := by
  induction ls generalizing s with
  | nil => exact .pure ⟨.nil, by simp⟩
  | cons l ls ih =>
      obtain ⟨hl, hls⟩ := List.forall_mem_cons.mp heach
      rw [buildLayers]
      refine (hl s).bind fun f t _ hgrows hf => ?_
      rw [← hgrows.disk]
      exact (ih t hls).map fun fs t' hgrows' hfs =>
        ⟨.cons (hf.1.mono hgrows') hfs.1, List.forall_mem_cons.mpr ⟨hf.2.mono hgrows', hfs.2⟩⟩

theorem leaves_subset (h : l ∈ ls) : l.leaves ⊆ leavesOf ls := by
  induction ls with
  | nil => cases h
  | cons l' ls ih =>
      rw [leavesOf]
      rcases List.mem_cons.mp h with rfl | h
      · exact List.subset_append_left _ _
      · exact List.Subset.trans (ih h) (List.subset_append_right _ _)

theorem outcome_buildLayer (htrim : ∀ x ∈ l.leaves, x.PathsTrimmed) (s : Store)
    (base : Option String) :
    Outcome s (buildLayer base l) (l.Sound s.disk base) (l.Stuck base s)
      fun t f => Made t base l f ∧ Known t f := by
  induction l using layer_induction generalizing s base with
  | directory root names =>
      rw [buildLayer]
      exact .lift_bind operationsOf_ok_iff fun ops hops =>
        outcome_buildDirectory s base root (mem_operationsOf hops)
  | files files names =>
      have hfiles : Memory.Trimmed files.entries :=
        htrim (.files files names) (by simp [Layer.leaves])
      rw [buildLayer]
      exact .lift_bind operationsOf_ok_iff fun ops hops =>
        outcome_buildFiles s base hfiles (mem_operationsOf hops)
  | union settings layers names ih =>
      have hleaves : ∀ l ∈ layers, ∀ x ∈ l.leaves, x.PathsTrimmed := fun l hl x hx =>
        htrim x (leaves_subset hl hx)
      have hlayers := outcome_buildLayers s (settings.baseIn base) fun l hl s =>
        ih l hl (hleaves l hl) s (settings.baseIn base)
      rw [buildLayer]
      refine .lift_bind operationsOf_ok_iff fun _ _ => ?_
      show Outcome s (if layers.isEmpty = true then _ else _) _ _ _
      rw [← List.isEmpty_eq_false_iff, ← Bool.not_eq_true]
      refine .guard fun _ => ?_
      simpa only [and_true, Layer.Stuck] using hlayers.bind fun fs t _ _ hfs =>
        outcome_buildUnion t base hfs.1 hfs.2

/-! ## Manifests -/

/-- The manifest as a layer. -/
def toLayer (m : Manifest) : Layer := .union m.settings m.layers none

theorem build_eq_buildLayer (m : Manifest) (base : Option String) :
    m.build base = buildLayer base m.toLayer := by
  rw [toLayer, buildLayer, build]
  rfl

end Strata.Manifest
