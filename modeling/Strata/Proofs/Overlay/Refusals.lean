/-
# `Strata.Proofs.Overlay.Refusals` — which layer makes a new entry when others fail

A union asks its layers for a new entry from the top down.  A layer is passed over if
it cannot make entries, if it finds no directory at the path, and if it fails by its
own fault; the first that is not passed over decides.  It makes the entry, or it
refuses what the caller asked for, and then the union refuses it, too.

No layer is asked after that, so what the call changes is at most one memory
filesystem; and a layer that refuses has not changed anything (`create_asks_in_order`).
-/
import Strata.Proofs.Memory.AnyName
import Strata.Proofs.Overlay.Removal

namespace Strata

open Strata.Action Strata.Path

namespace Filesystem

/-- The filesystem can make entries, and finds a directory at the path. -/
structure Finds (s : Store) (path : String) (f : Filesystem) (id : Nat) : Prop where
  memory : f.memory? = some id
  allowed : (s.memory id).operations.covers (.only .create) = true
  lookup : path ≠ "" → f.childFault = none
  directory : (s.memory id).kind path = .directory

/-- The filesystem makes the entry of a name in the directory at the path: it is told the path of the
entry, and what is left of the memory filesystem. -/
structure Makes (s : Store) (path : String) (kind : Kind) (name : String) (f : Filesystem) (id : Nat)
    (made : String) (after : Memory) : Prop where
  finds : f.Finds s path id
  works : f.createFault = none
  exec : (Memory.create s.clock path kind name).exec (s.memory id) = (.ok made, after)

/-- The filesystem can make entries, and fails when it is asked for one in the directory at the path:
in the lookup, unless that says that there is no directory, or when the entry is to be made. -/
inductive Fails (s : Store) (path : String) (kind : Kind) (name : String) (f : Filesystem) (id : Nat)
    (e : Failure) : Prop
  | lookup (memory : f.memory? = some id)
      (allowed : (s.memory id).operations.covers (.only .create) = true) (inner : path ≠ "")
      (fault : f.childFault = some e) (other : ∀ q, e ≠ .notADirectory q)
  | fault (finds : f.Finds s path id) (fault : f.createFault = some e)
  | refuses (finds : f.Finds s path id) (works : f.createFault = none)
      (exec : ((Memory.create s.clock path kind name).exec (s.memory id)).1 = .error e)

/-- The filesystem leaves the entry to others: it does not make it, and if it fails, then by its own
fault. -/
structure Passes (s : Store) (path : String) (kind : Kind) (name : String) (f : Filesystem) :
    Prop where
  makes : ∀ id made after, ¬ f.Makes s path kind name id made after
  fails : ∀ id e, f.Fails s path kind name id e → e.isFilesystem = true

/-- The filesystem can make entries, has a directory at the path that a lookup does not deny, and
does not fail by its own fault. -/
structure Candidate (s : Store) (path : String) (kind : Kind) (name : String) (f : Filesystem)
    (id : Nat) : Prop where
  memory : f.memory? = some id
  allowed : (s.memory id).operations.covers (.only .create) = true
  directory : (s.memory id).kind path = .directory
  admits : path ≠ "" → ∀ q, f.childFault ≠ some (.notADirectory q)
  fails : ∀ e, f.Fails s path kind name id e → e.isFilesystem = false

variable {s : Store} {path : String} {kind : Kind} {name : String} {f : Filesystem} {id : Nat}

theorem Fails.memory {e : Failure} (h : f.Fails s path kind name id e) : f.memory? = some id := by
  cases h with
  | lookup hm => exact hm
  | fault hfinds => exact hfinds.memory
  | refuses hfinds => exact hfinds.memory

theorem Fails.allowed {e : Failure} (h : f.Fails s path kind name id e) :
    (s.memory id).operations.covers (.only .create) = true := by
  cases h with
  | lookup _ hallow => exact hallow
  | fault hfinds => exact hfinds.allowed
  | refuses hfinds => exact hfinds.allowed

/-- What does not leave the entry to others makes it, or fails by the fault of the caller. -/
theorem exists_of_not_passes (h : ¬ f.Passes s path kind name) :
    (∃ id made after, f.Makes s path kind name id made after) ∨
      ∃ id e, f.Fails s path kind name id e ∧ e.isMisuse = true := by
  by_contra hno
  obtain ⟨hmakes, hfails⟩ := not_or.mp hno
  refine h ⟨fun id made after hm => hmakes ⟨id, made, after, hm⟩, fun id e he => ?_⟩
  by_contra hfs
  refine hfails ⟨id, e, he, ?_⟩
  rw [Failure.isMisuse_eq_not_isFilesystem, Bool.eq_false_iff.mpr hfs]
  rfl

theorem Makes.candidate {made : String} {after : Memory}
    (h : f.Makes s path kind name id made after) : f.Candidate s path kind name id where
  memory := h.finds.memory
  allowed := h.finds.allowed
  directory := h.finds.directory
  admits h0 q hq := by rw [h.finds.lookup h0] at hq; cases hq
  fails e he := by
    cases he with
    | lookup _ _ h0 hfault => rw [h.finds.lookup h0] at hfault; cases hfault
    | fault _ hfault => rw [h.works] at hfault; cases hfault
    | refuses _ _ hexec => rw [h.exec] at hexec; cases hexec

/-- A candidate decides. -/
theorem Candidate.not_passes (h : f.Candidate s path kind name id) :
    ¬ f.Passes s path kind name := by
  intro hpass
  have hno (e : Failure) : ¬ f.Fails s path kind name id e := by
    intro he
    have := hpass.fails id e he
    rw [h.fails e he] at this
    cases this
  have hlookup : path ≠ "" → f.childFault = none := by
    intro h0
    refine Option.eq_none_iff_forall_ne_some.mpr fun e he => ?_
    refine hno e (.lookup h.memory h.allowed h0 he ?_)
    rintro q rfl
    exact h.admits h0 q he
  have hfinds : f.Finds s path id := ⟨h.memory, h.allowed, hlookup, h.directory⟩
  have hworks : f.createFault = none :=
    Option.eq_none_iff_forall_ne_some.mpr fun e he => hno e (.fault hfinds he)
  rcases hexec : (Memory.create s.clock path kind name).exec (s.memory id) with ⟨e | made, after⟩
  · exact hno e (.refuses hfinds hworks (by rw [hexec]))
  · exact hpass.makes id made after ⟨hfinds, hworks, hexec⟩

end Filesystem

namespace Overlay

section
variable {s : Store} {path : String} {kind : Kind} {name : String} {f : Filesystem} {id : Nat}
  (n : Nat) (h : f.Backed s id) (hp : Path.Clean path)
include h hp

/-! ## One layer -/

theorem exec_createInLayer_of_makes {made : String} {after : Memory}
    (hm : f.Makes s path kind name id made after) :
    (createInLayer (Store.provider (n + 1)) path kind name f).exec s =
      (.ok (some (f.handle made)), s.setMemory id after) := by
  have hcreate : ((Store.provider (n + 1)).create (f.handle path) kind name).exec s = _ :=
    f.exec_create_handle (Store.provider n) h.memory path kind name
  rw [createInLayer]
  simp only [exec_bind, f.exec_resolveDirectory_handle n h hp hm.finds.lookup,
    if_pos hm.finds.directory, hcreate, hm.works, hm.exec, Except.map, exec_pure]

/-- A layer that fails has changed nothing. -/
theorem exec_createInLayer_of_fails {e : Failure} (he : f.Fails s path kind name id e) :
    (createInLayer (Store.provider (n + 1)) path kind name f).exec s = (.error e, s) := by
  have hcreate : ((Store.provider (n + 1)).create (f.handle path) kind name).exec s = _ :=
    f.exec_create_handle (Store.provider n) h.memory path kind name
  rw [createInLayer]
  cases he with
  | lookup _ _ h0 hfault hother =>
      simp only [exec_bind, f.exec_resolveDirectory_of_fault n h.memory h0 hfault hother]
  | fault hfinds hfault =>
      simp only [exec_bind, f.exec_resolveDirectory_handle n h hp hfinds.lookup,
        if_pos hfinds.directory, hcreate, hfault]
  | refuses hfinds hworks hexec =>
      have hsame := (Memory.create_whole h.clean.parented s.clock path kind name hexec).2
      simp only [exec_bind, f.exec_resolveDirectory_handle n h hp hfinds.lookup,
        if_pos hfinds.directory, hcreate, hworks, hexec, hsame, Except.map, s.setMemory_self]

/-- A layer that neither makes the entry nor fails finds no directory. -/
theorem exec_createInLayer_of_absent
    (hallow : (s.memory id).operations.covers (.only .create) = true)
    (hmakes : ∀ made after, ¬ f.Makes s path kind name id made after)
    (hfails : ∀ e, ¬ f.Fails s path kind name id e) :
    (createInLayer (Store.provider (n + 1)) path kind name f).exec s = (.ok none, s) := by
  rw [createInLayer]
  by_cases hlookup : path ≠ "" → f.childFault = none
  · have hno : (s.memory id).kind path ≠ .directory := by
      intro hd
      have hfinds : f.Finds s path id := ⟨h.memory, hallow, hlookup, hd⟩
      have hworks : f.createFault = none :=
        Option.eq_none_iff_forall_ne_some.mpr fun e he => hfails e (.fault hfinds he)
      rcases hexec : (Memory.create s.clock path kind name).exec (s.memory id)
        with ⟨e | made, after⟩
      · exact hfails e (.refuses hfinds hworks (by rw [hexec]))
      · exact hmakes made after ⟨hfinds, hworks, hexec⟩
    simp only [exec_bind, f.exec_resolveDirectory_handle n h hp hlookup, if_neg hno, exec_pure]
  · obtain ⟨h0, hne⟩ := Classical.not_imp.mp hlookup
    obtain ⟨e, he⟩ := Option.ne_none_iff_exists'.mp hne
    obtain ⟨q, rfl⟩ : ∃ q, e = .notADirectory q := by
      by_contra hno
      exact hfails e (.lookup h.memory hallow h0 he fun q hq => hno ⟨q, hq⟩)
    simp only [exec_bind, f.exec_resolveDirectory_of_notADirectory n h.memory h0 he, exec_pure]

end

/-! ## One layer after the other -/

section
variable {s : Store} {path : String} {kind : Kind} {name : String} {f : Filesystem} {id : Nat}
  (n : Nat) (hp : Path.Clean path) (layer : Nat) (rest : List Filesystem)
include hp

/-- The layers after one that leaves the entry to others are asked as if it were not there. -/
theorem exec_createFrom_of_passes (h : f.Backed s id) (hpass : f.Passes s path kind name) :
    (createFrom (Store.provider (n + 1)) path kind name layer (f :: rest)).exec s =
      (createFrom (Store.provider (n + 1)) path kind name (layer + 1) rest).exec s := by
  have hops : (Store.provider (n + 1)).operations f s = (s.memory id).operations :=
    f.operations_of_memory _ h.memory
  rw [createFrom]
  simp only [exec_bind, exec_get, exec_ite, hops]
  by_cases hallow : (s.memory id).operations.covers (.only .create) = true
  swap
  · simp only [if_neg hallow, exec_pure]
  simp only [if_pos hallow, exec_consult]
  by_cases hfails : ∃ e, f.Fails s path kind name id e
  · obtain ⟨e, he⟩ := hfails
    have hmisuse : e.isMisuse = false := by
      rw [Failure.isMisuse_eq_not_isFilesystem, hpass.fails id e he]
      rfl
    simp only [exec_createInLayer_of_fails n h hp he, hmisuse, Bool.false_eq_true, if_false]
  · have habsent := exec_createInLayer_of_absent n h hp hallow (hpass.makes id)
      fun e he => hfails ⟨e, he⟩
    simp only [habsent]

theorem exec_createFrom_of_makes (h : f.Backed s id) {made : String} {after : Memory}
    (hm : f.Makes s path kind name id made after) :
    (createFrom (Store.provider (n + 1)) path kind name layer (f :: rest)).exec s =
      (.ok (some ⟨normalize (f.handle made).path false, f.handle made, layer⟩),
        s.setMemory id after) := by
  have hops : (Store.provider (n + 1)).operations f s = (s.memory id).operations :=
    f.operations_of_memory _ h.memory
  rw [createFrom]
  simp only [exec_bind, exec_get, hops, if_pos hm.finds.allowed, exec_consult,
    exec_createInLayer_of_makes n h hp hm]
  rfl

theorem exec_createFrom_of_fails (h : f.Backed s id) {e : Failure}
    (he : f.Fails s path kind name id e) (hmisuse : e.isMisuse = true) :
    (createFrom (Store.provider (n + 1)) path kind name layer (f :: rest)).exec s
      = (.error e, s) := by
  have hops : (Store.provider (n + 1)).operations f s = (s.memory id).operations :=
    f.operations_of_memory _ h.memory
  rw [createFrom]
  simp only [exec_bind, exec_get, hops, if_pos he.allowed, exec_consult,
    exec_createInLayer_of_fails n h hp he, hmisuse, if_true]

/-- The layers that leave the entry to others, one after the other. -/
theorem exec_createFrom_passes {before : List Filesystem}
    (hb : ∀ g ∈ before, (∃ id, g.Backed s id) ∧ g.Passes s path kind name) :
    (createFrom (Store.provider (n + 1)) path kind name layer (before ++ rest)).exec s =
      (createFrom (Store.provider (n + 1)) path kind name (layer + before.length) rest).exec s := by
  induction before generalizing layer with
  | nil => rfl
  | cons g before ih =>
      obtain ⟨⟨⟨j, hg⟩, hpass⟩, hb⟩ := List.forall_mem_cons.mp hb
      rw [List.cons_append, exec_createFrom_of_passes n hp layer _ hg hpass, ih _ hb,
        List.length_cons, Nat.add_assoc, Nat.add_comm 1]

end

/-- Either all layers leave the entry to others, or there is a first that does not. -/
theorem exists_first {α : Type} (p : α → Prop) (l : List α) :
    (∀ a ∈ l, p a) ∨ ∃ before a after, l = before ++ a :: after ∧ (∀ b ∈ before, p b) ∧ ¬ p a := by
  classical
  cases h : l.find? (fun a => !decide (p a)) with
  | none => exact .inl fun a ha => by simpa using List.find?_eq_none.mp h a ha
  | some a =>
      obtain ⟨ha, before, after, rfl, hbefore⟩ := List.find?_eq_some_iff_append.mp h
      exact .inr ⟨before, a, after, rfl, by simpa using hbefore, by simpa using ha⟩

/-! ## Making an entry through a union -/

section
variable {w : Store × Overlay Filesystem Entry} {node : Node Entry} {kind : Kind} {name : String}
  (n : Nat) (hlive : w.2.released = false) (hs : ∀ f ∈ w.2.layers, ∃ id, f.Backed w.1 id)
  (hp : Path.Clean node.path) (hk : kind.isCreatable = true)
  (hd : Overlay.kind (Store.provider (n + 1)) node w.1 = .directory)
  (h0 : normalize name false ≠ "")
include hlive hp hk hd h0

/-- A layer that fails by the fault of the caller, after others that leave the entry to it, ends the
call. -/
theorem exec_create_of_fails {before later : List Filesystem} {f : Filesystem} {id : Nat}
    {e : Failure} (hl : w.2.layers = before ++ f :: later)
    (hb : ∀ g ∈ before, (∃ j, g.Backed w.1 j) ∧ g.Passes w.1 node.path kind (normalize name false))
    (hf : f.Backed w.1 id) (he : f.Fails w.1 node.path kind (normalize name false) id e)
    (hmisuse : e.isMisuse = true) :
    (create (Store.provider (n + 1)) node kind name).exec w = (.error e, w) := by
  have hcan : (operations (Store.provider (n + 1)) w.2 w.1).covers (.only .create) = true := by
    rw [operations_covers_only]
    refine List.any_eq_true.mpr ⟨f, by simp [hl], ?_⟩
    rw [show (Store.provider (n + 1)).operations f w.1 = _ from f.operations_of_memory _ hf.memory]
    exact he.allowed
  obtain ⟨hno, -⟩ | ⟨-, -, -, -, hexec⟩ :=
    create_cases (Store.provider (n + 1)) w hlive node kind name
  · exact absurd ⟨hcan, hk, by rw [hd]; rfl, h0⟩ hno
  · rw [hexec, hl, exec_createFrom_passes n hp 0 _ hb,
      exec_createFrom_of_fails n hp _ later hf he hmisuse]

end

/-- Either nothing has changed, or the first layer that does not leave the entry to others has made
it. -/
theorem exec_create_outcome {w : Store × Overlay Filesystem Entry} {node : Node Entry} (n : Nat)
    (hlive : w.2.released = false) (hs : ∀ f ∈ w.2.layers, ∃ id, f.Backed w.1 id)
    (hp : Path.Clean node.path) (hd : Overlay.kind (Store.provider (n + 1)) node w.1 = .directory)
    (kind : Kind) (name : String) :
    (∃ e, (create (Store.provider (n + 1)) node kind name).exec w = (.error e, w)) ∨
    ∃ before f after id made mem,
      w.2.layers = before ++ f :: after ∧
      (∀ g ∈ before, g.Passes w.1 node.path kind (normalize name false)) ∧
      f.Makes w.1 node.path kind (normalize name false) id made mem ∧
      (create (Store.provider (n + 1)) node kind name).exec w =
        (.ok ((noted w.2 node.slot).addNode
            ⟨normalize (f.handle made).path false, f.handle made, before.length⟩).1,
          (w.1.setMemory id mem, ((noted w.2 node.slot).addNode
            ⟨normalize (f.handle made).path false, f.handle made, before.length⟩).2)) := by
  obtain ⟨-, e, he⟩ | ⟨-, hk, -, h0, hexec⟩ :=
    create_cases (Store.provider (n + 1)) w hlive node kind name
  · exact .inl ⟨e, he⟩
  rcases exists_first (Filesystem.Passes w.1 node.path kind (normalize name false)) w.2.layers
    with hall | ⟨before, f, after, hl, hb, hf⟩
  · -- no layer is left to make the entry
    have hnone := exec_createFrom_passes n hp 0 [] fun g hg => ⟨hs g hg, hall g hg⟩
    rw [List.append_nil] at hnone
    rw [hnone] at hexec
    exact .inl ⟨_, hexec⟩
  have hb' : ∀ g ∈ before, (∃ j, g.Backed w.1 j) ∧
      g.Passes w.1 node.path kind (normalize name false) :=
    fun g hg => ⟨hs g (by simp [hl, hg]), hb g hg⟩
  obtain ⟨j, hback⟩ := hs f (by simp [hl])
  rcases Filesystem.exists_of_not_passes hf with ⟨id, made, mem, hm⟩ | ⟨id, e, he, hmisuse⟩
  · obtain rfl : id = j := Option.some.inj (hm.finds.memory.symm.trans hback.memory)
    rw [hl, exec_createFrom_passes n hp 0 _ hb', exec_createFrom_of_makes n hp _ after hback hm,
      Nat.zero_add] at hexec
    exact .inr ⟨before, f, after, id, made, mem, hl, hb, hm, hexec⟩
  · obtain rfl : id = j := Option.some.inj (he.memory.symm.trans hback.memory)
    exact .inl ⟨e, exec_create_of_fails n hlive hp hk hd h0 hl hb' hback he hmisuse⟩

/-- Whatever was done with a union over memory filesystems, and however their wrappers fail: a new
entry is made by the first layer that can make entries, has the directory, admits that it has it and
does not fail by its own fault, and only the memory filesystem of that layer changes; a call that fails
changes nothing.  And a layer that fails by the fault of the caller ends the call: the layers below it
make no difference. -/
theorem create_asks_in_order {n : Nat} {layers₀ : List Filesystem} {fold : Bool} {policy : Policy}
    {s₀ : Store} {held : List (Node Entry)} {w : Store × Overlay Filesystem Entry}
    (h : Reaches (Store.provider (n + 1)) (fun _ _ => True) (fun _ _ => True) [.root]
      (s₀, { layers := layers₀, fold := fold, policy := policy }) held w)
    (hs : ∀ f ∈ w.2.layers, ∃ id, f.Backed w.1 id) {node : Node Entry} (hnode : node ∈ held)
    (hd : Overlay.kind (Store.provider (n + 1)) node w.1 = .directory) (kind : Kind)
    (name : String) :
    ∃ r s' o', (create (Store.provider (n + 1)) node kind name).exec w = (r, (s', o')) ∧
      (∀ m, r = .ok m → ∃ before f after id made mem,
        w.2.layers = before ++ f :: after ∧
        (∀ g ∈ before, ∀ j, ¬ g.Candidate w.1 node.path kind (normalize name false) j) ∧
        f.Candidate w.1 node.path kind (normalize name false) id ∧
        f.Makes w.1 node.path kind (normalize name false) id made mem ∧
        m.source? = some (f.handle made) ∧ m.layer? = some before.length ∧
        s' = w.1.setMemory id mem ∧ ∀ j, j ≠ id → s'.memory j = w.1.memory j) ∧
      (∀ e, r = .error e → s' = w.1) ∧
      ∀ before f after id e, w.2.layers = before ++ f :: after → kind.isCreatable = true →
        normalize name false ≠ "" →
        (∀ g ∈ before, g.Passes w.1 node.path kind (normalize name false)) →
        f.Fails w.1 node.path kind (normalize name false) id e → e.isMisuse = true →
        r = .error e ∧ ∀ later,
          (create (Store.provider (n + 1)) node kind name).exec
              (w.1, { w.2 with layers := before ++ f :: later }) =
            (.error e, (w.1, { w.2 with layers := before ++ f :: later })) := by
  have hp : Path.Clean node.path :=
    clean_path_of_directory hs (h.origin (Store.provider_closed n) node hnode) hd
  have hlive := h.steady.released
  -- what ends the call does so whatever layers come after it
  have hends {before after : List Filesystem} {f : Filesystem} {id : Nat} {e : Failure}
      (hl : w.2.layers = before ++ f :: after) (hk : kind.isCreatable = true)
      (h0 : normalize name false ≠ "")
      (hb : ∀ g ∈ before, g.Passes w.1 node.path kind (normalize name false))
      (he : f.Fails w.1 node.path kind (normalize name false) id e) (hm : e.isMisuse = true)
      (later : List Filesystem) :
      (create (Store.provider (n + 1)) node kind name).exec
          (w.1, { w.2 with layers := before ++ f :: later }) =
        (.error e, (w.1, { w.2 with layers := before ++ f :: later })) := by
    obtain ⟨j, hf⟩ := hs f (by simp [hl])
    obtain rfl : id = j := Option.some.inj (he.memory.symm.trans hf.memory)
    exact exec_create_of_fails (w := (w.1, { w.2 with layers := before ++ f :: later })) n hlive hp
      hk hd h0 rfl
      (fun g hg => ⟨hs g (by simp [hl, hg]), hb g hg⟩) hf he hm
  have hout := exec_create_outcome n hlive hs hp hd kind name
  rcases hexec : (create (Store.provider (n + 1)) node kind name).exec w with ⟨r, s', o'⟩
  rw [hexec] at hout
  refine ⟨r, s', o', rfl, ?_, ?_, ?_⟩
  · rintro m rfl
    obtain ⟨e, he⟩ | ⟨before, f, after, id, made, mem, hl, hb, hmakes, he⟩ := hout
    · cases he
    · cases he
      refine ⟨before, f, after, id, made, mem, hl, fun g hg j hc => hc.not_passes (hb g hg),
        hmakes.candidate, hmakes, rfl, rfl, rfl, fun j hj => ?_⟩
      rw [Store.memory_setMemory, if_neg fun h => hj h.1]
  · rintro e rfl
    obtain ⟨e', he⟩ | ⟨before, f, after, id, made, mem, -, -, -, he⟩ := hout
    · cases he
      rfl
    · cases he
  · intro before f after id e hl hk h0 hb he hm
    refine ⟨?_, hends hl hk h0 hb he hm⟩
    have := hends hl hk h0 hb he hm after
    rw [← hl] at this
    exact congrArg Prod.fst (hexec.symm.trans this)

/-- A layer that may not be asked for new entries, although it says that it can make them, keeps the
layer below it from being asked. -/
theorem create_asks_in_order_refused :
    let refusing : Filesystem := .faulty { create := some (.unsupported "new") } (.memory 0)
    let o : Overlay Filesystem Entry := { layers := [refusing, .memory 1] }
    Reaches (Store.provider 1) (fun _ _ => True) (fun _ _ => True) [.root] (twins, o) [.root]
        (twins, o) ∧
      (∀ f ∈ o.layers, ∃ id, f.Backed twins id) ∧
      Overlay.kind (Store.provider 1) .root twins = .directory ∧
      ∃ o', (create (Store.provider 1) .root .file "x").exec (twins, o)
        = (.error (.unsupported "new"), (twins, o')) := by
  intro refusing o
  have hs : ∀ f ∈ o.layers, ∃ id, f.Backed twins id := by
    simp only [o, List.forall_mem_cons]
    exact ⟨⟨0, rfl, by decide⟩, ⟨1, rfl, by decide⟩, by simp⟩
  obtain ⟨r, s', o', hexec, -, herr, hends⟩ :=
    create_asks_in_order .start hs (List.mem_singleton_self Node.root) rfl .file "x"
  have hfinds : refusing.Finds twins "" 0 := ⟨rfl, by decide, by simp, by decide⟩
  obtain ⟨rfl, -⟩ := hends [] refusing [.memory 1] 0 (.unsupported "new") rfl rfl (by decide)
    (List.forall_mem_nil _) (.fault hfinds rfl) rfl
  obtain rfl := herr _ rfl
  exact ⟨.start, hs, rfl, o', hexec⟩

/-- A layer that has the directory, but whose lookups all say that they ran into a file, is taken for
one that has it not: the entry is made in the layer below it. -/
theorem denied_directory_skipped :
    let P := Store.provider 1
    let denying : Filesystem := .faulty { child := some (.notADirectory "a") } (.memory 0)
    let w : Store × Overlay Filesystem Entry := (twins, { layers := [denying, .memory 1] })
    let made : Call Store Filesystem Entry (Option (Node Entry)) := do
      match ← children P .root with
      | node :: _ => return some (← create P node .file "x")
      | [] => return none
    (∀ f ∈ w.2.layers, ∃ id, f.Backed twins id) ∧
      (twins.memory 0).operations.covers (.only .create) = true ∧
      (twins.memory 0).kind "a" = .directory ∧
      (∀ e, denying.childFault = some e ∨ denying.createFault = some e → e.isFilesystem = false) ∧
      (made.exec w).1.toOption.map (·.map fun m => (m.path, m.layer?)) = some (some ("a/x", some 1)) ∧
      ((made.exec w).2.1.memory 0).kind "a/x" = .unknown ∧
      ((made.exec w).2.1.memory 1).kind "a/x" = .file := by
  intro P denying w made
  refine ⟨?_, by decide, by decide, ?_, by decide +kernel, by decide +kernel, by decide +kernel⟩
  · simp only [w, List.forall_mem_cons]
    exact ⟨⟨0, rfl, by decide⟩, ⟨1, rfl, by decide⟩, by simp⟩
  · rintro e (he | he)
    · cases he
      rfl
    · cases he

end Overlay

end Strata
