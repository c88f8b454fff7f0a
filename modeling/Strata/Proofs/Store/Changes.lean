/-
# `Strata.Proofs.Store.Changes` — what a change through one layer changes in all

Layers may stand on the same memory filesystem, so a change through one of them
is seen in others.  It is still one change of one tree: every layer keeps a clean
tree, and a path outside of what was touched is in each layer what it was.
-/
import Strata.Proofs.Memory.Changes
import Strata.Proofs.Store.Layers

namespace Strata

open Strata.Action Strata.Path

variable {α : Type} {s s' s'' : Store} {layers : List Filesystem} {f : Filesystem}
  {touched : List String → Prop}

namespace Store

/-- The layers allow what they did, keep clean trees, and have at all other paths what they had. -/
structure Shift (s s' : Store) (layers : List Filesystem) (touched : List String → Prop) :
    Prop where
  clean : ∀ f ∈ layers, f.CleanTree s'
  allows : ∀ f ∈ layers, f.allows s' = f.allows s
  kinds : ∀ f ∈ layers, ∀ ns, (∀ n ∈ ns, IsName n) → ¬ touched ns →
    (f.outline s').kind (ofNames ns) = (f.outline s).kind (ofNames ns)

theorem Shift.refl (hs : ∀ f ∈ layers, f.CleanTree s) (touched : List String → Prop) :
    s.Shift s layers touched := ⟨hs, fun _ _ => rfl, fun _ _ _ _ _ => rfl⟩

theorem Shift.trans (h : s.Shift s' layers touched) (h' : s'.Shift s'' layers touched) :
    s.Shift s'' layers touched where
  clean := h'.clean
  allows f hf := (h'.allows f hf).trans (h.allows f hf)
  kinds f hf ns hn ht := (h'.kinds f hf ns hn ht).trans (h.kinds f hf ns hn ht)

theorem SameTrees.shift (h : s.SameTrees s') (hs : ∀ f ∈ layers, f.CleanTree s)
    (touched : List String → Prop) : s.Shift s' layers touched where
  clean f hf := (hs f hf).congr h
  allows f _ := Filesystem.allows_congr h f
  kinds f _ ns _ _ := by rw [Filesystem.outline_congr h]

/-- The store with another state of a memory filesystem. -/
def setMemory (s : Store) (id : Nat) (m : Memory) : Store :=
  { s with memories := s.memories.setIfInBounds id m }

theorem exec_inMemory (id : Nat) (x : Action Memory α) (s : Store) :
    (inMemory id x).exec s = ((x.exec (s.memory id)).1, s.setMemory id (x.exec (s.memory id)).2) :=
  rfl

theorem setIfInBounds_getD {α : Type} (a : Array α) (i : Nat) (d : α) :
    a.setIfInBounds i (a.getD i d) = a := by
  refine Array.ext_getElem? ?_
  intro j
  rw [Array.getElem?_setIfInBounds, Array.getD_eq_getD_getElem?]
  split
  · rename_i h
    subst h
    by_cases hs : i < a.size <;> simp [hs]
  · rfl

theorem setMemory_self (s : Store) (id : Nat) : s.setMemory id (s.memory id) = s := by
  rw [setMemory, memory, setIfInBounds_getD]

theorem setOverlay_self (s : Store) (id : Nat) : s.setOverlay id (s.overlay id) = s := by
  rw [setOverlay, overlay, setIfInBounds_getD]

theorem memory_setMemory (s : Store) (id : Nat) (m : Memory) (j : Nat) :
    (s.setMemory id m).memory j = if j = id ∧ id < s.memories.size then m else s.memory j := by
  simp only [memory, setMemory, Array.getD_eq_getD_getElem?, Array.getElem?_setIfInBounds]
  by_cases hj : id = j
  · subst hj
    by_cases hs : id < s.memories.size <;> simp [hs]
  · simp [hj, Ne.symm hj]

/-- Below the root, only a memory filesystem of the store has something. -/
theorem lt_of_exists {id : Nat} {ns : List String} (hn : ∀ n ∈ ns, IsComponent n) (h0 : ns ≠ [])
    (h : ((s.memory id).kind (ofNames ns)).exists? = true) : id < s.memories.size := by
  by_contra hid
  have hempty : s.memory id = {} := by
    simp [memory, Array.getElem?_eq_none (Nat.not_lt.mp hid)]
  have hroot : (({} : Memory).kind (ofNames ns)) = .unknown := by
    have hne : ofNames ns ≠ "" := fun he => h0 ((ofNames_eq_empty hn).mp he)
    show (Memory.Tree.put ⟨Table.empty⟩ "" _).kind (ofNames ns) = .unknown
    rw [Memory.Tree.kind_put, if_neg hne]
    rfl
  rw [hempty, hroot] at h
  cases h

/-- A change of a memory filesystem, as the filesystems around it see it. -/
theorem shift_layer {id : Nat} {m : Memory} (h : Memory.Shift (s.memory id) m touched)
    (hf : f.CleanTree s) :
    f.CleanTree (s.setMemory id m) ∧ f.allows (s.setMemory id m) = f.allows s ∧
      ∀ ns, (∀ n ∈ ns, IsName n) → ¬ touched ns →
        (f.outline (s.setMemory id m)).kind (ofNames ns) = (f.outline s).kind (ofNames ns) := by
  induction f with
  | memory j =>
      simp only [Filesystem.CleanTree, Filesystem.allows, Filesystem.outline, memory_setMemory]
      split
      · rename_i hj
        obtain ⟨rfl, -⟩ := hj
        exact ⟨h.clean, h.operations, h.kinds⟩
      · exact ⟨hf, rfl, fun _ _ _ => rfl⟩
  | archive j => exact ⟨hf, rfl, fun _ _ _ => rfl⟩
  | probed p inner ih => exact ih hf
  | _ => exact hf.elim

theorem shift_setMemory {id : Nat} {m : Memory} (hs : ∀ f ∈ layers, f.CleanTree s)
    (h : Memory.Shift (s.memory id) m touched) : s.Shift (s.setMemory id m) layers touched where
  clean f hf := (shift_layer h (hs f hf)).1
  allows f hf := (shift_layer h (hs f hf)).2.1
  kinds f hf := (shift_layer h (hs f hf)).2.2

end Store

open Store

namespace Filesystem

variable (n : Nat) (hs : ∀ g ∈ layers, g.CleanTree s) (hf : f.CleanTree s) {path : String}
  (hp : Path.Clean path)
include hs hf hp

/-! ## Creating -/

/-- A new entry changes the layers where its first name leads, and below. -/
theorem exec_create (kind : Kind) {name : String}
    (hname : ∀ n ∈ components (normalize name false), IsName n) :
    ∃ r s', ((Store.provider (n + 1)).create (f.entryAt path) kind name).exec s = (r, s') ∧
      (∀ e, r = .error e → s' = s) ∧
      ∀ e, r = .ok e →
        e = f.entryAt (ofNames (components path ++ components (normalize name false))) ∧
        s.Shift s' layers
          (Memory.Through (components path) (components (normalize name false))) := by
  show ∃ r s', (Entry.create _ (f.entryAt path) kind name).exec s = (r, s') ∧ _
  induction f with
  | memory id =>
      obtain ⟨r, m', he, herr, hok⟩ := Memory.exec_create s.clock hf hp kind hname
      simp only [entryAt, Entry.create, exec_bind, exec_get, exec_inMemory, he]
      cases r with
      | error e => exact ⟨_, _, rfl, fun _ _ => by rw [herr e rfl, setMemory_self], by simp⟩
      | ok p =>
          refine ⟨_, _, rfl, by simp, fun e he' => ?_⟩
          obtain rfl := Except.ok.inj he'
          obtain ⟨rfl, hshift⟩ := hok p rfl
          exact ⟨rfl, shift_setMemory hs hshift⟩
  | archive id => exact ⟨_, s, rfl, fun _ _ => rfl, by simp⟩
  | probed p inner ih =>
      obtain ⟨r, s', he, herr, hok⟩ := ih hf
      simp only [entryAt, Entry.create, exec_bind, he]
      cases r with
      | error e => exact ⟨_, s', rfl, fun _ _ => herr e rfl, by simp⟩
      | ok e =>
          refine ⟨_, s', rfl, by simp, fun e' he' => ?_⟩
          obtain rfl := Except.ok.inj he'
          obtain ⟨rfl, hshift⟩ := hok e rfl
          exact ⟨rfl, hshift⟩
  | _ => exact hf.elim

/-! ## Deleting -/

/-- Deleting changes the layers where the first name leads, and below, and fails nowhere in a
directory if deleting is allowed. -/
theorem exec_delete {name : String}
    (hname : ∀ n ∈ components (normalize name false), IsName n) :
    ∃ r s', ((Store.provider (n + 1)).delete (f.entryAt path) name).exec s = (r, s') ∧
      (∀ e, r = .error e → s' = s) ∧
      (∀ b, r = .ok b → (b = false → s' = s) ∧ s.Shift s' layers
        (Memory.Through (components path) (components (normalize name false)))) ∧
      ((f.allows s).covers (.only .delete) = true → (f.outline s).kind path = .directory →
        ∃ b, r = .ok b) := by
  show ∃ r s', (Entry.delete _ (f.entryAt path) name).exec s = (r, s') ∧ _
  induction f with
  | memory id =>
      obtain ⟨r, m', he, herr, hok, hcan⟩ := Memory.exec_delete hf hp hname
      refine ⟨r, s.setMemory id m', ?_, ?_, fun b hr => ⟨?_, ?_⟩, hcan⟩
      · simp only [entryAt, Entry.delete, exec_inMemory, he]
      · intro e hr
        rw [herr e hr, setMemory_self]
      · intro hb
        rw [(hok b hr).1 hb, setMemory_self]
      · exact shift_setMemory hs (hok b hr).2
  | archive id =>
      have hread : ¬ Archive.operations.covers (.only .delete) = true := by decide
      exact ⟨_, s, rfl, fun _ _ => rfl, by simp, fun hc => absurd hc hread⟩
  | probed p inner ih => exact ih hf
  | _ => exact hf.elim

/-! ## Opening -/

omit hp in
/-- Opening a stream changes nothing that a union could see. -/
theorem exec_openStream (path : String) (mode : OpenMode) (touched : List String → Prop) :
    ∃ r s', ((Store.provider (n + 1)).openStream (f.entryAt path) mode).exec s = (r, s') ∧
      s.Shift s' layers touched := by
  show ∃ r s', (Entry.openStream _ (f.entryAt path) mode).exec s = (r, s') ∧ _
  induction f generalizing s with
  | memory id =>
      obtain ⟨r, m', he, hshift⟩ := Memory.exec_openBuffer s.clock hf path mode touched
      simp only [entryAt, Entry.openStream, exec_bind, exec_get, exec_inMemory, he]
      cases r <;> exact ⟨_, _, rfl, shift_setMemory hs hshift⟩
  | archive id =>
      simp only [entryAt, Entry.openStream, exec_bind, exec_get, exec_ofExcept]
      cases (s.archive id).openBuffer path mode <;> exact ⟨_, s, rfl, .refl hs touched⟩
  | probed p inner ih =>
      have ht : s.SameTrees { s with probes := s.probes.setIfInBounds p (s.probe p).countOpen } :=
        ⟨rfl, rfl⟩
      obtain ⟨r, s', he, hshift⟩ := ih (fun g hg => (hs g hg).congr ht) (CleanTree.congr ht hf)
      have hcount : (Store.changeProbe p Probe.countOpen).exec s
          = (.ok (), { s with probes := s.probes.setIfInBounds p (s.probe p).countOpen }) := rfl
      simp only [entryAt, Entry.openStream, exec_bind, exec_get, hcount]
      split
      · exact ⟨_, _, rfl, ht.shift hs touched⟩
      · exact ⟨r, s', he, (ht.shift hs touched).trans hshift⟩
  | _ => exact hf.elim

/-! ## Moving -/

omit hs hf hp in
/-- What moving an entry of a layer leaves behind: the layers differ below the entry and below the
first part of the target that the layer did not have. -/
structure Renamed (s s' : Store) (layers : List Filesystem) (f : Filesystem)
    (source target : List String) : Prop where
  inner : source ≠ []
  present : ((f.outline s).kind (ofNames source)).exists? = true
  moved : ∀ ks, (∀ k ∈ ks, IsName k) →
    (f.outline s').kind (ofNames (target ++ ks)) = (f.outline s).kind (ofNames (source ++ ks))
  shift : ∃ front x, front ++ [x] <+: target ∧
    (f.outline s).kind (ofNames front) = .directory ∧
    (f.outline s).kind (ofNames (front ++ [x])) = .unknown ∧
    s.Shift s' layers fun ns => source <+: ns ∨ front ++ [x] <+: ns

/-- Moving an entry of a layer: it fails before it changes anything. -/
theorem exec_rename {target : String}
    (htarget : ∀ n ∈ components (normalize target false), IsName n) :
    ∃ r s', ((Store.provider (n + 1)).rename (f.entryAt path) target).exec s = (r, s') ∧
      (∀ e, r = .error e → s' = s) ∧
      (r = .ok () →
        Renamed s s' layers f (components path) (components (normalize target false))) := by
  show ∃ r s', (Entry.rename _ (f.entryAt path) target).exec s = (r, s') ∧ _
  induction f with
  | memory id =>
      obtain ⟨r, m', he, herr, hok⟩ := Memory.exec_rename s.clock hf hp htarget
      simp only [entryAt, Entry.rename, exec_bind, exec_get, exec_inMemory, he]
      refine ⟨_, _, rfl, fun e hr => by rw [herr e hr, setMemory_self], fun hr => ?_⟩
      obtain ⟨hops, hclean, hinner, hpresent, hmoved, front, x, hpre, hdir, hgap, hkinds⟩ := hok hr
      have hid := lt_of_exists (fun n hn => (hp.isName hn).1) hinner hpresent
      refine ⟨hinner, hpresent, ?_, front, x, hpre, hdir, hgap, ?_⟩
      · intro ks hk
        rw [outline, memory_setMemory, if_pos ⟨rfl, hid⟩]
        exact hmoved ks hk
      · exact shift_setMemory hs ⟨hops, hclean, fun ns hns ht =>
          hkinds ns hns (fun h => ht (.inl h)) fun h => ht (.inr h)⟩
  | archive id => exact ⟨_, s, rfl, fun _ _ => rfl, by simp⟩
  | probed p inner ih =>
      obtain ⟨r, s', he, herr, hok⟩ := ih hf
      refine ⟨r, s', he, herr, ?_⟩
      intro hr
      obtain ⟨hinner, hpresent, hmoved, hshift⟩ := hok hr
      exact ⟨hinner, hpresent, hmoved, hshift⟩
  | _ => exact hf.elim

end Filesystem

end Strata
