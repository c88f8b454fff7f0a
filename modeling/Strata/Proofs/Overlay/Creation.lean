/-
# `Strata.Proofs.Overlay.Creation` — where a new entry of a union goes

A union does not look at its merged listings to create an entry: the entry goes to
the first layer that can create and has the directory, its taker.  Only what the
taker has under the name decides whether the creation succeeds, so a file that one
layer shows may be hidden by a directory that another one is given
(`create_by_taker`).
-/
import Strata.Proofs.Memory.OneName
import Strata.Proofs.Overlay.Changes
import Strata.Proofs.Overlay.Requests
import Strata.Proofs.Store.Backing

namespace Strata

open Strata.Action Strata.Path

namespace Filesystem

/-- The memory filesystem that the filesystem stands on, if it stands on one, is in the store. -/
def Stored (s : Store) (f : Filesystem) : Prop := ∀ id, f.memory? = some id → id < s.memories.size

end Filesystem

variable {s : Store} {f g : Filesystem} {path name : String} {kind : Kind}

namespace Filesystem

/-- Only a memory filesystem can create. -/
theorem CleanTree.memory_of_creates (hf : f.CleanTree s)
    (hops : (f.allows s).covers (.only .create) = true) : ∃ id, f.memory? = some id := by
  induction f with
  | memory id => exact ⟨id, rfl⟩
  | archive id => exact absurd hops (by show ¬ Archive.operations.covers _ = true; decide)
  | probed p inner ih => exact ih hf hops
  | _ => exact hf.elim

/-- Creating a name in a directory puts a new node there, finds one of the kind, or is in conflict
with one of another kind. -/
theorem exec_create_name (n : Nat) (hf : f.CleanTree s) (hp : Path.Clean path)
    (hops : (f.allows s).covers (.only .create) = true) (hk : kind.isCreatable = true)
    (hd : (f.outline s).kind path = .directory) (hname : IsName name) :
    ((Store.provider (n + 1)).create (f.entryAt path) kind name).exec s =
      if (f.outline s).kind (join path name) = .unknown then
        (.ok (f.entryAt (join path name)), s.plant f (join path name) kind)
      else if (f.outline s).kind (join path name) = kind then
        (.ok (f.entryAt (join path name)), s)
      else (.error (.conflict (join path name)), s) := by
  show (Entry.create _ (f.entryAt path) kind name).exec s = _
  induction f with
  | memory id =>
      have hkind (q : String) : (outline s (.memory id)).kind q = (s.memory id).kind q := rfl
      simp only [entryAt, Entry.create, exec_bind, exec_get, Store.exec_inMemory, hkind,
        Memory.exec_create_name s.clock hf hp hops hk hd hname]
      by_cases hmiss : (s.memory id).kind (join path name) = .unknown
      · simp only [if_pos hmiss, exec_pure]
        rfl
      · by_cases hsame : (s.memory id).kind (join path name) = kind
        · simp only [if_neg hmiss, if_pos hsame, Store.setMemory_self, exec_pure]
        · simp only [if_neg hmiss, if_neg hsame, Store.setMemory_self]
  | archive id => exact absurd hops (by show ¬ Archive.operations.covers _ = true; decide)
  | probed p inner ih =>
      have hkind (q : String) : (outline s (.probed p inner)).kind q = (inner.outline s).kind q :=
        rfl
      simp only [entryAt, Entry.create, exec_bind, ih hf hops hd, hkind]
      by_cases hmiss : (inner.outline s).kind (join path name) = .unknown
      · simp only [if_pos hmiss, exec_pure]
        rfl
      · by_cases hsame : (inner.outline s).kind (join path name) = kind
        · simp only [if_neg hmiss, if_pos hsame, exec_pure]
        · simp only [if_neg hmiss, if_neg hsame]
  | _ => exact hf.elim

end Filesystem

namespace Overlay

/-! ## The taker of a directory's new entries -/

/-- Whether the layer can create and holds a directory at the path. -/
def takes (s : Store) (path : String) (f : Filesystem) : Bool :=
  (f.allows s).covers (.only .create) && (f.outline s).kind path == .directory

/-- The first layer that takes new entries of the directory at a path, with its position. -/
def taker? (s : Store) (layers : List Filesystem) (path : String) : Option (Filesystem × Nat) :=
  layers.zipIdx.find? fun f => takes s path f.1

variable {layers : List Filesystem} {label : Nat → String}
  {w : Store × Overlay Filesystem Entry} {node : Node Entry}

section
variable (n : Nat) (hp : Path.Clean path) (hname : IsName name) (hk : kind.isCreatable = true)
include hp hname hk

/-- Only the taker is asked to make the entry. -/
theorem exec_createFrom_name (layer : Nat) (hs : ∀ f ∈ layers, f.CleanTree s) :
    (createFrom (Store.provider (n + 1)) path kind name layer layers).exec s =
      match (layers.zipIdx layer).find? fun f => takes s path f.1 with
      | none => (.ok none, s)
      | some (f, i) =>
        if (f.outline s).kind (join path name) = .unknown then
          (.ok (some ⟨join path name, f.entryAt (join path name), i⟩),
            s.plant f (join path name) kind)
        else if (f.outline s).kind (join path name) = kind then
          (.ok (some ⟨join path name, f.entryAt (join path name), i⟩), s)
        else (.error (.conflict (join path name)), s) := by
  induction layers generalizing layer with
  | nil => rfl
  | cons f rest ih =>
      have hf := hs f (by simp)
      have hnext := ih (layer + 1) fun g hg => hs g (List.mem_cons_of_mem f hg)
      have hops : (Store.provider (n + 1)).operations f s = f.allows s := hf.operations _
      rw [List.zipIdx_cons, List.find?_cons, createFrom]
      simp only [exec_bind, exec_get, hops]
      by_cases hcan : (f.allows s).covers (.only .create) = true
      swap
      · have hno : takes s path f = false := by simp [takes, hcan]
        simp only [if_neg hcan, hno]
        exact hnext
      simp only [if_pos hcan, exec_consult, createInLayer, exec_bind,
        f.exec_resolveDirectory n hf hp]
      by_cases hd : (f.outline s).kind path = .directory
      swap
      · have hno : takes s path f = false := by simp [takes, hd]
        simp only [if_neg hd, exec_pure, hno, hnext]
      have hyes : takes s path f = true := by simp [takes, hcan, hd]
      have hclean : normalize (join path name) false = join path name := by
        rw [hp.join_eq_snoc hname]
        exact normalize_ofNames (forall_mem_snoc (fun _ => hp.isName) hname)
      have hpath : (Store.provider (n + 1)).path (f.entryAt (join path name)) = join path name :=
        hf.path_entryAt _
      simp only [if_pos hd, exec_bind, f.exec_create_name n hf hp hcan hk hd hname, hyes]
      by_cases hmiss : (f.outline s).kind (join path name) = .unknown
      · simp only [if_pos hmiss, exec_pure, hpath, hclean]
      · by_cases hsame : (f.outline s).kind (join path name) = kind
        · simp only [if_neg hmiss, if_pos hsame, exec_pure, hpath, hclean]
        · simp only [if_neg hmiss, if_neg hsame]
          rfl

end

section
variable (n : Nat) (hs : ∀ f ∈ layers, f.CleanTree w.1) (hw : Over w.1 layers w)
  (h : Sound layers label Whatever w.2 node) (hk : kind.isCreatable = true)
  (hd : (kindAt w.1 node.offer?).isDirectory = true) {c : String}
  (hc : components (normalize name false) = [c])
include hs hw h hk hd hc

/-- If some layer can create, the layers are asked one after the other. -/
theorem exec_create_of_single
    (hcan : (layers.any fun f => (f.allows w.1).covers (.only .create)) = true) :
    (create (Store.provider (n + 1)) node kind name).exec w =
      match (createFrom (Store.provider (n + 1)) node.path kind c 0 layers).exec w.1 with
      | (.ok (some offer), s) =>
        (.ok ((noted w.2 node.slot).addNode offer).1,
          (s, ((noted w.2 node.slot).addNode offer).2))
      | (.ok none, s) =>
        (.error (.backend s!"no filesystem could create {join node.path c}"), (s, w.2))
      | (.error e, s) => (.error e, (s, w.2)) := by
  have hname : IsName c := isName_of_single hc
  have hcan := (operations_covers hs n hw .create).trans hcan
  have hd : (Overlay.kind (Store.provider (n + 1)) node w.1).isDirectory = true := by
    rw [kind_eq_kindAt hs n hw h]
    exact hd
  obtain ⟨hno, -⟩ | ⟨-, -, -, -, he⟩ :=
    create_cases (Store.provider (n + 1)) w hw.live node kind name
  · exact absurd ⟨hcan, hk, hd, normalize_of_single hc ▸ hname.1.1⟩ hno
  · rw [normalize_of_single hc, hw.layers] at he
    exact he

/-- With no taker, nothing is made. -/
theorem exec_create_of_no_taker (hno : taker? w.1 layers node.path = none) :
    ∃ e, (create (Store.provider (n + 1)) node kind name).exec w = (.error e, w) := by
  by_cases hcan : (layers.any fun f => (f.allows w.1).covers (.only .create)) = true
  · rw [exec_create_of_single n hs hw h hk hd hc hcan,
      exec_createFrom_name n h.path (isName_of_single hc) hk 0 hs]
    rw [taker?] at hno
    exact ⟨_, by rw [hno]⟩
  · have hcan := (operations_covers hs n hw .create).trans (Bool.not_eq_true _ ▸ hcan)
    obtain ⟨-, hrefused⟩ | ⟨hyes, -⟩ :=
      create_cases (Store.provider (n + 1)) w hw.live node kind name
    · exact hrefused
    · rw [hcan] at hyes
      cases hyes

/-- With a taker, what it has under the name decides. -/
theorem exec_create_of_taker {f : Filesystem} {i : Nat}
    (htaker : taker? w.1 layers node.path = some (f, i)) :
    (create (Store.provider (n + 1)) node kind name).exec w =
      let made := (noted w.2 node.slot).addNode
        ⟨join node.path c, f.entryAt (join node.path c), i⟩
      if (f.outline w.1).kind (join node.path c) = .unknown then
        (.ok made.1, (w.1.plant f (join node.path c) kind, made.2))
      else if (f.outline w.1).kind (join node.path c) = kind then (.ok made.1, (w.1, made.2))
      else (.error (.conflict (join node.path c)), w) := by
  obtain ⟨hat, htakes, -⟩ := find?_zipIdx_eq_some.mp htaker
  rw [takes, Bool.and_eq_true] at htakes
  have hcan : (layers.any fun f => (f.allows w.1).covers (.only .create)) = true :=
    List.any_eq_true.mpr ⟨f, List.mem_of_getElem? hat, htakes.1⟩
  rw [taker?] at htaker
  rw [exec_create_of_single n hs hw h hk hd hc hcan,
    exec_createFrom_name n h.path (isName_of_single hc) hk 0 hs, htaker]
  by_cases hmiss : (f.outline w.1).kind (join node.path c) = .unknown
  · simp only [if_pos hmiss]
  · by_cases hsame : (f.outline w.1).kind (join node.path c) = kind
    · simp only [if_neg hmiss, if_pos hsame]
    · simp only [if_neg hmiss, if_neg hsame]

/-- A taker that has nothing else under the name takes the entry. -/
theorem exec_create_of_fit {f : Filesystem} {i : Nat}
    (htaker : taker? w.1 layers node.path = some (f, i))
    (hfit : (f.outline w.1).kind (join node.path c) = .unknown ∨
      (f.outline w.1).kind (join node.path c) = kind) :
    let made := (noted w.2 node.slot).addNode
      ⟨join node.path c, f.entryAt (join node.path c), i⟩
    (create (Store.provider (n + 1)) node kind name).exec w =
      (.ok made.1, (if (f.outline w.1).kind (join node.path c) = .unknown then
        w.1.plant f (join node.path c) kind else w.1, made.2)) := by
  intro made
  rw [exec_create_of_taker n hs hw h hk hd hc htaker]
  by_cases hmiss : (f.outline w.1).kind (join node.path c) = .unknown
  · simp only [made, if_pos hmiss]
  · simp only [made, if_neg hmiss, if_pos (hfit.resolve_left hmiss)]

end

/-! ## What is seen of the new entry -/

section
variable {id : Nat} (hf : f.memory? = some id) (hstored : f.Stored s)
  (hk : kind.isCreatable = true)
include hf hstored hk

/-- The new node is in the trees that stand on the memory filesystem, and only at its path. -/
theorem outline_plant (hg : g.CleanTree s) (q : String) :
    (g.outline (s.plant f path kind)).kind q =
      if q = path ∧ g.memory? = some id then kind else (g.outline s).kind q := by
  rw [Store.plant, hf]
  induction g with
  | memory j =>
      simp only [Filesystem.outline, Store.memory_setMemory, Filesystem.memory?,
        Option.some.injEq]
      by_cases hj : j = id
      · subst hj
        simp [hstored j hf, Memory.outline, Memory.Tree.outline, Memory.Tree.kind_put,
          Memory.Node.kind_empty hk]
      · simp [hj]
  | archive j => simp [Filesystem.outline, Filesystem.memory?, Store.setMemory, Store.archive]
  | probed p inner ih => exact ih hg
  | _ => exact hg.elim

omit hstored hk in
theorem allows_plant (hg : g.CleanTree s) : g.allows (s.plant f path kind) = g.allows s := by
  rw [Store.plant, hf]
  induction g with
  | memory j =>
      simp only [Filesystem.allows, Store.memory_setMemory]
      split
      · rename_i hj
        rw [hj.1]
      · rfl
  | archive j => rfl
  | probed p inner ih => exact ih hg
  | _ => exact hg.elim

/-- A layer has a node at the path of the new one if it had, or stands on the same memory
filesystem. -/
theorem holds_plant (hg : g.CleanTree s) :
    holds (s.plant f path kind) path g = true ↔
      holds s path g = true ∨ g.canRead s = true ∧ g.memory? = some id := by
  have hread : g.canRead (s.plant f path kind) = g.canRead s := by
    rw [Filesystem.canRead, allows_plant hf hg]
    rfl
  have hex : kind.exists? = true := by
    cases kind with
    | unknown => cases hk
    | _ => rfl
  rw [holds, holds, hread, outline_plant hf hstored hk hg]
  by_cases hm : g.memory? = some id
  · rw [if_pos ⟨rfl, hm⟩, hex, Bool.and_true, Bool.and_eq_true]
    constructor
    · exact fun hr => .inr ⟨hr, hm⟩
    · rintro (h | h)
      · exact h.1
      · exact h.1
  · simp [hm]

end

/-- Where layers have a node now that had none, it is provided by the first of them, unless a layer
before it provided something. -/
theorem provided_gain {s' : Store} {gains : Filesystem → Prop} {i : Nat}
    (hat : layers[i]? = some f) (hf : gains f)
    (hfirst : ∀ j g, layers[j]? = some g → gains g → i ≤ j)
    (hholds : ∀ g ∈ layers, holds s' path g = true ↔ holds s path g = true ∨ gains g) :
    (∀ o ∈ provided s layers path, i < o.layer) ∧
        provided s' layers path = some ⟨path, f.entryAt path, i⟩ ∨
      (∃ o ∈ provided s layers path, o.layer ≤ i) ∧
        provided s' layers path = provided s layers path := by
  have free {j : Nat} {b : Filesystem} (hb : layers[j]? = some b) (hj : j < i)
      (hno : holds s path b = false) : holds s' path b = false := by
    rw [← Bool.not_eq_true, hholds b (List.mem_of_getElem? hb), not_or, Bool.not_eq_true]
    exact ⟨hno, fun hgain => absurd (hfirst j b hb hgain) (Nat.not_le.mpr hj)⟩
  have seen : holds s' path f = true := (hholds f (List.mem_of_getElem? hat)).mpr (.inr hf)
  cases ho : provided s layers path with
  | none =>
      refine .inl ⟨by simp, provided_eq_some.mpr ⟨f, hat, seen, ?_, rfl⟩⟩
      intro j b hj hb
      apply free hb hj
      rw [← Bool.not_eq_true]
      intro hheld
      have := isSome_provided.mpr ⟨b, List.mem_of_getElem? hb, hheld⟩
      rw [ho] at this
      cases this
  | some o =>
      obtain ⟨g, hgat, hheld, howner, heq⟩ := provided_eq_some.mp ho
      by_cases hlt : i < o.layer
      · refine .inl ⟨by simpa using hlt, provided_eq_some.mpr ⟨f, hat, seen, ?_, rfl⟩⟩
        intro j b hj hb
        exact free hb hj (howner j b (hj.trans hlt) hb)
      · refine .inr ⟨⟨o, rfl, Nat.not_lt.mp hlt⟩, provided_eq_some.mpr ⟨g, hgat, ?_, ?_, heq⟩⟩
        · exact (hholds g (List.mem_of_getElem? hgat)).mpr (.inl hheld)
        · intro j b hj hb
          exact free hb (Nat.lt_of_lt_of_le hj (Nat.not_lt.mp hlt)) (howner j b hj hb)

/-- No layer before a taker stands on the same memory filesystem, for it would take new entries,
too. -/
theorem le_of_memory_of_taker {i : Nat} (hs : ∀ g ∈ layers, g.CleanTree s)
    (htaker : taker? s layers path = some (f, i)) {id : Nat} (hid : f.memory? = some id) {j : Nat}
    (hj : layers[j]? = some g) (hm : g.memory? = some id) :
    f.canRead s = g.canRead s ∧ i ≤ j := by
  obtain ⟨hat, htakes, hfirst⟩ := find?_zipIdx_eq_some.mp htaker
  obtain ⟨hgo, hga⟩ := Filesystem.outline_of_memory (hs g (List.mem_of_getElem? hj)) hm
  obtain ⟨hfo, hfa⟩ := Filesystem.outline_of_memory (hs f (List.mem_of_getElem? hat)) hid
  refine ⟨by rw [Filesystem.canRead, Filesystem.canRead, hga, hfa], ?_⟩
  by_contra hlt
  have hno := hfirst j g (Nat.lt_of_not_le hlt) hj
  rw [takes, hga, hgo, ← hfa, ← hfo, ← takes, htakes] at hno
  cases hno

/-- What is provided at the path of a new node: the node, if its taker can read and stands before
the layer that provided something there. -/
theorem provided_plant {place : String} {i : Nat} {o : Offer Entry}
    (hs : ∀ g ∈ layers, g.CleanTree s) (hstored : f.Stored s) (hk : kind.isCreatable = true)
    (htaker : taker? s layers path = some (f, i)) (ho : provided s layers place = some o) :
    provided (s.plant f place kind) layers place =
      if f.canRead s = true ∧ i < o.layer then some ⟨place, f.entryAt place, i⟩ else some o := by
  obtain ⟨hat, htakes, -⟩ := find?_zipIdx_eq_some.mp htaker
  have hf := hs f (List.mem_of_getElem? hat)
  obtain ⟨id, hid⟩ := hf.memory_of_creates ((Bool.and_eq_true _ _).mp htakes).1
  have hplant (b : Filesystem) (hb : b ∈ layers) :
      holds (s.plant f place kind) place b = true ↔
        holds s place b = true ∨ b.canRead s = true ∧ b.memory? = some id :=
    holds_plant hid hstored hk (hs b hb)
  have same {b : Filesystem} {j : Nat} (hb : layers[j]? = some b) (hm : b.memory? = some id) :=
    le_of_memory_of_taker hs htaker hid hb hm
  by_cases hread : f.canRead s = true
  · have hgain := provided_gain hat ⟨hread, hid⟩ (fun j b hb hm => (same hb hm.2).2) hplant
    rw [ho] at hgain
    rcases hgain with ⟨hlt, hnew⟩ | ⟨⟨o', ho', hle⟩, hold⟩
    · rw [hnew, if_pos ⟨hread, hlt o rfl⟩]
    · obtain rfl := Option.some.inj ho'
      rw [hold, if_neg fun h => absurd h.2 (Nat.not_lt.mpr hle)]
  · rw [if_neg fun h => hread h.1, ← ho, provided, provided]
    congr 1
    refine List.find?_congr fun b hb => ?_
    obtain ⟨j, hj, heq⟩ := List.getElem_of_mem (List.fst_mem_of_mem_zipIdx hb)
    rw [Bool.eq_iff_iff, hplant b.1 (List.fst_mem_of_mem_zipIdx hb), or_iff_left]
    rintro ⟨hcan, hm⟩
    exact hread ((same (heq ▸ List.getElem?_eq_getElem hj) hm).1.trans hcan)

/-- What is provided afterwards where another kind was provided: something of the new kind only if
the taker can read and stands before the layer that provided the other kind. -/
theorem kindAt_created {place : String} {i : Nat} {o : Offer Entry}
    (hs : ∀ g ∈ layers, g.CleanTree s) (hstored : f.Stored s) (hk : kind.isCreatable = true)
    (htaker : taker? s layers path = some (f, i)) (ho : provided s layers place = some o)
    (hother : kindAt s (some o) ≠ kind) {s' : Store}
    (hclean : ∀ g ∈ layers, g.CleanTree s')
    (hmade : ((f.outline s).kind place = .unknown ∧ s' = s.plant f place kind) ∨
      ((f.outline s).kind place = kind ∧ s' = s)) :
    ∃ o', provided s' layers place = some o' ∧
      (kindAt s' (some o') = kind ↔ f.canRead s = true ∧ i < o.layer) := by
  obtain ⟨hat, htakes, -⟩ := find?_zipIdx_eq_some.mp htaker
  obtain ⟨g, hgat, hholds, howner, heq⟩ := provided_eq_some.mp ho
  have hf := hs f (List.mem_of_getElem? hat)
  have hg := hs g (List.mem_of_getElem? hgat)
  obtain ⟨hmiss, rfl⟩ | ⟨hsame, rfl⟩ := hmade
  · obtain ⟨id, hid⟩ := hf.memory_of_creates ((Bool.and_eq_true _ _).mp htakes).1
    have hkind {b : Filesystem} (hb : b.CleanTree s) :
        (b.outline (s.plant f place kind)).kind place =
          if place = place ∧ b.memory? = some id then kind else (b.outline s).kind place :=
      outline_plant hid hstored hk hb place
    have hprovided := provided_plant hs hstored hk htaker ho
    by_cases hseen : f.canRead s = true ∧ i < o.layer
    · rw [if_pos hseen] at hprovided
      refine ⟨_, hprovided, iff_of_true ?_ hseen⟩
      exact ((hclean f (List.mem_of_getElem? hat)).kind_entryAt place).trans
        ((hkind hf).trans (if_pos ⟨rfl, hid⟩))
    · rw [if_neg hseen] at hprovided
      refine ⟨o, hprovided, iff_of_false ?_ hseen⟩
      -- what has the other kind does not stand on the taker's memory filesystem
      have hapart : g.memory? ≠ some id := by
        intro hm
        rw [holds, (Filesystem.outline_of_memory hg hm).1, ← (Filesystem.outline_of_memory hf hid).1,
          hmiss, Bool.and_eq_true] at hholds
        cases hholds.2
      have hsource : o.source = g.entryAt place := congrArg Offer.source heq
      rw [kindAt, hsource, hg.kind_entryAt] at hother
      rw [kindAt, hsource, (hclean g (List.mem_of_getElem? hgat)).kind_entryAt, hkind hg,
        if_neg fun h => hapart h.2]
      exact hother
  · -- the taker has the new kind already, so it cannot stand before the other kind and read
    refine ⟨o, ho, iff_of_false hother ?_⟩
    rintro ⟨hread, hlt⟩
    have hno := howner i f hlt hat
    rw [holds, hread, hsame, Bool.true_and] at hno
    cases kind with
    | unknown => cases hk
    | _ => cases hno

/-- After a change under a name of a directory, the path of the name leads to what is provided
there. -/
theorem found_of_shift {s' : Store} {o : Overlay Filesystem Entry}
    {fits : String → List (String × Offer Entry) → Prop} {c : String}
    (hs : ∀ g ∈ layers, g.CleanTree s) (hname : IsName c)
    (hshift : s.Shift s' layers (Memory.Through (components node.path) [c]))
    (h : Sound layers label fits o node) (hd : (kindAt s node.offer?).isDirectory = true)
    (hfound : follow s layers [] none (components node.path) = .ok (some node.offer?)) :
    found s' layers (join node.path c)
      = .ok ((provided s' layers (join node.path c)).map some) := by
  have hout : ∀ ns, ns <+: [] ++ components node.path →
      ¬ Memory.Through (components node.path) [c] ns := by
    rintro ns hns ⟨x, hx, hpre⟩
    have := (hpre.trans hns).length_le
    simp only [List.nil_append, List.length_append, List.length_singleton] at this
    omega
  have hplace : kindAt s' node.offer? = kindAt s node.offer? := by
    cases node with
    | root => rfl
    | entry child =>
        obtain ⟨g, hg, hsource⟩ := h.source child.offer rfl
        have hpath : ofNames (components child.offer.path) = child.offer.path :=
          h.path.ofNames_components
        rw [← hpath] at hsource
        exact kindAt_shift hs hshift (List.mem_of_getElem? hg) (fun _ => h.path.isName)
          (hout _ List.prefix_rfl) hsource
  have hnames : ∀ m ∈ components node.path ++ [c], IsName m :=
    forall_mem_snoc (fun _ => h.path.isName) hname
  have hsame : follow s' layers [] none (components node.path)
      = follow s layers [] none (components node.path) :=
    follow_shift hs hshift rfl (fun _ => isComponent_of_mem) hout
  rw [h.path.join_eq_snoc hname, found, normalize_ofNames hnames,
    components_ofNames fun m hm => (hnames m hm).1, follow_append (hsame.trans hfound),
    List.nil_append, follow, hplace, if_pos hd]
  cases provided s' layers (ofNames (components node.path ++ [c])) <;> rfl

/-- What a single name leads to in a directory is what is provided at its path. -/
theorem provided_of_child (n : Nat) (hs : ∀ g ∈ layers, g.CleanTree w.1) (hw : Over w.1 layers w)
    (h : Holds layers label (AsMerged w.1 layers) w.2 node)
    (hd : (kindAt w.1 node.offer?).isDirectory = true) {c : String}
    (hc : components (normalize name false) = [c]) {e : Node Entry}
    {w' : Store × Overlay Filesystem Entry}
    (he : (child (Store.provider (n + 1)) node name).exec w = (.ok (some e), w')) :
    ∃ o, e = .entry o ∧ provided w.1 layers (join node.path c) = some o.offer ∧
      Overlay.kind (Store.provider (n + 1)) e w'.1 = kindAt w.1 (some o.offer) := by
  have hm := asMerged w.1 layers
  obtain ⟨r, label', w₂, hexec, hq, -, hbelow, hcached⟩ := exec_child hs n hm name hw h
  obtain ⟨rfl, rfl⟩ := Prod.mk.inj (he.symm.trans hexec)
  have hfound := hbelow (guides_merged hs fun x hx => by
    rcases List.mem_append.mp hx with hx | hx <;> exact isComponent_of_mem hx)
  have hsound := ((hq.holds _ _ hm h).of_cached (hcached e rfl)).sound
  have hkind := kind_eq_kindAt hs n hq.base hsound
  rw [foundBelow, if_pos hd, hc] at hfound
  simp only [follow, if_pos hd] at hfound
  rw [h.sound.path.join_eq_snoc (isName_of_single hc)]
  cases hp : provided w.1 layers (ofNames (components node.path ++ [c])) with
  | none =>
      rw [hp] at hfound
      cases hfound
  | some offer =>
      rw [hp] at hfound
      cases e with
      | root => cases hfound
      | entry o =>
          obtain rfl : o.offer = offer := Option.some.inj (Option.some.inj (Except.ok.inj hfound))
          exact ⟨o, rfl, rfl, hkind⟩

/-- A taker that takes an entry where another kind was provided: the path of the name then leads to
the new kind only if the taker can read and stands before the layer that provided the other one. -/
theorem exec_entry_created (n : Nat) (hs : ∀ f ∈ layers, f.CleanTree w.1) (hw : Over w.1 layers w)
    (h : Sound layers label Whatever w.2 node) (hk : kind.isCreatable = true)
    (hd : (kindAt w.1 node.offer?).isDirectory = true) {c : String}
    (hc : components (normalize name false) = [c]) (hstored : ∀ f ∈ layers, f.Stored w.1)
    (hway : follow w.1 layers [] none (components node.path) = .ok (some node.offer?))
    {f : Filesystem} {i : Nat} (htaker : taker? w.1 layers node.path = some (f, i))
    {o : Offer Entry} (ho : provided w.1 layers (join node.path c) = some o)
    (hother : kindAt w.1 (some o) ≠ kind)
    (hfit : (f.outline w.1).kind (join node.path c) = .unknown ∨
      (f.outline w.1).kind (join node.path c) = kind)
    {m : Node Entry} {w' : Store × Overlay Filesystem Entry}
    (hexec : (create (Store.provider (n + 1)) node kind name).exec w = (.ok m, w')) :
    ∃ e w'', (do invalidateNode .root; entry (Store.provider (n + 1)) (join node.path c)).exec w'
        = (.ok (some e), w'') ∧
      (Overlay.kind (Store.provider (n + 1)) e w''.1 = kind ↔
        f.canRead w.1 = true ∧ i < o.layer) := by
  have hname : ∀ x ∈ components (normalize name false), IsName x := by
    rw [hc]
    exact List.forall_mem_singleton.mpr (isName_of_single hc)
  have hcreated := createdAt_create n hs hw h kind hname
  rw [hexec, hc] at hcreated
  obtain ⟨offer, s', -, -, hshift, -, rfl⟩ := hcreated.made m rfl
  have hstore := congrArg (fun r => r.2.1)
    (hexec.symm.trans (exec_create_of_fit n hs hw h hk hd hc htaker hfit))
  have hmade : ((f.outline w.1).kind (join node.path c) = .unknown ∧
      s' = w.1.plant f (join node.path c) kind) ∨
      ((f.outline w.1).kind (join node.path c) = kind ∧ s' = w.1) := by
    by_cases hmiss : (f.outline w.1).kind (join node.path c) = .unknown
    · exact .inl ⟨hmiss, hstore.trans (if_pos hmiss)⟩
    · exact .inr ⟨hfit.resolve_left hmiss, hstore.trans (if_neg hmiss)⟩
  have hnoted := (hw.changed s').noted node.slot
  have hw' : Over s' layers (s', ((noted w.2 node.slot).addNode offer).2) :=
    ⟨hnoted.trees, hnoted.layers, hnoted.fold, hnoted.live⟩
  obtain ⟨r, label', w'', hlook, hw'', -, hfound, hknown⟩ :=
    exec_entry_invalidated hshift.clean n hw' (by simp) (join node.path c)
  obtain ⟨o', hprovided, hseen⟩ := kindAt_created hs
    (hstored f (List.mem_of_getElem? (find?_zipIdx_eq_some.mp htaker).1)) hk htaker ho hother
    hshift.clean hmade
  rw [found_of_shift hs (isName_of_single hc) hshift h hd hway, hprovided] at hfound
  obtain ⟨e, rfl, hoffer⟩ : ∃ e, r = .ok (some e) ∧ e.offer? = some o' := by
    rcases r with x | _ | e
    · cases hfound
    · cases hfound
    · exact ⟨e, rfl, Option.some.inj (Except.ok.inj hfound)⟩
  have hkind := kind_eq_kindAt hshift.clean n hw'' (hknown e rfl).1.sound
  refine ⟨e, w'', hlook, ?_⟩
  rw [hkind, hoffer, hseen]

/-! ## Creating in a directory that shows something else -/

variable {n : Nat} {layers₀ : List Filesystem} {policy : Policy} {s₀ : Store}
  {held : List (Node Entry)}

/-- Whatever was done with a union before: let its root be marked as dirty, a path lead to a
directory, and a name show an entry of another kind there than the one to be created.  With no taker
the creation fails.  If the taker has something of another kind under the name, it fails with a
conflict; in both cases nothing has changed.  Else it succeeds: the taker has a new empty node if it
had nothing, nothing else changes, and the path of the name leads to something of the new kind
exactly if the taker can read and stands before the layer of the entry that was shown. -/
theorem create_by_taker
    (h : Reaches (Store.provider (n + 1)) (fun _ _ => True) (fun _ _ => True) [.root]
      (s₀, { layers := layers₀, policy := policy }) held w)
    (hs : ∀ f ∈ w.2.layers, f.CleanTree w.1) (hstored : ∀ f ∈ w.2.layers, f.Stored w.1)
    {path name c : String} {d e : Node Entry} {w₁ w₂ : Store × Overlay Filesystem Entry}
    (hd : (do invalidateNode .root; entry (Store.provider (n + 1)) path).exec w
      = (.ok (some d), w₁))
    (hdir : Overlay.kind (Store.provider (n + 1)) d w₁.1 = .directory)
    (hc : components (normalize name false) = [c])
    (he : (child (Store.provider (n + 1)) d name).exec w₁ = (.ok (some e), w₂))
    (hk : kind.isCreatable = true)
    (hother : Overlay.kind (Store.provider (n + 1)) e w₂.1 ≠ kind) :
    let place := join d.path c
    (taker? w₁.1 w.2.layers d.path = none →
      ∃ x, (create (Store.provider (n + 1)) d kind name).exec w₁ = (.error x, w₁)) ∧
    ∀ f i, taker? w₁.1 w.2.layers d.path = some (f, i) →
      ((f.outline w₁.1).kind place ≠ .unknown → (f.outline w₁.1).kind place ≠ kind →
        (create (Store.provider (n + 1)) d kind name).exec w₁
          = (.error (.conflict place), w₁)) ∧
      ((f.outline w₁.1).kind place = .unknown ∨ (f.outline w₁.1).kind place = kind →
        ∃ m w', (create (Store.provider (n + 1)) d kind name).exec w₁ = (.ok m, w') ∧
          w'.1 = (if (f.outline w₁.1).kind place = .unknown then w₁.1.plant f place kind
            else w₁.1) ∧
          ∃ e' w'', (do invalidateNode .root; entry (Store.provider (n + 1)) place).exec w'
              = (.ok (some e'), w'') ∧
            (Overlay.kind (Store.provider (n + 1)) e' w''.1 = kind ↔
              f.canRead w₁.1 = true ∧ ∀ j ∈ e.layer?, i < j)) := by
  intro place
  have hsteady := h.steady
  have hw : Over w.1 w.2.layers w := ⟨.refl _, rfl, hsteady.fold, hsteady.released⟩
  have hsize : 0 < w.2.listings.size := Nat.lt_of_lt_of_le Nat.zero_lt_one hsteady.size
  obtain ⟨r, label, w₁', hexec, hw₁, hsize₁, hfound, hknown⟩ :=
    exec_entry_invalidated hs n hw hsize path
  obtain ⟨rfl, rfl⟩ := Prod.mk.inj (hd.symm.trans hexec)
  obtain ⟨hholds, hpath⟩ := hknown d rfl
  -- from here on everything is said of the world in which the directory was found
  have hs₁ : ∀ f ∈ w.2.layers, f.CleanTree w₁.1 := fun f hf => (hs f hf).congr hw₁.trees
  have hw₁' : Over w₁.1 w.2.layers w₁ := hw₁.changed w₁.1
  have hstored₁ : ∀ f ∈ w.2.layers, f.Stored w₁.1 := fun f hf id hid => by
    rw [hw₁.trees.memories]
    exact hstored f hf id hid
  have hholds : Holds w.2.layers label (AsMerged w₁.1 w.2.layers) w₁.2 d :=
    hholds.mono fun p t _ _ ht => ht.trans (merged_congr hw₁.trees p).symm
  have hsound : Sound w.2.layers label Whatever w₁.2 d :=
    (hholds.mono fun _ _ _ _ _ => trivial).sound
  have hdir : (kindAt w₁.1 d.offer?).isDirectory = true := by
    rw [← kind_eq_kindAt hs₁ n hw₁' hsound, hdir]
    rfl
  obtain ⟨o, rfl, howner, hkind⟩ := provided_of_child n hs₁ hw₁' hholds hdir hc he
  rw [hkind] at hother
  refine ⟨exec_create_of_no_taker n hs₁ hw₁' hsound hk hdir hc, fun f i htaker => ?_⟩
  have hway : follow w₁.1 w.2.layers [] none (components d.path) = .ok (some d.offer?) := by
    rw [follow_shift hs (hw₁.trees.shift hs fun _ => False) rfl (fun _ => isComponent_of_mem)
      fun _ _ => not_false, hpath]
    exact hfound.symm
  constructor
  · intro hpresent hdiffers
    rw [exec_create_of_taker n hs₁ hw₁' hsound hk hdir hc htaker]
    simp only [place, if_neg hpresent, if_neg hdiffers]
  · intro hfit
    have hexec := exec_create_of_fit n hs₁ hw₁' hsound hk hdir hc htaker hfit
    obtain ⟨e', w'', hexec', hseen⟩ := exec_entry_created n hs₁ hw₁' hsound hk hdir hc hstored₁ hway
      htaker howner hother hfit hexec
    refine ⟨_, _, hexec, rfl, e', w'', hexec', hseen.trans ?_⟩
    exact and_congr_right fun _ => ⟨fun hlt j hj => Option.some.inj hj ▸ hlt, fun h => h _ rfl⟩

/-- A memory filesystem with nothing in it, and one with a file that can only be read. -/
def emptyOverFile : Store where
  memories := #[{}, ⟨"memory", .only .read, ⟨⟨[("", .directory .epoch), ("a", .file [] .epoch)]⟩⟩⟩]

/-- A union over both. -/
def emptyOverFileUnion : Store × Overlay Filesystem Entry :=
  (emptyOverFile, { layers := [.memory 0, .memory 1] })

/-- The file, as the union shows it when it is new. -/
def shownFile : Node Entry := .entry ⟨1, ⟨"a", .memory 1 "a", 1⟩⟩

theorem create_by_taker_over_file :
    let P := Store.provider 1
    let w := emptyOverFileUnion
    Reaches P (fun _ _ => True) (fun _ _ => True) [.root] w [.root] w ∧
      (∀ f ∈ w.2.layers, f.CleanTree w.1) ∧ (∀ f ∈ w.2.layers, f.Stored w.1) ∧
      ∃ w₁ w₂ e m w' e' w'',
        (do invalidateNode .root; entry P "").exec w = (.ok (some .root), w₁) ∧
        (child P .root "a").exec w₁ = (.ok (some e), w₂) ∧
        Overlay.kind P e w₂.1 = .file ∧
        (create P .root .directory "a").exec w₁ = (.ok m, w') ∧
        (do invalidateNode .root; entry P (join "" "a")).exec w' = (.ok (some e'), w'') ∧
        Overlay.kind P e' w''.1 = .directory := by
  have hs : ∀ f ∈ emptyOverFileUnion.2.layers, f.CleanTree emptyOverFile := by decide
  have hstored : ∀ f ∈ emptyOverFileUnion.2.layers, f.Stored emptyOverFile := by
    simp only [emptyOverFileUnion, List.forall_mem_cons]
    refine ⟨?_, ?_, List.forall_mem_nil _⟩
    · rintro id ⟨⟩
      decide
    · rintro id ⟨⟩
      decide
  have hd : (do invalidateNode .root; entry (Store.provider 1) "").exec emptyOverFileUnion
      = (.ok (some .root), (emptyOverFile, emptyOverFileUnion.2.invalidate 0)) := rfl
  obtain ⟨w₂, he, hfile⟩ : ∃ w₂, (child (Store.provider 1) .root "a").exec
      (emptyOverFile, emptyOverFileUnion.2.invalidate 0) = (.ok (some shownFile), w₂) ∧
      Overlay.kind (Store.provider 1) shownFile w₂.1 = .file := ⟨_, rfl, by decide +kernel⟩
  have hc : components (normalize "a" false) = ["a"] := by decide
  have hother : Overlay.kind (Store.provider 1) shownFile w₂.1 ≠ .directory := by
    rw [hfile]
    decide
  obtain ⟨-, htaken⟩ := create_by_taker .start hs hstored hd rfl hc he rfl hother
  obtain ⟨m, w', hok, -, e', w'', hlook, hseen⟩ := (htaken (.memory 0) 0 rfl).2 (.inl (by decide))
  refine ⟨.start, hs, hstored, _, _, _, m, w', e', w'', hd, he, hfile, hok, hlook,
    hseen.mpr ⟨by decide, ?_⟩⟩
  rintro j ⟨⟩
  decide

/-- A file that is seen in a union is hidden by a directory that is created in its place. -/
theorem seen_file_hidden :
    let P := Store.provider 1
    let seen : Call Store Filesystem Entry (Option Kind) := do
      invalidateNode .root
      let found ← entry P "a"
      let (s, _) ← get
      return found.map fun e => Overlay.kind P e s
    let created := (create P .root .directory "a").exec emptyOverFileUnion
    (∀ f ∈ emptyOverFileUnion.2.layers, f.CleanTree emptyOverFile) ∧
      (seen.exec emptyOverFileUnion).1.toOption = some (some .file) ∧
      created.1.toOption.map Node.path = some "a" ∧
      (seen.exec created.2).1.toOption = some (some .directory) :=
  ⟨by decide, by decide +kernel, by decide +kernel, by decide +kernel⟩

end Overlay

end Strata
