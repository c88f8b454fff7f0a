/-
# `Strata.Proofs.Overlay.Workplace` — a directory that one layer has alone

Somebody makes a directory through a union, where no layer had one of its name.  It is
in the layer that takes new entries then, and in no other one: whatever is made, looked
up, moved or deleted below it is so in the tree of this layer, and all else stays.  So
the world of the union can be told by that tree (`Stands`), as long as nothing is
cached that is not so any more (`Trusted`); each call is a step from one tree to the
next.
-/
import Strata.Proofs.Memory.Stocked
import Strata.Proofs.Overlay.Removal
import Strata.Proofs.Overlay.Tidy
import Strata.Proofs.Overlay.Writing
import Strata.Proofs.Store.Streams

namespace Strata

open Strata.Action Strata.Path

namespace Store

variable {s s' : Store} {id : Nat}

/-- The store with another tree in a memory filesystem. -/
def withTree (s : Store) (id : Nat) (t : Memory.Tree) : Store :=
  s.setMemory id { s.memory id with tree := t }

theorem memory_withTree (hid : id < s.memories.size) (t : Memory.Tree) (j : Nat) :
    (s.withTree id t).memory j =
      if j = id then { s.memory id with tree := t } else s.memory j := by
  rw [withTree, memory_setMemory]
  simp [hid]

theorem size_withTree (s : Store) (id : Nat) (t : Memory.Tree) :
    (s.withTree id t).memories.size = s.memories.size := Array.size_setIfInBounds ..

theorem withTree_withTree (hid : id < s.memories.size) (t t' : Memory.Tree) :
    (s.withTree id t).withTree id t' = s.withTree id t' := by
  rw [withTree, memory_withTree hid, if_pos rfl]
  simp [withTree, setMemory]

theorem withTree_self (s : Store) (id : Nat) : s.withTree id (s.memory id).tree = s :=
  s.setMemory_self id

theorem SameTrees.withTree (h : s.SameTrees s') (id : Nat) (t : Memory.Tree) :
    (s.withTree id t).SameTrees (s'.withTree id t) := by
  refine ⟨?_, h.archives⟩
  simp only [Store.withTree, setMemory, memory, h.memories]

end Store

namespace Filesystem

variable {f : Filesystem} {s : Store} {id : Nat}

theorem CleanTree.withTree (hf : f.CleanTree s) {t : Memory.Tree} (ht : t.Clean) :
    f.CleanTree (s.withTree id t) := by
  induction f with
  | memory j =>
      rw [CleanTree, Store.withTree, Store.memory_setMemory]
      split
      · exact ht
      · exact hf
  | archive j => exact hf
  | probed p inner ih => exact ih hf
  | _ => exact hf.elim

theorem allows_withTree (f : Filesystem) (s : Store) (id : Nat) (t : Memory.Tree) :
    f.allows (s.withTree id t) = f.allows s := by
  induction f with
  | memory j =>
      rw [allows, allows, Store.withTree, Store.memory_setMemory]
      split
      · rename_i h
        rw [h.1]
      · rfl
  | probed p inner ih => exact ih
  | _ => rfl

/-- The tree of a layer is another one than that of a memory filesystem that it is not. -/
theorem outline_withTree (hbare : f.isBare = true) (hne : f ≠ .memory id) (t : Memory.Tree) :
    f.outline (s.withTree id t) = f.outline s := by
  cases f with
  | memory j =>
      have hj : j ≠ id := fun he => hne (congrArg memory he)
      rw [outline, outline, Store.withTree, Store.memory_setMemory, if_neg fun h => hj h.1]
  | archive j => rfl
  | _ => cases hbare

end Filesystem

namespace Overlay

variable {s : Store} {layers : List Filesystem} {id i : Nat} {dir : String}
  {t t' : Memory.Tree} {w : Store × Overlay Filesystem Entry}

theorem taker?_congr {s' : Store} (h : s.SameTrees s') (path : String) :
    taker? s' layers path = taker? s layers path := by
  simp only [taker?, takes, Filesystem.allows_congr h, Filesystem.outline_congr h]

/-! ## Deleting what one layer has -/

/-- To delete a name at the root of a memory filesystem prunes its tree. -/
theorem exec_deleteInLayer_root (n : Nat) {j : Nat} (hs : (Filesystem.memory j).CleanTree s)
    (hcan : ((Filesystem.memory j).allows s).covers (.only .delete) = true) {name : String}
    (hname : IsName name) :
    (deleteInLayer (Store.provider (n + 1)) "" name (.memory j)).exec s =
      (.ok ((s.memory j).kind name).exists?,
        s.withTree j ((s.memory j).tree.removeWithin name)) := by
  have hdel : (Filesystem.memory j).Deletes s "" j :=
    ⟨rfl, hcan, fun h0 => absurd rfl h0, fun _ => rfl⟩
  have hstep := exec_deleteInLayer_of_deletes n ⟨rfl, hs⟩ clean_empty hname hdel
  rw [join_root hname] at hstep
  exact hstep

section
variable (n : Nat) {f : Filesystem} {name : String} (hname : IsName name)
include hname

/-- A layer in memory or in an archive that has no such name at its root is passed over. -/
theorem exec_deleteInLayers_cons_of_missing (hf : f.CleanTree s) (hbare : f.isBare = true)
    (hmiss : (f.outline s).kind name = .unknown) (acc : Bool) :
    (deleteInLayers (Store.provider (n + 1)) "" name (f :: layers) acc).exec s =
      (deleteInLayers (Store.provider (n + 1)) "" name layers acc).exec s := by
  have hops : (Store.provider (n + 1)).operations f s = f.allows s := hf.operations _
  rw [deleteInLayers]
  simp only [exec_bind, exec_get, exec_ite, hops, exec_consult]
  by_cases hallow : (f.allows s).covers (.only .delete) = true
  · obtain ⟨j, rfl⟩ : ∃ j, f = .memory j := by
      cases f with
      | memory j => exact ⟨j, rfl⟩
      | archive j => exact absurd hallow (by show ¬ Archive.operations.covers _ = true; decide)
      | _ => cases hbare
    have hkind : (s.memory j).kind name = .unknown := hmiss
    have hsame : (s.memory j).tree.removeWithin name = (s.memory j).tree :=
      Memory.Tree.Clean.removeWithin_missing_name hf hname hmiss
    have hstep := exec_deleteInLayer_root n hf hallow hname
    rw [hsame, Store.withTree_self, hkind] at hstep
    have hacc : (acc || Kind.unknown.exists?) = acc := Bool.or_false acc
    simp only [if_pos hallow, hstep, Option.getD_some, hacc]
  · rw [if_neg hallow]

/-- A memory filesystem that can delete loses the name. -/
theorem exec_deleteInLayers_cons_memory (hs : (Filesystem.memory id).CleanTree s)
    (hcan : (s.memory id).operations.covers (.only .delete) = true) (acc : Bool) :
    (deleteInLayers (Store.provider (n + 1)) "" name (.memory id :: layers) acc).exec s =
      (deleteInLayers (Store.provider (n + 1)) "" name layers
        (acc || ((s.memory id).kind name).exists?)).exec
          (s.withTree id ((s.memory id).tree.removeWithin name)) := by
  have hops : (Store.provider (n + 1)).operations (.memory id) s = (s.memory id).operations :=
    hs.operations (Store.provider (n + 1))
  rw [deleteInLayers]
  simp only [exec_bind, exec_get, hops, exec_consult, if_pos hcan,
    exec_deleteInLayer_root n hs hcan hname, Option.getD_some]

/-- Where no layer but one has a name at its root, to delete the name removes it there. -/
theorem exec_deleteInLayers_of_one (hid : id < s.memories.size)
    (hs : ∀ f ∈ layers, f.CleanTree s) (hbare : ∀ f ∈ layers, f.isBare = true)
    (hcan : (s.memory id).operations.covers (.only .delete) = true)
    (honly : ∀ f ∈ layers, f ≠ .memory id → (f.outline s).kind name = .unknown) (acc : Bool) :
    (deleteInLayers (Store.provider (n + 1)) "" name layers acc).exec s =
      if .memory id ∈ layers then
        (.ok (acc || ((s.memory id).kind name).exists?),
          s.withTree id ((s.memory id).tree.removeWithin name))
      else (.ok acc, s) := by
  induction layers generalizing s acc with
  | nil => rfl
  | cons f rest ih =>
      obtain ⟨hf, hrest⟩ := List.forall_mem_cons.mp hs
      obtain ⟨hfbare, hrestbare⟩ := List.forall_mem_cons.mp hbare
      obtain ⟨hfonly, hrestonly⟩ := List.forall_mem_cons.mp honly
      by_cases hf' : f = .memory id
      · -- a second layer over the same tree finds nothing any more
        subst hf'
        let t := (s.memory id).tree.removeWithin name
        have ht : t.Clean := Memory.Tree.Clean.removeWithin_name hf hname
        have hmem : (s.withTree id t).memory id = { s.memory id with tree := t } := by
          rw [Store.memory_withTree hid, if_pos rfl]
        have hgone : ((s.withTree id t).memory id).kind name = .unknown := by
          rw [hmem]
          exact (Memory.Tree.kind_removeWithin _ _ _).trans (if_pos (liesWithin_refl _))
        have hsame : (s.withTree id t).withTree id (t.removeWithin name) = s.withTree id t := by
          rw [Store.withTree_withTree hid, Memory.Tree.removeWithin_removeWithin]
        have hkept : ∀ g ∈ rest, g ≠ .memory id →
            (g.outline (s.withTree id t)).kind name = .unknown := by
          intro g hg hne
          rw [Filesystem.outline_withTree (hrestbare g hg) hne]
          exact hrestonly g hg hne
        have hnext := ih (s := s.withTree id t) (by rwa [Store.size_withTree])
          (fun g hg => (hrest g hg).withTree ht) hrestbare (by rw [hmem]; exact hcan) hkept
          (acc || ((s.memory id).kind name).exists?)
        have hnone : Kind.unknown.exists? = false := rfl
        rw [hgone, hmem, hsame, hnone, Bool.or_false, ite_self] at hnext
        rw [exec_deleteInLayers_cons_memory n hname hf hcan, if_pos List.mem_cons_self]
        exact hnext
      · have hmem : .memory id ∈ f :: rest ↔ .memory id ∈ rest := by
          rw [List.mem_cons, or_iff_right fun he => hf' he.symm]
        simp only [hmem]
        rw [exec_deleteInLayers_cons_of_missing n hname hf hfbare (hfonly hf')]
        exact ih hid hrest hrestbare hcan hrestonly acc

end

/-! ## The place and the world around it -/

/-- A node on the entry of a memory filesystem, the layer at a position. -/
def placed (id i slot : Nat) (path : String) : Node Entry :=
  .entry ⟨slot, ⟨path, .memory id path, i⟩⟩

/-- Layers in memory or in archives, of which the one that takes new entries allows everything, and
of which none has the directory. -/
structure Workplace (s : Store) (layers : List Filesystem) (id i : Nat) (dir : String) : Prop where
  bare : ∀ f ∈ layers, f.isBare = true
  clean : ∀ f ∈ layers, f.CleanTree s
  stored : id < s.memories.size
  taker : taker? s layers "" = some (.memory id, i)
  able : (s.memory id).operations.covers .all = true
  named : IsName dir
  free : ∀ f ∈ layers, (f.outline s).kind dir = .unknown

/-- The layers are as in the store, but for this tree in a memory filesystem; the union over them
notes its changes. -/
structure Stands (s : Store) (layers : List Filesystem) (id : Nat) (t : Memory.Tree)
    (w : Store × Overlay Filesystem Entry) : Prop where
  clean : t.Clean
  base : Over (s.withTree id t) layers w
  policy : w.2.policy = .eager
  slots : 0 < w.2.listings.size

/-- What clean listings tell from the root is so. -/
structure Trusted (s : Store) (layers : List Filesystem) (id : Nat) (t : Memory.Tree)
    (w : Store × Overlay Filesystem Entry) : Prop extends Stands s layers id t w where
  told : ∃ label, Holds layers label (Faithful (s.withTree id t) layers) w.2 .root

/-- The first layer that can create makes a workplace of every name that no layer has, if it allows
everything. -/
theorem exists_workplace (hbare : ∀ f ∈ layers, f.isBare = true)
    (hclean : ∀ f ∈ layers, f.CleanTree s) (hstored : ∀ f ∈ layers, f.Stored s) {top : Filesystem}
    (htop : layers.find? (fun f => (f.allows s).covers (.only .create)) = some top)
    (hall : (top.allows s).covers .all = true) :
    ∃ id i, ∀ dir, IsName dir → (∀ f ∈ layers, (f.outline s).kind dir = .unknown) →
      Workplace s layers id i dir := by
  have hmem : top ∈ layers := List.mem_of_find?_eq_some htop
  have hcan : (top.allows s).covers (.only .create) = true :=
    List.find?_some (p := fun f : Filesystem => (f.allows s).covers (.only .create)) htop
  obtain ⟨id, hid⟩ := (hclean top hmem).memory_of_creates hcan
  obtain rfl := Filesystem.eq_memory_of_isBare (hbare top hmem) hid
  -- every layer has a root, so that the layer takes new entries of it
  have htakes : ∀ f ∈ layers, takes s "" f = (f.allows s).covers (.only .create) := by
    intro f hf
    rw [takes, (hclean f hf).outline_clean.root]
    exact Bool.and_true _
  have hfirst : (layers.zipIdx.map Prod.fst).find? (fun f => takes s "" f) = some (.memory id) := by
    rw [List.zipIdx_map_fst, ← htop]
    exact List.find?_congr htakes
  rw [List.find?_map, Option.map_eq_some_iff] at hfirst
  obtain ⟨⟨f, i⟩, htaker, rfl⟩ := hfirst
  exact ⟨id, i, fun dir hname hfree =>
    ⟨hbare, hclean, hstored _ hmem id rfl, htaker, hall, hname, hfree⟩⟩

namespace Workplace

variable (h : Workplace s layers id i dir)
include h

theorem getElem?_eq : layers[i]? = some (.memory id) := (find?_zipIdx_eq_some.mp h.taker).1

theorem mem : .memory id ∈ layers := List.mem_of_getElem? h.getElem?_eq

theorem can (op : Operation) : (s.memory id).operations.covers (.only op) = true :=
  Operations.covers_of_all h.able _

theorem memory_eq (t : Memory.Tree) :
    (s.withTree id t).memory id = { s.memory id with tree := t } := by
  rw [Store.memory_withTree h.stored, if_pos rfl]

theorem cleanTree (ht : t.Clean) : ∀ f ∈ layers, f.CleanTree (s.withTree id t) :=
  fun f hf => (h.clean f hf).withTree ht

theorem taker_withTree (ht : t.Clean) :
    taker? (s.withTree id t) layers "" = some (.memory id, i) := by
  have htakes : ∀ f ∈ layers, takes (s.withTree id t) "" f = takes s "" f := by
    intro f hf
    rw [takes, takes, Filesystem.allows_withTree, (h.cleanTree ht f hf).outline_clean.root,
      (h.clean f hf).outline_clean.root]
  rw [← h.taker, taker?, taker?]
  exact List.find?_congr fun f hf => htakes _ (List.fst_mem_of_mem_zipIdx hf)

/-- In the directory one layer alone has something. -/
theorem holds_iff (t : Memory.Tree) {rest : List String} (hn : ∀ m ∈ dir :: rest, IsComponent m)
    {f : Filesystem} (hf : f ∈ layers) :
    holds (s.withTree id t) (ofNames (dir :: rest)) f = true ↔
      f = .memory id ∧ (t.kind (ofNames (dir :: rest))).exists? = true := by
  rw [holds, Bool.and_eq_true]
  by_cases hid : f = .memory id
  · subst hid
    have hread : Filesystem.canRead (s.withTree id t) (.memory id) = true := by
      rw [Filesystem.canRead, Filesystem.allows_withTree]
      exact h.can .read
    have hkind : (Filesystem.outline (s.withTree id t) (.memory id)).kind = t.kind := by
      show ((s.withTree id t).memory id).tree.kind = t.kind
      rw [h.memory_eq]
    rw [hread, hkind]
    simp
  · rw [Filesystem.outline_withTree (h.bare f hf) hid]
    refine ⟨fun hheld => ?_, fun hno => absurd hno.1 hid⟩
    have hmiss := h.free f hf
    rw [← ofNames_singleton dir] at hmiss
    by_cases h0 : rest = []
    · rw [h0, hmiss] at hheld
      cases hheld.2
    · have hsplit : ∀ m ∈ [dir] ++ rest, IsComponent m := hn
      have hdir := (h.clean f hf).outline_clean.directory_of_append hsplit h0 hheld.2
      rw [hmiss] at hdir
      cases hdir

/-- What the layers provide in the directory is what the one layer has there. -/
theorem provided_eq (t : Memory.Tree) {rest : List String} (hn : ∀ m ∈ dir :: rest, IsComponent m) :
    provided (s.withTree id t) layers (ofNames (dir :: rest)) =
      if (t.kind (ofNames (dir :: rest))).exists? then
        some ⟨ofNames (dir :: rest), .memory id (ofNames (dir :: rest)), i⟩
      else none := by
  split
  · rename_i hex
    refine provided_eq_some.mpr ⟨.memory id, h.getElem?_eq, ?_, ?_, rfl⟩
    · exact (h.holds_iff t hn h.mem).mpr ⟨rfl, hex⟩
    · intro j g hj hg
      rw [← Bool.not_eq_true, h.holds_iff t hn (List.mem_of_getElem? hg)]
      rintro ⟨rfl, -⟩
      -- an earlier one of the same kind would have taken new entries
      have hbefore := (find?_zipIdx_eq_some.mp h.taker).2.2 j _ hj hg
      rw [(find?_zipIdx_eq_some.mp h.taker).2.1] at hbefore
      cases hbefore
  · rename_i hno
    by_contra hsome
    obtain ⟨f, hf, hheld⟩ := isSome_provided.mp (Option.isSome_iff_ne_none.mpr hsome)
    exact hno ((h.holds_iff t hn hf).mp hheld).2

/-- Along directories, names in the directory lead to what the one layer has. -/
theorem foundBelow_eq (ht : t.Clean) {rest : List String} (hn : ∀ m ∈ dir :: rest, IsName m)
    (hway : ∀ ms, ms <+: rest → ms ≠ rest → t.kind (ofNames (dir :: ms)) = .directory) :
    foundBelow (s.withTree id t) layers "" none (ofNames (dir :: rest)) =
      .ok (if (t.kind (ofNames (dir :: rest))).exists? then
        some (some ⟨ofNames (dir :: rest), .memory id (ofNames (dir :: rest)), i⟩) else none) := by
  have hc : ∀ m ∈ dir :: rest, IsComponent m := fun m hm => (hn m hm).1
  have hroot : (kindAt (s.withTree id t) none).isDirectory = true := rfl
  rw [foundBelow, if_pos hroot, normalize_ofNames hn, components_ofNames hc, components_empty]
  have hpass : ∀ ms, ms ≠ [] → ms <+: dir :: rest → ms ≠ dir :: rest → ∀ o,
      provided (s.withTree id t) layers (ofNames ([] ++ ms)) = some o →
        (kindAt (s.withTree id t) (some o)).isDirectory = true := by
    intro ms h0 hms hproper o ho
    obtain ⟨m, ms, rfl⟩ := List.exists_cons_of_ne_nil h0
    obtain ⟨rfl, hbelow⟩ := List.cons_prefix_cons.mp hms
    have hdir := hway ms hbelow fun he => hproper (by rw [he])
    have hsub : ∀ n ∈ m :: ms, IsComponent n := fun n hn => hc n (hms.subset hn)
    have hex : (t.kind (ofNames (m :: ms))).exists? = true := by rw [hdir]; rfl
    rw [List.nil_append, h.provided_eq t hsub, if_pos hex] at ho
    obtain rfl := Option.some.inj ho
    show (((s.withTree id t).memory id).kind (ofNames (m :: ms))).isDirectory = true
    rw [h.memory_eq]
    show (t.kind (ofNames (m :: ms))).isDirectory = true
    rw [hdir]
    rfl
  have hcomp : ∀ m ∈ [] ++ dir :: rest, IsComponent m := hc
  have hfollow := follow_of_passable (h.cleanTree ht) hroot (List.cons_ne_nil dir rest) hcomp hpass
  refine hfollow.trans ?_
  rw [List.nil_append, h.provided_eq t hc]
  split <;> rfl

/-- A change of the tree, as all layers see it. -/
theorem shift (ht' : t'.Clean) {touched : List String → Prop}
    (hk : ∀ ns, (∀ m ∈ ns, IsName m) → ¬ touched ns → t'.kind (ofNames ns) = t.kind (ofNames ns)) :
    (s.withTree id t).Shift (s.withTree id t') layers touched where
  clean := h.cleanTree ht'
  allows f _ := by rw [Filesystem.allows_withTree, Filesystem.allows_withTree]
  kinds f hf ns hn hout := by
    by_cases hid : f = .memory id
    · subst hid
      show ((s.withTree id t').memory id).tree.kind _ = ((s.withTree id t).memory id).tree.kind _
      rw [h.memory_eq, h.memory_eq]
      exact hk ns hn hout
    · have hbare := h.bare f hf
      rw [Filesystem.outline_withTree hbare hid, Filesystem.outline_withTree hbare hid]

end Workplace

/-! ## The world after a step -/

section
variable (hp : Workplace s layers id i dir) (h : Stands s layers id t w)
include hp h

theorem Stands.memory_eq : w.1.memory id = { s.memory id with tree := t } := by
  rw [memory_congr h.base.trees, hp.memory_eq]

theorem Stands.tree_eq : (w.1.memory id).tree = t := by rw [h.memory_eq hp]

theorem Stands.able : (w.1.memory id).operations.covers .all = true := by
  rw [h.memory_eq hp]
  exact hp.able

theorem Stands.stored : id < w.1.memories.size := by
  rw [h.base.trees.memories, Store.size_withTree]
  exact hp.stored

theorem Stands.cleanTree : ∀ f ∈ layers, f.CleanTree w.1 :=
  fun f hf => (hp.cleanTree h.clean f hf).congr h.base.trees

/-- The union may be asked for everything. -/
theorem Stands.can (n : Nat) (op : Operation) :
    (operations (Store.provider (n + 1)) w.2 w.1).covers (.only op) = true := by
  rw [operations_covers (hp.cleanTree h.clean) n h.base, List.any_eq_true]
  refine ⟨_, hp.mem, ?_⟩
  rw [Filesystem.allows_withTree]
  exact hp.can op

/-- Another tree in the place of the one that is there. -/
theorem Stands.step (ht' : t'.Clean) {o : Overlay Filesystem Entry}
    (ho : Over w.1 layers (w.1, o)) (hpolicy : o.policy = .eager) (hslots : 0 < o.listings.size) :
    Stands s layers id t' (w.1.withTree id t', o) := by
  refine ⟨ht', ⟨?_, ho.layers, ho.fold, ho.live⟩, hpolicy, hslots⟩
  have htrees := h.base.trees.withTree id t'
  rwa [Store.withTree_withTree hp.stored] at htrees

omit hp in
/-- Where the root must be listed anew, nothing is told. -/
theorem Stands.trusted (hd : (w.2.listing 0).dirty = true) : Trusted s layers id t w :=
  ⟨h, fun _ => "", holds_root h.slots rfl hd⟩

end

/-- What is told stays so if nothing in the tree becomes another kind. -/
theorem Trusted.step (hp : Workplace s layers id i dir) (h : Trusted s layers id t w)
    (ht' : t'.Clean) (hk : ∀ q, t'.kind q = t.kind q) :
    Trusted s layers id t' (w.1.withTree id t', w.2) := by
  obtain ⟨label, htold⟩ := h.told
  have hover : Over w.1 layers (w.1, w.2) := h.base.changed w.1
  refine ⟨h.toStands.step hp ht' hover h.policy h.slots, label, htold.mono ?_⟩
  intro d table _ _ hfaithful x hx
  have hc : ∀ m ∈ components d ++ [x], IsComponent m :=
    forall_mem_snoc (fun _ => isComponent_of_mem) hx
  have hshift : (s.withTree id t).Shift (s.withTree id t') layers fun _ => False :=
    hp.shift ht' fun ns _ _ => hk (ofNames ns)
  rw [hfaithful x hx, provided_shift (hp.cleanTree h.clean) hshift hc not_false]

/-! ## Creating -/

section
variable (n : Nat) (hp : Workplace s layers id i dir) (h : Stands s layers id t w)
include hp h

/-- What is made from the root is made in the tree of the one layer, or not at all. -/
theorem Stands.exec_create {kind : Kind} (hk : kind.isCreatable = true) {ns : List String}
    (hn : ∀ m ∈ ns, IsName m) (h0 : ns ≠ []) {r : Except Failure Unit}
    (hensure : (Memory.Tree.ensure w.1.clock (ofNames ns) kind).exec t = (r, t')) :
    (∀ e, r = .error e →
      (create (Store.provider (n + 1)) .root kind (ofNames ns)).exec w = (.error e, w)) ∧
    (r = .ok () → t'.Clean → ∃ slot w',
      (create (Store.provider (n + 1)) .root kind (ofNames ns)).exec w
          = (.ok (placed id i slot (ofNames ns)), w') ∧
        Trusted s layers id t' w' ∧ w'.1.clock = w.1.clock) := by
  have hnorm := normalize_ofNames hn
  obtain ⟨hno | hno, -⟩ | ⟨id', i', r', u, -, htaker, hmade, herr, hok⟩ :=
    create_root_cases n (h.cleanTree hp) hp.bare hk h.base.layers h.base.live (ofNames ns)
  · rw [hnorm, ofNames_eq_empty fun m hm => (hn m hm).1] at hno
    exact absurd hno h0
  · rw [taker?_congr h.base.trees, hp.taker_withTree h.clean] at hno
    cases hno
  rw [taker?_congr h.base.trees, hp.taker_withTree h.clean] at htaker
  obtain ⟨hid, rfl⟩ := Prod.mk.inj (Option.some.inj htaker)
  obtain rfl := Filesystem.memory.inj hid
  rw [hnorm, h.memory_eq hp] at hmade
  obtain ⟨rfl, rfl⟩ := Prod.mk.inj (hmade.symm.trans hensure)
  refine ⟨herr, fun hr ht' => ?_⟩
  let offer : Offer Entry := ⟨ofNames ns, .memory id (ofNames ns), i⟩
  let made := (noted w.2 0).addNode offer
  refine ⟨(noted w.2 0).listings.size, (w.1.withTree id u, made.2), ?_, ?_, rfl⟩
  · rw [hok hr, hnorm]
    rfl
  · have hnoted : noted w.2 0 = w.2.invalidate 0 := if_pos h.policy
    have hover := (h.base.changed w.1).noted 0
    have hover' : Over w.1 layers (w.1, made.2) :=
      ⟨hover.trees, hover.layers, hover.fold, hover.live⟩
    refine (h.step hp ht' hover' ?_ ?_).trusted ?_
    · show (noted w.2 0).policy = .eager
      rw [hnoted]
      exact h.policy
    · simp [made]
    · show (((noted w.2 0).addNode offer).2.listing 0).dirty = true
      rw [listing_addNode, hnoted, listing_invalidate, if_pos rfl]

/-- A kind that nothing has is not made. -/
theorem Stands.exec_create_unknown (name : String) :
    (create (Store.provider (n + 1)) .root .unknown name).exec w
      = (.error (.unusableKind Kind.unknown.name), w) := by
  rw [create]
  simp only [exec_bind, exec_requireLive h.base.live, exec_require, if_pos (h.can hp n .create)]
  rfl

/-- Below a file nothing is made. -/
theorem Stands.exec_create_below_file {kind : Kind} (hk : kind.isCreatable = true)
    {slot : Nat} {path : String} (hfile : t.kind path = .file) (name : String) :
    (create (Store.provider (n + 1)) (placed id i slot path) kind name).exec w
      = (.error (.notADirectory path), w) := by
  have hkind : Overlay.kind (Store.provider (n + 1)) (placed id i slot path) w.1 = .file := by
    show (w.1.memory id).kind path = .file
    rw [h.memory_eq hp]
    exact hfile
  rw [create]
  simp only [exec_bind, exec_requireLive h.base.live, exec_require, if_pos (h.can hp n .create),
    if_pos hk, exec_requireDirectory_of_kind hkind]
  rfl

end

/-! ## Reading and writing -/

/-- A file that its own layer opens is opened there. -/
theorem exec_openStream_own {σ F E S : Type} (P : Provider σ F E S) {w : σ × Overlay F E}
    (hlive : w.2.released = false) (child : Child E) {mode : OpenMode} {required : Operations}
    (hcheck : mode.checkAgainst (operations P w.2 w.1) child.offer.path = .ok required)
    (hfile : P.kind child.offer.source w.1 = .file) {stream : S} {s' : σ}
    (hopen : (P.openStream child.offer.source mode).exec w.1 = (.ok stream, s')) :
    (openStream P (.entry child) mode).exec w = (.ok stream, (s', w.2)) := by
  have hkind : (kind P (.entry child) w.1).isFile = true := by
    show (P.kind child.offer.source w.1).isFile = true
    rw [hfile]
    rfl
  rw [openStream]
  simp only [exec_bind, exec_requireLive hlive, exec_get, exec_ofExcept, Node.path, hcheck,
    if_pos hkind, Node.source?, exec_attempt, exec_below, hopen, exec_pure]

/-! The streams of a union are those of the world below it. -/

section
variable {σ F E S : Type} {P : Provider σ F E S} {a b : S} {r : Except IoError Unit} {u u' : σ}

theorem run_writeAll_of {data : Bytes} (h : (P.streams.writeAll a data).run u = ((r, b), u'))
    (o : Overlay F E) :
    ((Overlay.provider P).streams.writeAll a data).run (u, o) = ((r, b), (u', o)) := by
  show (let (x, v) := (P.streams.writeAll a data).run u; (x, (v, o))) = _
  rw [h]

theorem run_flush_of (h : (P.streams.flush a).run u = ((r, b), u')) (o : Overlay F E) :
    ((Overlay.provider P).streams.flush a).run (u, o) = ((r, b), (u', o)) := by
  show (let (x, v) := (P.streams.flush a).run u; (x, (v, o))) = _
  rw [h]

end

/-- The contents of a file are replaced where opening, writing and flushing succeed. -/
theorem exec_writeContents_of {σ F E S : Type} {P : Provider σ F E S} {e : E} {data : Bytes}
    {a b c : S} {s₀ s₁ s₂ s₃ s₄ : σ} (hopen : (P.openStream e .writing).exec s₀ = (.ok a, s₁))
    (hwrite : (P.streams.writeAll a data).run s₁ = ((.ok (), b), s₂))
    (hflush : (P.streams.flush b).run s₂ = ((.ok (), c), s₃))
    (hclose : (P.streams.close c).run s₃ = ((), s₄)) :
    (P.writeContents e data).exec s₀ = (.ok (), s₄) := by
  rw [Provider.writeContents]
  simp only [exec_bind, hopen, exec_lift, hwrite, hflush, hclose]
  rfl

section
variable (n : Nat) (hp : Workplace s layers id i dir) (h : Stands s layers id t w) {slot : Nat}
  {path : String} {data : Bytes} {mtime : Timestamp}
  (hf : t.find? path = some (.file data mtime))
include hp h hf

theorem Stands.exec_openStream {mode : OpenMode} {op : Operation} (hmode : mode.required = .only op)
    {stream : Stream} {s' : Store}
    (hopen : ((Store.provider (n + 1)).openStream (.memory id path) mode).exec w.1
      = (.ok stream, s')) :
    (openStream (Store.provider (n + 1)) (placed id i slot path) mode).exec w
      = (.ok stream, (s', w.2)) := by
  have hsome : mode.required.isNone = false := by
    rw [hmode]
    cases op <;> rfl
  have hcan : (operations (Store.provider (n + 1)) w.2 w.1).covers mode.required = true := by
    rw [hmode]
    exact h.can hp n op
  have hfile : (Store.provider (n + 1)).kind (.memory id path) w.1 = .file := by
    show (w.1.memory id).kind path = .file
    rw [h.memory_eq hp]
    exact Memory.kind_of_file hf
  exact exec_openStream_own (Store.provider (n + 1)) h.base.live ⟨slot, ⟨path, .memory id path, i⟩⟩
    (checkAgainst_eq_ok hsome hcan path) hfile hopen

/-- A file of the one layer is read there. -/
theorem Stands.exec_readContents :
    ((Overlay.provider (Store.provider (n + 1))).readContents (placed id i slot path)).exec w
      = (.ok data, w) := by
  have hread : (w.1.memory id).operations.covers (.only .read) = true :=
    Operations.covers_of_all (h.able hp) _
  have hfile : (w.1.memory id).tree.find? path = some (.file data mtime) := by
    rw [h.tree_eq hp]
    exact hf
  have hopen : (openStream (Store.provider (n + 1)) (placed id i slot path) .reading).exec w
      = (.ok (.buffer (.reader data) none), w) := by
    have hmode : OpenMode.reading.required = .only .read := rfl
    refine h.exec_openStream n hp hf hmode ?_
    rw [Filesystem.exec_openStream_memory, Memory.exec_openBuffer_reading hread hfile,
      Store.setMemory_self]
    rfl
  have hcall :
      (Overlay.provider (Store.provider (n + 1))).openStream (placed id i slot path) .reading
        = openStream (Store.provider (n + 1)) (placed id i slot path) .reading := rfl
  rw [Provider.readContents, exec_bind, hcall, hopen]
  exact exec_readAll (n + 1) data w

/-- What is written to a file of the one layer is in it afterwards, with the time of the clock. -/
theorem Stands.exec_writeContents {data' : Bytes} (h0 : data' ≠ []) :
    ((Overlay.provider (Store.provider (n + 1))).writeContents (placed id i slot path) data').exec w
      = (.ok (), (w.1.withTree id ((t.put path (.file [] w.1.clock)).put path
          (.file data' w.1.clock)), w.2)) := by
  have hwrite : (w.1.memory id).operations.covers (.only .write) = true :=
    Operations.covers_of_all (h.able hp) _
  have htree := h.tree_eq hp
  have hfile : (w.1.memory id).tree.find? path = some (.file data mtime) := by
    rw [htree]
    exact hf
  let emptied := t.put path (.file [] w.1.clock)
  let s₁ := w.1.withTree id emptied
  let b : Buffer :=
    { contents := data', position := data'.length, writable := true, dirty := true }
  have hopen : (openStream (Store.provider (n + 1)) (placed id i slot path) .writing).exec w
      = (.ok (.buffer (.writer []) (some (id, path))), (s₁, w.2)) := by
    have hmode : OpenMode.writing.required = .only .write := rfl
    refine h.exec_openStream n hp hf hmode ?_
    rw [Filesystem.exec_openStream_memory, Memory.exec_openBuffer_writing hwrite hfile, htree]
    rfl
  have hmem₁ : s₁.memory id = { w.1.memory id with tree := emptied } := by
    rw [Store.memory_withTree (h.stored hp), if_pos rfl]
  have hfile₁ : (s₁.memory id).tree.find? path = some (.file [] w.1.clock) := by
    rw [hmem₁]
    exact (Memory.Tree.find?_put _ _ _ _).trans (if_pos rfl)
  have hwritten : (Store.streams.writeAll (.buffer (.writer []) (some (id, path))) data').run s₁
      = ((.ok (), .buffer b (some (id, path))), s₁) := Store.run_writeAll_writer h0 _ s₁
  have hflushed := Store.run_flush hfile₁ (show b.dirty = true from rfl)
  have hkept : s₁.withTree id ((s₁.memory id).tree.put path (.file data' w.1.clock))
      = w.1.withTree id (emptied.put path (.file data' w.1.clock)) := by
    rw [hmem₁, Store.withTree_withTree (h.stored hp)]
  rw [← hkept]
  exact exec_writeContents_of hopen (run_writeAll_of hwritten w.2) (run_flush_of hflushed w.2) rfl

end

/-! ## Looking up -/

section
variable (n : Nat) (hp : Workplace s layers id i dir)
include hp

/-- What a lookup in the directory answers. -/
theorem Trusted.exec_child (h : Trusted s layers id t w) {rest : List String}
    (hn : ∀ m ∈ dir :: rest, IsName m)
    (hway : ∀ ms, ms <+: rest → ms ≠ rest → t.kind (ofNames (dir :: ms)) = .directory) :
    ∃ r w', (child (Store.provider (n + 1)) .root (ofNames (dir :: rest))).exec w = (.ok r, w') ∧
      Trusted s layers id t w' ∧
      r.map Node.offer? = if (t.kind (ofNames (dir :: rest))).exists? then
        some (some ⟨ofNames (dir :: rest), .memory id (ofNames (dir :: rest)), i⟩) else none := by
  obtain ⟨label, htold⟩ := h.told
  have hs := hp.cleanTree h.clean
  have hmerged : ∀ d, Path.Clean d →
      Faithful (s.withTree id t) layers d (merged (s.withTree id t) layers d) :=
    fun d hd => faithful_merged hs hd
  obtain ⟨r, label', w', he, hq, -, hr, -⟩ :=
    Overlay.exec_child hs n hmerged (ofNames (dir :: rest)) h.base htold
  have hroot : components (Node.root : Node Entry).path = [] := components_empty
  have hguides : Guides (s.withTree id t) layers (Faithful (s.withTree id t) layers)
      (components (Node.root : Node Entry).path
        ++ components (normalize (ofNames (dir :: rest)) false)) := by
    rw [hroot, List.nil_append]
    exact guides_faithful fun _ => isComponent_of_mem
  have hfound := (hr hguides).trans (hp.foundBelow_eq h.clean hn hway)
  cases r with
  | error e => cases hfound
  | ok r =>
      refine ⟨r, w', he, ⟨⟨h.clean, hq.base, hq.policy.trans h.policy, h.slots.trans_le hq.size⟩,
        label', hq.holds _ _ hmerged htold⟩, Except.ok.inj hfound⟩

theorem Trusted.exec_child_placed (h : Trusted s layers id t w) {rest : List String}
    (hn : ∀ m ∈ dir :: rest, IsName m)
    (hway : ∀ ms, ms <+: rest → ms ≠ rest → t.kind (ofNames (dir :: ms)) = .directory)
    (hex : (t.kind (ofNames (dir :: rest))).exists? = true) :
    ∃ slot w', (child (Store.provider (n + 1)) .root (ofNames (dir :: rest))).exec w
        = (.ok (some (placed id i slot (ofNames (dir :: rest)))), w') ∧
      Trusted s layers id t w' := by
  obtain ⟨r, w', he, h', hr⟩ := h.exec_child n hp hn hway
  rw [if_pos hex] at hr
  obtain ⟨node, rfl, hnode⟩ := Option.map_eq_some_iff.mp hr
  cases node with
  | root => cases hnode
  | entry c =>
      obtain ⟨slot, offer⟩ := c
      obtain rfl : offer = _ := Option.some.inj hnode
      exact ⟨slot, w', he, h'⟩

theorem Trusted.exec_child_missing (h : Trusted s layers id t w) {rest : List String}
    (hn : ∀ m ∈ dir :: rest, IsName m)
    (hway : ∀ ms, ms <+: rest → ms ≠ rest → t.kind (ofNames (dir :: ms)) = .directory)
    (hmiss : t.kind (ofNames (dir :: rest)) = .unknown) :
    ∃ w', (child (Store.provider (n + 1)) .root (ofNames (dir :: rest))).exec w = (.ok none, w') ∧
      Trusted s layers id t w' := by
  obtain ⟨r, w', he, h', hr⟩ := h.exec_child n hp hn hway
  rw [hmiss, if_neg (by decide)] at hr
  rw [Option.map_eq_none_iff.mp hr] at he
  exact ⟨w', he, h'⟩

end

/-! ## Moving and deleting -/

section
variable (n : Nat) (hp : Workplace s layers id i dir)
include hp

/-- A move touches the place that is left and the one that is taken. -/
theorem Workplace.shift_move {ps qs : List String} {x : String} (hmov : t.Movable ps qs x) :
    (s.withTree id t).Shift (s.withTree id (t.moveWithin (ofNames ps) (ofNames (qs ++ [x])))) layers
      (Lost fun place => place = ps ∨ place = qs ++ [x]) :=
  hp.shift hmov.clean_moveWithin fun _ hns hout => hmov.kind_frame hns
    (fun hin => hout ⟨_, .inl rfl, hin⟩) fun hin => hout ⟨_, .inr rfl, hin⟩

/-- A handle of the one layer moves what can be moved in its tree. -/
theorem Stands.exec_rename_placed (h : Stands s layers id t w) {ps qs : List String}
    {x : String} (hmov : t.Movable ps qs x) :
    ((Store.provider (n + 1)).rename (.memory id (ofNames ps)) (ofNames (qs ++ [x]))).exec w.1
      = (.ok (), w.1.withTree id (t.moveWithin (ofNames ps) (ofNames (qs ++ [x])))) := by
  have hops : (w.1.memory id).operations.covers (.only .delete ∪ .only .create) = true :=
    Operations.covers_of_all (h.able hp) _
  have htree := h.tree_eq hp
  have hmoved := Memory.exec_rename_of_movable w.1.clock hops (htree.symm ▸ hmov)
  show (Entry.rename (Store.provider n) (.memory id (ofNames ps))
    (ofNames (qs ++ [x]))).exec w.1 = _
  rw [Entry.rename]
  simp only [exec_bind, exec_get, Store.exec_inMemory, hmoved, htree]
  rfl

/-- What gets another name in its directory is renamed in the tree of the one layer, and the
listings of the directory are not believed any more. -/
theorem Trusted.exec_rename (h : Trusted s layers id t w) {front : List String} {a b : String}
    (hmov : t.Movable (front ++ [a]) front b) (slot : Nat) :
    ∃ w', (rename (Store.provider (n + 1)) (placed id i slot (ofNames (front ++ [a])))
        (ofNames (front ++ [b]))).exec w = (.ok (), w') ∧
      Trusted s layers id (t.moveWithin (ofNames (front ++ [a])) (ofNames (front ++ [b]))) w' := by
  let t' := t.moveWithin (ofNames (front ++ [a])) (ofNames (front ++ [b]))
  let child : Child Entry :=
    ⟨slot, ⟨ofNames (front ++ [a]), .memory id (ofNames (front ++ [a])), i⟩⟩
  have ht' : t'.Clean := hmov.clean_moveWithin
  have hcomp : components child.offer.path = front ++ [a] :=
    components_ofNames fun m hm => (hmov.source m hm).1
  have hmoved :
      ((Store.provider (n + 1)).rename child.offer.source (ofNames (front ++ [b]))).exec w.1
        = (.ok (), w.1.withTree id t') := h.exec_rename_placed n hp hmov
  have hstands : Stands s layers id t' (w.1.withTree id t', w.2) :=
    h.toStands.step hp ht' (h.base.changed w.1) h.policy h.slots
  have hs' : ∀ f ∈ layers, f.CleanTree (w.1.withTree id t') := hstands.cleanTree hp
  obtain ⟨label, htold⟩ := h.told
  have hroot : Holds layers label Whatever w.2 .root := htold.mono fun _ _ _ _ _ => trivial
  have hinner : components child.offer.path ≠ [] := by rw [hcomp]; simp
  have hover : Over w.1 layers w := h.base.changed w.1
  have hclean : Path.Clean child.offer.path := clean_ofNames hmov.source
  obtain ⟨label₁, w₁, top, m, hq, -, htop, hm, hexec⟩ :=
    exec_rename_of_moved n hs' hover hroot hclean hinner hmoved
  rw [hcomp, List.dropLast_concat] at htop
  refine ⟨(w₁.1, w₁.2.invalidate m.slot), hexec, ⟨ht', ?_, hq.policy.trans h.policy, ?_⟩,
    label₁, ?_⟩
  · have hbase := hq.base
    exact ⟨hstands.base.trees.trans hbase.trees, hbase.layers, hbase.fold, hbase.live⟩
  · rw [size_invalidate]
    exact h.slots.trans_le hq.size
  · -- what is told in the directory of other names than the two is so; its listing is dropped
    let lost : List String → Prop := fun place => place = front ++ [a] ∨ place = front ++ [b]
    have hshift : (s.withTree id t).Shift (w.1.withTree id t') layers (Lost lost) :=
      (hp.shift_move hmov).trans (hstands.base.trees.shift (hp.cleanTree ht') _)
    have hbefore : Holds layers label (FaithfulBut lost (s.withTree id t) layers) w.2 .root :=
      htold.mono fun _ _ _ _ hf x hx => .inr (hf x hx)
    have hlost : Holds layers label (FaithfulBut lost (w.1.withTree id t') layers) w.2 .root :=
      hbefore.change_lost (hp.cleanTree h.clean) hshift fun _ ht => ht
    have hkept := hq.holds _ _ (fun _ hd => faithfulBut_merged hs' hd) hlost
    have hshed := hkept.shed fun k hk _ => congrArg Node.slot (Option.some.inj (hk.symm.trans hm))
    refine hshed.mono fun d table _ _ hd x hx => ?_
    rcases hd.1 x hx with ⟨place, hplace | hplace, hpre⟩ | he
    · exact absurd (htop.trans (snoc_prefix_drop (hplace ▸ hpre))) hd.2
    · exact absurd (htop.trans (snoc_prefix_drop (hplace ▸ hpre))) hd.2
    · exact he.trans (provided_congr hstands.base.trees _)

/-- To delete the directory removes it from the tree of the one layer. -/
theorem Stands.exec_delete (h : Stands s layers id t w) :
    ∃ w', (delete (Store.provider (n + 1)) .root dir).exec w = (.ok (t.kind dir).exists?, w') ∧
      Stands s layers id (t.removeWithin dir) w' ∧
      ((t.kind dir).exists? = true → (w'.2.listing 0).dirty = true) := by
  have hclean := h.clean.removeWithin_name hp.named
  have hmem := h.memory_eq hp
  have hcan : (w.1.memory id).operations.covers (.only .delete) = true :=
    Operations.covers_of_all (h.able hp) _
  have honly : ∀ f ∈ layers, f ≠ .memory id → (f.outline w.1).kind dir = .unknown := by
    intro f hf hne
    rw [Filesystem.outline_congr h.base.trees, Filesystem.outline_withTree (hp.bare f hf) hne]
    exact hp.free f hf
  have hdelete : (deleteInLayers (Store.provider (n + 1)) (Node.root : Node Entry).path dir
      w.2.layers false).exec w.1
        = (.ok (t.kind dir).exists?, w.1.withTree id (t.removeWithin dir)) := by
    have hone := exec_deleteInLayers_of_one n hp.named (h.stored hp) (h.cleanTree hp) hp.bare hcan
      honly false
    rw [if_pos hp.mem, hmem] at hone
    rw [h.base.layers]
    exact hone
  have hexec :=
    exec_delete_of_name h.base.live h.base.fold (h.can hp n .delete) rfl hp.named hdelete
  have hnoted : noted w.2 0 = w.2.invalidate 0 := if_pos h.policy
  refine ⟨_, hexec, ?_⟩
  by_cases hex : (t.kind dir).exists? = true
  · rw [if_pos hex]
    have hover := (h.base.changed w.1).noted 0
    refine ⟨h.step hp hclean hover ?_ ?_, fun _ => ?_⟩
    · show (noted w.2 0).policy = .eager
      rw [hnoted]
      exact h.policy
    · show 0 < (noted w.2 0).listings.size
      rw [hnoted, size_invalidate]
      exact h.slots
    · show ((noted w.2 0).listing 0).dirty = true
      rw [hnoted, listing_invalidate, if_pos rfl]
  · rw [if_neg hex]
    exact ⟨h.step hp hclean (h.base.changed w.1) h.policy h.slots, fun hyes => absurd hyes hex⟩

end

end Overlay

end Strata
