/-
# `Strata.Proofs.Contract` — a union passes the writing contract

A check is a run of calls, each of which must answer in a certain way.  `Passes` says
that it comes to its end, and each kind of step has its rule.

The writing contract makes a directory with one file, works on the file, and removes
the directory again.  Between two of its calls the world is told by what the file is
called and holds (`Working`); the calls lead from one such world to the next, and the
last deletion leads back to the trees of the start, whatever was cached before and
whatever the calls cached in between (`writing_passes`).
-/
import Strata.Contract
import Strata.Proofs.Overlay.Workplace

namespace Strata

open Strata.Action Strata.Path

namespace Contract

/-! ## Rules for checks -/

section
variable {σ F E S α β : Type} {P : Provider σ F E S} {s t : σ} {post : β → σ → Prop}

/-- The check does not fail, and of its answer and the world that it leaves behind this holds. -/
def Passes (x : Check σ β) (s : σ) (post : β → σ → Prop) : Prop :=
  ∃ b t, x.run.run s = (.ok b, t) ∧ post b t

theorem Passes.pure {b : β} (h : post b s) : Passes (pure b) s post := ⟨b, s, rfl, h⟩

theorem Passes.bind {x : Check σ α} {f : α → Check σ β} {a : α} (h : x.run.run s = (.ok a, t))
    (hf : Passes (f a) t post) : Passes (x >>= f) s post := by
  obtain ⟨b, u, hrun, hpost⟩ := hf
  refine ⟨b, u, ?_, hpost⟩
  rw [ExceptT.run_bind, StateT.run_bind, h]
  exact hrun

theorem Passes.get {f : σ → Check σ β} (hf : Passes (f s) s post) :
    Passes (MonadState.get >>= f) s post := .bind rfl hf

theorem Passes.ensure {f : Unit → Check σ β} {b : Bool} {message : String} (hb : b = true)
    (hf : Passes (f ()) s post) : Passes (ensure b message >>= f) s post := by
  refine .bind ?_ hf
  rw [hb]
  rfl

theorem run_call {x : Action σ α} {a : α} (h : x.exec s = (.ok a, t)) :
    (call x).run.run s = (.ok a, t) := by
  have h : x.run.run s = (.ok a, t) := h
  rw [call, ExceptT.run_mk, StateT.run_bind, h]
  rfl

theorem Passes.call {x : Action σ α} {f : α → Check σ β} {a : α} (h : x.exec s = (.ok a, t))
    (hf : Passes (f a) t post) : Passes (call x >>= f) s post := .bind (run_call h) hf

theorem Passes.failing {x : Action σ α} {f : Unit → Check σ β} {what : String}
    {expected : Failure → Bool} {e : Failure} (h : x.exec s = (.error e, t))
    (he : expected e = true) (hf : Passes (f ()) t post) :
    Passes (failing x what expected >>= f) s post := by
  refine .bind ?_ hf
  have h : x.run.run s = (.error e, t) := h
  rw [Contract.failing, ExceptT.run_mk, StateT.run_bind, h]
  show (if expected e then _ else _ : StateM σ _).run t = _
  rw [if_pos he]
  rfl

theorem Passes.find {f : F} {path : String} {k : E → Check σ β} {e : E}
    (h : (P.child (P.root f) path).exec s = (.ok (some e), t)) (hk : Passes (k e) t post) :
    Passes (find P f path >>= k) s post := by
  refine .bind ?_ hk
  have h : (P.child (P.root f) path).run.run s = (.ok (some e), t) := h
  rw [Contract.find, ExceptT.run_bind, StateT.run_bind, callFor, ExceptT.run_mk, StateT.run_bind, h]
  rfl

end

end Contract

namespace Overlay

variable {s : Store} {layers : List Filesystem} {id i slot : Nat}
  {dir name other path path' : String} {data : Bytes} {mtime : Timestamp}
  {w : Store × Overlay Filesystem Entry}

/-! ## A directory with one file -/

/-- The tree of the one layer is that of the store, but for a directory with one file in it. -/
structure Working (s : Store) (layers : List Filesystem) (id : Nat) (dir name path : String)
    (data : Bytes) (mtime : Timestamp) (w : Store × Overlay Filesystem Entry) : Prop where
  named : IsName name
  place : ofNames [dir, name] = path
  tree : ∃ t, Trusted s layers id t w ∧ (s.memory id).tree.Stocked t dir name data mtime

section
variable (n : Nat) (hp : Workplace s layers id i dir)
include hp

theorem Workplace.missing : (s.memory id).tree.kind dir = .unknown := hp.free _ hp.mem

/-- The file is made, and the directory with it. -/
theorem Stands.exec_create_file (h : Stands s layers id (s.memory id).tree w) (hname : IsName name)
    (hpath : ofNames [dir, name] = path) :
    ∃ slot w', (create (Store.provider (n + 1)) .root .file path).exec w
        = (.ok (placed id i slot path), w') ∧
      Working s layers id dir name path [] w.1.clock w' ∧ w'.1.clock = w.1.clock := by
  subst hpath
  obtain ⟨t, hensure, hstocked⟩ :=
    Memory.Tree.stocked_ensure hp.named hname w.1.clock h.clean hp.missing
  have hn := Memory.Tree.isName_pair hp.named hname
  obtain ⟨-, hok⟩ := h.exec_create n hp rfl hn (List.cons_ne_nil _ _) hensure
  obtain ⟨slot, w', he, h', hclock⟩ := hok rfl hstocked.clean
  exact ⟨slot, w', he, ⟨hname, rfl, t, h', hstocked⟩, hclock⟩

namespace Working

variable (h : Working s layers id dir name path data mtime w)
include h

omit hp in
theorem toStands : ∃ t, Stands s layers id t w ∧ t.kind path = .file := by
  obtain ⟨-, rfl, t, ht, hstocked⟩ := h
  exact ⟨t, ht.toStands, hstocked.kind_file⟩

theorem kind_file : (w.1.memory id).kind path = .file := by
  obtain ⟨t, ht, hfile⟩ := h.toStands
  rw [ht.memory_eq hp]
  exact hfile

theorem modified_file : (w.1.memory id).modified path = mtime := by
  obtain ⟨-, rfl, t, ht, hstocked⟩ := h
  rw [ht.memory_eq hp, Memory.modified]
  simp only [hstocked.file]
  rfl

theorem kind_directory : (w.1.memory id).kind dir = .directory := by
  obtain ⟨-, -, t, ht, hstocked⟩ := h
  rw [ht.memory_eq hp]
  exact hstocked.directory

/-- The file is there already when it is made again. -/
theorem exec_create_file :
    ∃ slot w', (create (Store.provider (n + 1)) .root .file path).exec w
        = (.ok (placed id i slot path), w') ∧
      Working s layers id dir name path data mtime w' := by
  obtain ⟨hname, rfl, t, ht, hstocked⟩ := h
  have hn := Memory.Tree.isName_pair hp.named hname
  have hensure := hstocked.exec_ensure_file hp.named hname w.1.clock
  obtain ⟨-, hok⟩ := ht.exec_create n hp rfl hn (List.cons_ne_nil _ _) hensure
  obtain ⟨slot, w', he, h', -⟩ := hok rfl ht.clean
  exact ⟨slot, w', he, hname, rfl, t, h', hstocked⟩

/-- A directory is not made in the place of the file. -/
theorem exec_create_directory :
    (create (Store.provider (n + 1)) .root .directory path).exec w
      = (.error (.conflict path), w) := by
  obtain ⟨hname, rfl, t, ht, hstocked⟩ := h
  have hn := Memory.Tree.isName_pair hp.named hname
  have hensure := hstocked.exec_ensure_directory hp.named hname w.1.clock
  exact (ht.exec_create n hp rfl hn (List.cons_ne_nil _ _) hensure).1 _ rfl

theorem exec_readContents :
    ((Overlay.provider (Store.provider (n + 1))).readContents (placed id i slot path)).exec w
      = (.ok data, w) := by
  obtain ⟨-, rfl, t, ht, hstocked⟩ := h
  exact ht.exec_readContents n hp hstocked.file

theorem exec_writeContents {data' : Bytes} (h0 : data' ≠ []) (slot : Nat) :
    ∃ w', ((Overlay.provider (Store.provider (n + 1))).writeContents
        (placed id i slot path) data').exec w = (.ok (), w') ∧
      Working s layers id dir name path data' w.1.clock w' := by
  obtain ⟨hname, rfl, t, ht, hstocked⟩ := h
  have hemptied := hstocked.fill hp.named hname [] w.1.clock
  have hfilled := hemptied.fill hp.named hname data' w.1.clock
  refine ⟨_, ht.exec_writeContents n hp hstocked.file h0, hname, rfl, _,
    ht.step hp hfilled.clean fun q => ?_, hfilled⟩
  exact (Memory.Tree.kind_put_file hemptied.file data' w.1.clock q).trans
    (Memory.Tree.kind_put_file hstocked.file [] w.1.clock q)

theorem exec_child_file :
    ∃ slot w', (child (Store.provider (n + 1)) .root path).exec w
        = (.ok (some (placed id i slot path)), w') ∧
      Working s layers id dir name path data mtime w' := by
  obtain ⟨hname, rfl, t, ht, hstocked⟩ := h
  have hn := Memory.Tree.isName_pair hp.named hname
  have hex : (t.kind (ofNames [dir, name])).exists? = true := by
    rw [hstocked.kind_file]
    rfl
  obtain ⟨slot, w', he, h'⟩ := ht.exec_child_placed n hp hn (hstocked.way name) hex
  exact ⟨slot, w', he, hname, rfl, t, h', hstocked⟩

theorem exec_child_directory :
    ∃ slot w', (child (Store.provider (n + 1)) .root dir).exec w
        = (.ok (some (placed id i slot dir)), w') ∧
      Working s layers id dir name path data mtime w' := by
  obtain ⟨hname, hpath, t, ht, hstocked⟩ := h
  have hn : ∀ m ∈ [dir], IsName m := by simp [hp.named]
  have hex : (t.kind (ofNames [dir])).exists? = true := by
    rw [ofNames_singleton, hstocked.directory]
    rfl
  obtain ⟨slot, w', he, h'⟩ := ht.exec_child_placed n hp hn (by simp) hex
  rw [ofNames_singleton] at he
  exact ⟨slot, w', he, hname, hpath, t, h', hstocked⟩

variable (hother : IsName other) (hne : other ≠ name) (hpath' : ofNames [dir, other] = path')
include hother hne hpath'

/-- No other name is in the directory. -/
theorem exec_child_other :
    ∃ w', (child (Store.provider (n + 1)) .root path').exec w = (.ok none, w') ∧
      Working s layers id dir name path data mtime w' := by
  obtain ⟨hname, hpath, t, ht, hstocked⟩ := h
  have hn := Memory.Tree.isName_pair hp.named hother
  obtain ⟨w', he, h'⟩ :=
    ht.exec_child_missing n hp hn (hstocked.way other) (hstocked.only other hother hne)
  rw [hpath'] at he
  exact ⟨w', he, hname, hpath, t, h', hstocked⟩

/-- The file gets another name. -/
theorem exec_rename (slot : Nat) :
    ∃ w', (rename (Store.provider (n + 1)) (placed id i slot path) path').exec w = (.ok (), w') ∧
      Working s layers id dir other path' data mtime w' := by
  obtain ⟨hname, rfl, t, ht, hstocked⟩ := h
  have hmov : t.Movable ([dir] ++ [name]) [dir] other :=
    hstocked.movable hp.named hname hother hne
  obtain ⟨w', he, h'⟩ := ht.exec_rename n hp hmov slot
  rw [← hpath']
  exact ⟨w', he, hother, rfl, _, h', hstocked.move hp.named hname hother hne⟩

omit hother hne hpath'

/-- The directory goes, and the tree is as it was. -/
theorem exec_delete :
    ∃ w', (delete (Store.provider (n + 1)) .root dir).exec w = (.ok true, w') ∧
      Trusted s layers id (s.memory id).tree w' := by
  obtain ⟨-, -, t, ht, hstocked⟩ := h
  obtain ⟨w', he, h', hdirty⟩ := ht.exec_delete n hp
  rw [hstocked.directory] at he hdirty
  rw [hstocked.rest] at h'
  exact ⟨w', he, h'.trusted (hdirty rfl)⟩

end Working

/-- Where no layer has the name, it is not found. -/
theorem Trusted.exec_child_free (h : Trusted s layers id (s.memory id).tree w) :
    ∃ w', (child (Store.provider (n + 1)) .root dir).exec w = (.ok none, w') ∧
      Trusted s layers id (s.memory id).tree w' := by
  have hn : ∀ m ∈ [dir], IsName m := by simp [hp.named]
  have hmiss : (s.memory id).tree.kind (ofNames [dir]) = .unknown := by
    rw [ofNames_singleton]
    exact hp.missing
  have hchild := h.exec_child_missing n hp hn (by simp) hmiss
  rwa [ofNames_singleton] at hchild

/-- Where no layer has the name, nothing is deleted. -/
theorem Stands.exec_delete_free (h : Stands s layers id (s.memory id).tree w) :
    ∃ w', (delete (Store.provider (n + 1)) .root dir).exec w = (.ok false, w') ∧
      Stands s layers id (s.memory id).tree w' := by
  obtain ⟨w', he, h', -⟩ := h.exec_delete n hp
  rw [hp.missing] at he
  rw [h.clean.removeWithin_missing_name hp.named hp.missing] at h'
  exact ⟨w', he, h'⟩

end

/-! ## The writing contract -/

open Contract in
/-- The calls of the contract one after another. -/
theorem Stands.passes_writing (n : Nat) (hp : Workplace s layers id i "scratch")
    (hp' : Workplace s layers id i "missing") (h : Stands s layers id (s.memory id).tree w)
    (hclock : w.1.clock.isAfter .epoch = true) :
    Passes (writing (Overlay.provider (E := Entry) (Store.provider (n + 1))) ()) w
      fun _ w' => Stands s layers id (s.memory id).tree w' := by
  have hnew : IsName "new.txt" := by decide
  have hrenamed : IsName "renamed.txt" := by decide
  have hpath : ofNames ["scratch", "new.txt"] = "scratch/new.txt" := by decide
  have hpath' : ofNames ["scratch", "renamed.txt"] = "scratch/renamed.txt" := by decide
  have htext : Bytes.ofText "fresh" ≠ [] := by decide +kernel
  have hall : (operations (Store.provider (n + 1)) w.2 w.1).covers .all = true :=
    Operations.covers_iff.mpr fun op _ => Operations.covers_only.mp (h.can hp n op)
  refine .get <| .get <| .ensure hall ?_
  -- the file is made and filled, and it is found with its text
  obtain ⟨made, w₁, he, hw, htime⟩ := h.exec_create_file n hp hnew hpath
  refine .call he <| .ensure rfl <| .get <| .ensure (congrArg Kind.isFile (hw.kind_file hp)) ?_
  obtain ⟨w₂, he, hw⟩ := hw.exec_writeContents n hp htext made
  refine .call he ?_
  obtain ⟨slot, w₃, he, hw⟩ := hw.exec_child_file n hp
  refine .find he <| .call (hw.exec_readContents n hp) <| .ensure (beq_self_eq_true _) ?_
  obtain ⟨slot, w₄, he, hw⟩ := hw.exec_child_directory n hp
  refine .find he <| .get <| .ensure (congrArg Kind.isDirectory (hw.kind_directory hp)) ?_
  -- made again it is the same file, and nothing else is made in its place or below it
  obtain ⟨slot, w₅, he, hw⟩ := hw.exec_create_file n hp
  refine .call he <| .failing (hw.exec_create_directory n hp) rfl ?_
  obtain ⟨t, ht, hfile⟩ := hw.toStands
  refine .failing (ht.exec_create_unknown n hp "scratch/what") rfl ?_
  refine .failing (ht.exec_create_below_file n hp rfl hfile "inside") rfl ?_
  have hmodified : (w₅.1.memory id).modified "scratch/new.txt" = w.1.clock :=
    (hw.modified_file hp).trans htime
  refine .get <| .ensure ((congrArg (Timestamp.isAfter · .epoch) hmodified).trans hclock) ?_
  -- it gets another name
  obtain ⟨slot, w₆, he, hw⟩ := hw.exec_child_file n hp
  obtain ⟨w₇, hmoved, hw⟩ := hw.exec_rename n hp hrenamed (by decide) hpath' slot
  refine .find he <| .call hmoved ?_
  obtain ⟨w₈, he, hw⟩ := hw.exec_child_other n hp hnew (by decide) hpath
  refine .call he <| .ensure rfl ?_
  obtain ⟨slot, w₉, he, hw⟩ := hw.exec_child_file n hp
  refine .find he <| .call (hw.exec_readContents n hp) <| .ensure (beq_self_eq_true _) ?_
  -- the directory is removed, and there is nothing more to remove
  obtain ⟨u₁, he, hu⟩ := hw.exec_delete n hp
  refine .call he <| .ensure rfl ?_
  obtain ⟨u₂, he, hu⟩ := hu.exec_child_free n hp
  refine .call he <| .ensure rfl ?_
  obtain ⟨u₃, he, hu⟩ := hu.toStands.exec_delete_free n hp
  refine .call he <| .ensure rfl ?_
  obtain ⟨u₄, he, hu⟩ := hu.exec_delete_free n hp'
  exact .call he <| .pure hu

/-- Whatever was done with a union that notes its changes, and whatever happened to its layers: it
passes the writing contract if its layers are in memory or in archives, the first one that can
create allows everything, none has one of the two names, and the clock has left the epoch.
Afterwards all layers are as before. -/
theorem writing_passes {n : Nat} {layers₀ : List Filesystem} {s₀ : Store} {held : List (Node Entry)}
    {top : Filesystem}
    (h : Reaches (Store.provider (n + 1)) (fun _ _ => True) (fun _ _ => True) [.root]
      (s₀, { layers := layers₀, policy := .eager }) held w)
    (hbare : ∀ f ∈ w.2.layers, f.isBare = true) (hclean : ∀ f ∈ w.2.layers, f.CleanTree w.1)
    (hstored : ∀ f ∈ w.2.layers, f.Stored w.1)
    (htop : w.2.layers.find? (fun f => (f.allows w.1).covers (.only .create)) = some top)
    (hall : (top.allows w.1).covers .all = true)
    (hscratch : ∀ f ∈ w.2.layers, (f.outline w.1).kind "scratch" = .unknown)
    (hmissing : ∀ f ∈ w.2.layers, (f.outline w.1).kind "missing" = .unknown)
    (hclock : w.1.clock.isAfter .epoch = true) :
    ∃ w', (Contract.writing (Overlay.provider (Store.provider (n + 1))) ()).run.run w
        = (.ok (), w') ∧
      w'.2.layers = w.2.layers ∧ w.1.SameTrees w'.1 := by
  obtain ⟨id, i, hplace⟩ := exists_workplace hbare hclean hstored htop hall
  have hp := hplace "scratch" (by decide) hscratch
  have hp' := hplace "missing" (by decide) hmissing
  have hsteady := h.steady
  have hself := w.1.withTree_self id
  have hbase : Over w.1 w.2.layers w := ⟨.refl _, rfl, hsteady.fold, hsteady.released⟩
  have hstands : Stands w.1 w.2.layers id (w.1.memory id).tree w := by
    refine ⟨hclean _ hp.mem, ?_, hsteady.policy, Nat.lt_of_lt_of_le Nat.zero_lt_one hsteady.size⟩
    rwa [hself]
  obtain ⟨_, w', hrun, h'⟩ := hstands.passes_writing n hp hp' hclock
  have htrees := h'.base.trees
  rw [hself] at htrees
  exact ⟨w', hrun, h'.base.layers, htrees⟩

/-- An archive with a directory, over a memory filesystem with a file in the same directory. -/
def packedOverMemory : Store where
  memories := #[{ tree := ⟨⟨[("", .directory .epoch), ("docs", .directory .epoch),
    ("docs/a", .file [1] .epoch)]⟩⟩ }]
  archives := #[⟨"packed", ⟨[("docs", .implied)]⟩, fun _ => .ok []⟩]
  clock := ⟨1⟩

theorem writing_passes_packedOverMemory :
    let o : Overlay Filesystem Entry := { layers := [.archive 0, .memory 0], policy := .eager }
    Reaches (Store.provider 1) (fun _ _ => True) (fun _ _ => True) [.root]
        (packedOverMemory, o) [.root] (packedOverMemory, o) ∧
      (∀ f ∈ o.layers, f.isBare = true) ∧ (∀ f ∈ o.layers, f.CleanTree packedOverMemory) ∧
      (∀ f ∈ o.layers, f.Stored packedOverMemory) ∧
      o.layers.find? (fun f => (f.allows packedOverMemory).covers (.only .create))
        = some (.memory 0) ∧
      ((Filesystem.memory 0).allows packedOverMemory).covers .all = true ∧
      (∀ f ∈ o.layers, (f.outline packedOverMemory).kind "scratch" = .unknown) ∧
      (∀ f ∈ o.layers, (f.outline packedOverMemory).kind "missing" = .unknown) ∧
      packedOverMemory.clock.isAfter .epoch = true ∧
      ∃ w', (Contract.writing (Overlay.provider (Store.provider 1)) ()).run.run
          (packedOverMemory, o) = (.ok (), w') ∧
        w'.2.layers = o.layers ∧ packedOverMemory.SameTrees w'.1 := by
  have hbare : ∀ f ∈ [Filesystem.archive 0, .memory 0], f.isBare = true := by decide
  have hclean : ∀ f ∈ [Filesystem.archive 0, .memory 0], f.CleanTree packedOverMemory := by decide
  have hstored : ∀ f ∈ [Filesystem.archive 0, .memory 0], f.Stored packedOverMemory := by
    simp [Filesystem.Stored, Filesystem.memory?, packedOverMemory]
  have hscratch : ∀ f ∈ [Filesystem.archive 0, .memory 0],
      (f.outline packedOverMemory).kind "scratch" = .unknown := by decide
  have hmissing : ∀ f ∈ [Filesystem.archive 0, .memory 0],
      (f.outline packedOverMemory).kind "missing" = .unknown := by decide
  exact ⟨.start, hbare, hclean, hstored, rfl, rfl, hscratch, hmissing, rfl,
    writing_passes .start hbare hclean hstored rfl rfl hscratch hmissing rfl⟩

end Overlay

end Strata
