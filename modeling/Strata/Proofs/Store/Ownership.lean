/-
# `Strata.Proofs.Store.Ownership` — which entries belong to a filesystem

Entries are handles, and nothing in a handle keeps it from being handed to the wrong
filesystem.  But no call does so: whoever starts from the entries that a filesystem
`Has` gets entries that it has, from every kind of filesystem, wrapped or nested.
-/
import Strata.Proofs.Action
import Strata.Store.Filesystems

namespace Strata

open Strata.Action

namespace Entry

variable (P : Provider Store Filesystem Entry Stream) (id : Nat) (node : Overlay.Node Entry)

theorem child_ofNode (name : String) : child P (ofNode id node) name
    = (do return (← Store.inOverlay id (Overlay.child P node name)).map (ofNode id)) := by
  cases node <;> rfl

theorem children_ofNode : children P (ofNode id node)
    = (do return (← Store.inOverlay id (Overlay.children P node)).map (ofNode id)) := by
  cases node <;> rfl

theorem openStream_ofNode (mode : OpenMode) : openStream P (ofNode id node) mode
    = Store.inOverlay id (Overlay.openStream P node mode) := by
  cases node <;> rfl

theorem create_ofNode (kind : Kind) (name : String) : create P (ofNode id node) kind name
    = (do return ofNode id (← Store.inOverlay id (Overlay.create P node kind name))) := by
  cases node <;> rfl

end Entry

namespace Filesystem

/-- The entry is one of the filesystem. -/
inductive Has : Filesystem → Entry → Prop
  | memory (id : Nat) (path : String) : Has (.memory id) (.memory id path)
  | archive (id : Nat) (path : String) : Has (.archive id) (.archive id path)
  | host (id : Nat) (path : String) : Has (.host id) (.host id path)
  | overlay (id : Nat) (node : Overlay.Node Entry) : Has (.overlay id) (Entry.ofNode id node)
  | probed (probe : Nat) {inner : Filesystem} {e : Entry} :
      Has inner e → Has (.probed probe inner) (.probed probe e)
  | faulty (faults : Faults) {inner : Filesystem} {e : Entry} :
      Has inner e → Has (.faulty faults inner) (.faulty faults e)

variable (P : Provider Store Filesystem Entry Stream)

theorem has_root (f : Filesystem) : f.Has f.root := by
  induction f with
  | memory id => exact .memory id ""
  | archive id => exact .archive id ""
  | host id => exact .host id ""
  | overlay id => exact .overlay id .root
  | probed p inner ih => exact ih.probed p
  | faulty faults inner ih => exact ih.faulty faults

theorem has_of_mem_map {α : Type} {f : Filesystem} {make : α → Entry} (h : ∀ a, f.Has (make a))
    (l : List α) : ∀ e ∈ l.map make, f.Has e :=
  List.forall_mem_map.mpr fun a _ => h a

theorem has_of_mem_option {α : Type} {f : Filesystem} {make : α → Entry} (h : ∀ a, f.Has (make a))
    (r : Option α) : ∀ e ∈ r.map make, f.Has e := by
  intro e he
  obtain ⟨a, -, rfl⟩ := Option.map_eq_some_iff.mp he
  exact h a

/-- What a lookup inside a wrapper leads to, wrapped. -/
theorem has_of_wrapped {f inner : Filesystem} {wrap : Entry → Entry}
    (h : ∀ e, inner.Has e → f.Has (wrap e)) {r : Option Entry} (hr : ∀ e ∈ r, inner.Has e) :
    ∀ e ∈ r.map wrap, f.Has e := by
  intro e he
  obtain ⟨e', he', rfl⟩ := Option.map_eq_some_iff.mp he
  exact h e' (hr e' he')

theorem has_child {f : Filesystem} {e : Entry} (he : f.Has e) (name : String) :
    Ensures (fun _ => True) (e.child P name) fun r => ∀ e' ∈ r, f.Has e' := by
  induction he with
  | memory id path =>
      exact Ensures.get.bind fun _ _ => (Ensures.any _).bind fun r _ =>
        .pure (has_of_mem_option (.memory id) r)
  | archive id path =>
      exact Ensures.get.bind fun _ _ => (Ensures.any _).bind fun r _ =>
        .pure (has_of_mem_option (.archive id) r)
  | host id path =>
      exact Ensures.get.bind fun _ _ => (Ensures.any _).bind fun r _ =>
        .pure (has_of_mem_option (.host id) r)
  | overlay id node =>
      rw [Entry.child_ofNode]
      exact (Ensures.any _).bind fun r _ => .pure (has_of_mem_option (.overlay id) r)
  | probed p _ ih => exact ih.bind fun r hr => .pure (has_of_wrapped (fun _ => .probed p) hr)
  | faulty faults _ ih =>
      exact (Ensures.any _).bind fun _ _ => ih.bind fun r hr =>
        .pure (has_of_wrapped (fun _ => .faulty faults) hr)

theorem has_children {f : Filesystem} {e : Entry} (he : f.Has e) :
    Ensures (fun _ => True) (e.children P) fun es => ∀ e' ∈ es, f.Has e' := by
  induction he with
  | memory id path =>
      exact Ensures.get.bind fun _ _ => (Ensures.any _).bind fun ps _ =>
        .pure (has_of_mem_map (.memory id) ps)
  | archive id path =>
      exact Ensures.get.bind fun _ _ => (Ensures.any _).bind fun ps _ =>
        .pure (has_of_mem_map (.archive id) ps)
  | host id path =>
      exact Ensures.get.bind fun _ _ => (Ensures.any _).bind fun ps _ =>
        .pure (has_of_mem_map (.host id) ps)
  | overlay id node =>
      rw [Entry.children_ofNode]
      exact (Ensures.any _).bind fun ms _ => .pure (has_of_mem_map (.overlay id) ms)
  | probed p _ ih =>
      exact (Ensures.any _).bind fun _ _ => ih.bind fun es hes =>
        .pure (List.forall_mem_map.mpr fun e h => (hes e h).probed p)
  | faulty faults _ ih =>
      exact (Ensures.any _).bind fun _ _ => ih.bind fun es hes =>
        .pure (List.forall_mem_map.mpr fun e h => (hes e h).faulty faults)

theorem has_create {f : Filesystem} {e : Entry} (he : f.Has e) (kind : Kind) (name : String) :
    Ensures (fun _ => True) (e.create P kind name) f.Has := by
  induction he with
  | memory id path =>
      exact Ensures.get.bind fun _ _ => (Ensures.any _).bind fun q _ => .pure (.memory id q)
  | archive id path => exact Ensures.get.bind fun _ _ => .throw _
  | host id path =>
      exact Ensures.get.bind fun _ _ => (Ensures.any _).bind fun q _ => .pure (.host id q)
  | overlay id node =>
      rw [Entry.create_ofNode]
      exact (Ensures.any _).bind fun m _ => .pure (.overlay id m)
  | probed p _ ih => exact ih.bind fun e h => .pure (h.probed p)
  | faulty faults _ ih =>
      exact (Ensures.any _).bind fun _ _ => ih.bind fun e h => .pure (h.faulty faults)

end Filesystem

end Strata
