/-
# `Strata.Proofs.Overlay.Eager` — unions that note their own changes

An eager union marks a listing as dirty after each creation and each deletion:
the listing of the node that the call was made through.  Several nodes can have
one path, though, and the root leads to one of them at most.  As long as changes
are made through nodes that are `Current`, the union answers as a new one would;
a change through a superseded node is missed by the listing that the root leads
to, and only that listing and only what the change touched (`eager_coherent`).
-/
import Strata.Proofs.Overlay.Tidy

namespace Strata.Overlay

open Strata.Action Strata.Path

variable {n : Nat} {layers : List Filesystem} {s₀ : Store} {held : List (Node Entry)}
  {w : Store × Overlay Filesystem Entry} {lost : List String → Prop}

/-- A run of requests in which every change is noted at a current node keeps the union coherent. -/
theorem Reaches.coherent
    (h : Reaches (Store.provider (n + 1)) Store.SameTrees
      (fun w r => r.IsTidy w.1 ∧ r.IsCurrent lost w.2) [.root]
      (s₀, { layers := layers, policy := .eager }) held w)
    (hs₀ : ∀ f ∈ layers, f.CleanTree s₀) :
    ∃ label, Tidy label held w ∧ Coherent lost label w := by
  induction h with
  | start => exact ⟨fun _ => "", tidy_start hs₀, holds_root Nat.zero_lt_one rfl rfl⟩
  | world _ ht ih =>
      obtain ⟨label, h, hc⟩ := ih
      refine ⟨label, ⟨fun f hf => (h.clean f hf).congr ht, h.base.changed _, h.root, h.known⟩, ?_⟩
      exact Holds.change_lost h.clean hc (ht.shift h.clean fun _ => False) fun _ => False.elim
  | request r hrun hr ha ih =>
      obtain ⟨label, h, hc⟩ := ih
      obtain ⟨res, label', w', he, hn, hc'⟩ := h.request n lost ha.1 hr
      rw [he]
      exact ⟨label', h.next hn, hc' hrun.steady.policy ha.2 hc⟩

/-- An eager union over trees that are changed through it only answers at every path as a new union
would, if each change was made through a node that was current then.  Where it was not, the place
that the first name of the change leads to may be `lost`, and the union answers so at all paths
that do not run through a lost place. -/
theorem eager_coherent (hs₀ : ∀ f ∈ layers, f.CleanTree s₀)
    (h : Reaches (Store.provider (n + 1)) Store.SameTrees
      (fun w r => r.IsTidy w.1 ∧ r.IsCurrent lost w.2) [.root]
      (s₀, { layers := layers, policy := .eager }) held w) (path : String)
    (hpath : ∀ top, lost top → ¬ top <+: components (normalize path false)) :
    ((entry (Store.provider (n + 1)) path).exec w).1.map (·.map Node.offer?)
      = ((entry (Store.provider (n + 1)) path).exec (w.1, anew w.2)).1.map
          (·.map Node.offer?) := by
  obtain ⟨label, ht, hc⟩ := h.coherent hs₀
  refine entry_eq_anew ht.clean n (fun _ hp => faithfulBut_merged ht.clean hp) path ht.base hc ?_
  intro pre x t hpre hf
  have hcomp : ∀ m ∈ pre ++ [x], IsComponent m := fun m hm => isComponent_of_mem (hpre.subset hm)
  have hpre' := components_ofNames fun m hm => hcomp m (List.mem_append_left _ hm)
  rcases hf x (hcomp x (by simp)) with ⟨top, htop, hin⟩ | he
  · rw [hpre'] at hin
    exact absurd (hin.trans hpre) (hpath top htop)
  · rwa [hpre'] at he

/-- The world of a new eager union over a memory filesystem with an empty directory. -/
def eagerUnion : Store × Overlay Filesystem Entry :=
  ({ memories := #[{ tree := ⟨⟨[("", .directory .epoch), ("a", .directory .epoch)]⟩⟩ }] },
    { layers := [.memory 0], policy := .eager })

theorem eager_coherent_created :
    (∀ f ∈ [Filesystem.memory 0], f.CleanTree eagerUnion.1) ∧
    ∃ held w, Reaches (Store.provider 1) Store.SameTrees
        (fun w r => r.IsTidy w.1 ∧ r.IsCurrent (fun _ => False) w.2) [.root] eagerUnion held w ∧
      (w.1.memory 0).kind "a/x" = .file ∧
      ((entry (Store.provider 1) "a/x").exec w).1.map (·.map Node.offer?)
        = ((entry (Store.provider 1) "a/x").exec (w.1, anew w.2)).1.map (·.map Node.offer?) := by
  have hs : ∀ f ∈ [Filesystem.memory 0], f.CleanTree eagerUnion.1 := by decide
  have hroot (o : Overlay Filesystem Entry) : Current o .root := fun m hm _ => by
    obtain rfl := Option.some.inj hm
    rfl
  have h₁ : Reaches (Store.provider 1) Store.SameTrees
      (fun w r => r.IsTidy w.1 ∧ r.IsCurrent (fun _ => False) w.2) [.root] eagerUnion _ _ :=
    .request (.ask .root (.populate 2)) .start (by simp [Request.node?])
      ⟨List.forall_mem_nil _, trivial⟩
  have hname : ∀ n ∈ components (normalize "a/x" false), IsName n := by decide
  have h₂ := h₁.request (.ask .root (.create .file "a/x")) (by simp [Request.node?])
    ⟨hname, .inl (hroot _)⟩
  exact ⟨hs, _, _, h₂, by decide +kernel, eager_coherent hs h₂ "a/x" fun _ => False.elim⟩

/-- The node of the directory in `eagerUnion`, as it is found before everything is listed again. -/
def earlyNode : Node Entry := .entry ⟨1, ⟨"a", .memory 0 "a", 0⟩⟩

/-- A node that was replaced by a newer listing is not the one that the root leads to: what is
created through it is missed. -/
theorem superseded_node_missed :
    let P := Store.provider 1
    ∃ held w, Reaches P Store.SameTrees
        (fun w r => r.IsTidy w.1 ∧ r.IsCurrent (fun _ => True) w.2) [.root] eagerUnion held w ∧
      (w.1.memory 0).kind "a/x" = .file ∧
      ((entry P "a/x").exec w).1.toOption.map (·.map Node.path) = some none ∧
      ((entry P "a/x").exec (w.1, anew w.2)).1.toOption.map (·.map Node.path)
        = some (some "a/x") := by
  have h₁ : Reaches (Store.provider 1) Store.SameTrees
      (fun w r => r.IsTidy w.1 ∧ r.IsCurrent (fun _ => True) w.2) [.root] eagerUnion _ _ :=
    .request (.entry "a") .start (by simp [Request.node?]) ⟨trivial, trivial⟩
  have h₂ := h₁.request (.ask .root (.populate 2)) (by simp [Request.node?])
    ⟨List.forall_mem_nil _, trivial⟩
  have hname : ∀ n ∈ components (normalize "x" false), IsName n := by decide
  have h₃ := h₂.request (.ask earlyNode (.create .file "x")) (fun node hn => ?_)
    ⟨hname, .inr fun _ _ => ⟨[], trivial, List.nil_prefix⟩⟩
  · exact ⟨_, _, h₃, by decide +kernel, by decide +kernel, by decide +kernel⟩
  · obtain rfl := Option.some.inj hn
    exact List.mem_append_left _ (List.mem_append_right _ (List.mem_singleton.mpr rfl))

end Strata.Overlay
