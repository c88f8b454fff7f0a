/-
# `Strata.Proofs.Memory.Normal` — trees that are filled along any texts

`Clean` asks for trimmed names, and a caller may hand in names that are not.  What
no text can break is less, and it is kept by every change of a tree for itself: the
root is a directory, and every other node has a path in normal form.
-/
import Strata.Proofs.Memory.Tree

namespace Strata.Memory.Tree

open Strata.Action Strata.Path

variable {t : Tree}

/-- The root is a directory, and the path of every node is in normal form. -/
structure Normal (t : Tree) : Prop where
  root : t.kind "" = .directory
  path : ∀ p, (t.kind p).exists? = true → normalize p false = p

theorem normal_root : root.Normal where
  root := by decide
  path p he := by
    obtain rfl : p = "" := by
      have := (root.exists?_kind p).mp he
      simpa [paths, root, Table.put, Table.putIn, Table.empty, Table.keys] using this
    decide

theorem Normal.put {path : String} {node : Node} (h : t.Normal) (hp : normalize path false = path)
    (h0 : path ≠ "") : (t.put path node).Normal where
  root := by rw [kind_put, if_neg h0.symm, h.root]
  path p he := by
    rw [kind_put] at he
    split at he
    · rename_i hpath
      rw [hpath, hp]
    · exact h.path p he

theorem Normal.erase {path : String} (h : t.Normal) (h0 : path ≠ "") : (t.erase path).Normal := by
  have hkind (q : String) : (t.erase path).kind q = if q = path then .unknown else t.kind q := by
    by_cases hq : q = path <;> simp [kind, find?_erase, hq]
  refine ⟨by rw [hkind, if_neg h0.symm, h.root], ?_⟩
  intro p he
  rw [hkind] at he
  split at he
  · cases he
  · exact h.path p he

/-! ## Making nodes -/

/-- Making nodes keeps the paths in normal form, also when a node of another kind stops it. -/
theorem Normal.ensureFrom (now : Timestamp) (target : String) (kind : Kind) {here : String}
    (hhere : normalize here false = here) (cs : List String) (h : t.Normal) :
    ((ensureFrom now target kind here cs).exec t).2.Normal := by
  induction cs generalizing here t with
  | nil => exact h
  | cons c cs ih =>
      have hjoin := normalize_join hhere c
      rw [Tree.ensureFrom]
      simp only [exec_bind, exec_get]
      generalize (if (join here c).utf8ByteSize = target.utf8ByteSize then kind else .directory)
        = wanted
      cases hf : t.find? (join here c) with
      | some node =>
          simp only [exec_ite, exec_bind, exec_throw]
          split
          · exact ih hjoin h
          · exact h
      | none =>
          have h0 : join here c ≠ "" := by
            intro he
            rw [he] at hf
            have hroot := h.root
            rw [kind_eq_unknown.mpr hf] at hroot
            cases hroot
          exact ih hjoin (h.put hjoin h0)

theorem Normal.ensure (now : Timestamp) (target : String) (kind : Kind) (h : t.Normal) :
    ((ensure now target kind).exec t).2.Normal :=
  h.ensureFrom now target kind (normalize_ofNames (List.forall_mem_nil IsName)) _

/-! ## Removing and moving nodes -/

theorem Normal.removeWithin {top : String} (h : t.Normal) (h0 : top ≠ "") :
    (t.removeWithin top).Normal where
  root := by rw [kind_removeWithin, if_neg fun hin => h0 (liesWithin_root.mp hin), h.root]
  path p he := by
    rw [kind_removeWithin] at he
    split at he
    · cases he
    · exact h.path p he

theorem Normal.move {source target : String} (h : t.Normal) (h0 : source ≠ "")
    (ht : normalize target false = target) (h1 : target ≠ "") : (t.move source target).Normal := by
  rw [Tree.move]
  cases t.find? source with
  | none => exact h
  | some node => exact (h.erase h0).put ht h1

theorem Normal.moveWithin {source target : String} (h : t.Normal)
    (hs : normalize source false = source) (h0 : source ≠ "")
    (ht : normalize target false = target) (h1 : target ≠ "") :
    (t.moveWithin source target).Normal := by
  have hmoves : ∀ p ∈ t.paths.filter (fun p => liesWithin p source),
      normalize p false = p ∧ liesWithin p source = true := by
    intro p hp
    obtain ⟨hp, hin⟩ := List.mem_filter.mp hp
    exact ⟨h.path p ((t.exists?_kind p).mpr hp), hin⟩
  rw [Tree.moveWithin]
  -- the nodes move one after the other, each from one path below the source to one below the target
  generalize t.paths.filter (fun p => liesWithin p source) = moves at hmoves
  induction moves generalizing t with
  | nil => exact h
  | cons p moves ih =>
      obtain ⟨hp, hin⟩ := hmoves p (by simp)
      obtain ⟨hrebase, hne⟩ := normalize_rebase hs ht hp h0 h1 hin
      have hp0 : p ≠ "" := fun he => h0 (liesWithin_root.mp (he ▸ hin))
      rw [List.foldl_cons]
      exact ih (h.move hp0 hrebase hne) fun q hq => hmoves q (List.mem_cons_of_mem _ hq)

end Strata.Memory.Tree
