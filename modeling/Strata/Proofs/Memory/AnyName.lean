/-
# `Strata.Proofs.Memory.AnyName` — making an entry of any name, wholly or not at all

The text that names a new entry may have blanks around its components; joining trims
them off one by one, so the nodes that are made then need not be those that the text
says.  In a tree where every node lies in a directory the call is still made of two
parts: as long as the nodes on the way are there it may be refused, and nothing has
changed; once a node is missing, nothing within it can be in the way.
-/
import Strata.Proofs.Memory.Relocation

namespace Strata

open Strata.Action Strata.Path

namespace Memory

namespace Tree

variable {t : Tree}

theorem Clean.parented (h : t.Clean) : t.Parented := fun p hp h0 => (h.2 p hp h0).2

/-- Without a root there is no node at all. -/
theorem Parented.missing_of_rootless (h : t.Parented) (hroot : t.find? "" = none) (path : String) :
    t.find? path = none := by
  induction hlen : path.toList.length using Nat.strong_induction_on generalizing path with
  | _ size ih =>
      by_contra hpresent
      have h0 : path ≠ "" := fun he => hpresent (he ▸ hroot)
      have hgone := ih _ (hlen ▸ length_parentOrRoot h0) (parentOrRoot path) rfl
      have hdir := h path (mem_paths.mpr hpresent) h0
      rw [kind_eq_unknown.mpr hgone] at hdir
      cases hdir

/-- Nothing lies within what is missing. -/
theorem Parented.missing_below (h : t.Parented) {top path : String} (hmiss : t.find? top = none)
    (hin : liesWithin path top = true) : t.find? path = none := by
  by_cases h0 : top = ""
  · exact h.missing_of_rootless (h0 ▸ hmiss) path
  · exact h.missing_within h0 hmiss hin

/-- Below a node that was just made, nothing is in the way. -/
theorem ensureFrom_new (now : Timestamp) (target : String) {kind : Kind}
    (hkind : kind.isCreatable = true) {here : String} (cs : List String)
    (hhere : ∃ node, t.find? here = some node ∧ node.kind = wanted target kind here)
    (hnew : ∀ q, liesWithin q here = true → q ≠ here → t.find? q = none) :
    ((ensureFrom now target kind here cs).exec t).1 = .ok () := by
  induction cs generalizing here t with
  | nil => rfl
  | cons c cs ih =>
      rw [exec_ensureFrom_join]
      have hin := liesWithin_join here c
      generalize join here c = next at hin
      by_cases hsame : next = here
      · -- a blank component stays where it is
        obtain ⟨node, hf, hk⟩ := hhere
        subst hsame
        simp only [hf, if_pos hk]
        exact ih ⟨node, hf, hk⟩ hnew
      · simp only [hnew next hin hsame]
        apply ih
        · exact ⟨_, by rw [find?_put, if_pos rfl],
            Node.kind_empty (isCreatable_wanted hkind target next) now⟩
        · intro q hq hne
          rw [find?_put, if_neg hne]
          apply hnew q (liesWithin_trans hq hin)
          intro he
          exact hsame (eq_of_liesWithin hin (he ▸ hq))

/-- Going along any components: if the walk fails, it does so before it has made anything. -/
theorem ensureFrom_whole (now : Timestamp) (target : String) {kind : Kind}
    (hkind : kind.isCreatable = true) (h : t.Parented) {here : String} {cs : List String}
    {e : Failure} (he : ((ensureFrom now target kind here cs).exec t).1 = .error e) :
    e.isMisuse = true ∧ ((ensureFrom now target kind here cs).exec t).2 = t := by
  induction cs generalizing here with
  | nil => cases he
  | cons c cs ih =>
      rw [exec_ensureFrom_join] at he ⊢
      generalize join here c = next at he
      cases hf : t.find? next with
      | some node =>
          simp only [hf] at he ⊢
          by_cases hk : node.kind = wanted target kind next
          · rw [if_pos hk] at he ⊢
            exact ih he
          · rw [if_neg hk] at he ⊢
            obtain rfl := Except.error.inj he
            exact ⟨rfl, rfl⟩
      | none =>
          simp only [hf] at he
          -- nothing lies within the missing node, so the rest of the walk succeeds
          rw [ensureFrom_new now target hkind] at he
          · cases he
          · exact ⟨_, by rw [find?_put, if_pos rfl],
              Node.kind_empty (isCreatable_wanted hkind target next) now⟩
          · intro q hq hne
            rw [find?_put, if_neg hne]
            exact h.missing_below hf hq

/-- Making a node at any path, and the directories on the way to it: all of it or nothing. -/
theorem ensure_whole (now : Timestamp) {target : String} {kind : Kind}
    (hkind : kind.isCreatable = true) (h : t.Parented) {e : Failure} {t' : Tree}
    (he : (ensure now target kind).exec t = (.error e, t')) : e.isMisuse = true ∧ t' = t := by
  rw [ensure] at he
  obtain ⟨hmisuse, hsame⟩ := ensureFrom_whole now target hkind h (congrArg Prod.fst he)
  rw [he] at hsame
  exact ⟨hmisuse, hsame⟩

end Tree

/-- Making an entry under any name: if it fails, the caller asked for what it may not have, and
nothing has changed. -/
theorem create_whole {m : Memory} (h : m.tree.Parented) (now : Timestamp) (path : String)
    (kind : Kind) (name : String) {e : Failure}
    (he : ((create now path kind name).exec m).1 = .error e) :
    e.isMisuse = true ∧ ((create now path kind name).exec m).2 = m := by
  obtain ⟨-, e', hmisuse, hexec⟩ | ⟨-, hk, -, -, r, t, hensure, hexec⟩ :=
    create_cases m now path kind name
  · rw [hexec] at he ⊢
    obtain rfl := Except.error.inj he
    exact ⟨hmisuse, rfl⟩
  · rw [hexec] at he ⊢
    cases r with
    | ok u => cases he
    | error e' =>
        obtain rfl := Except.error.inj he
        obtain ⟨hmisuse, rfl⟩ := Tree.ensure_whole now hk h hensure
        exact ⟨hmisuse, rfl⟩

end Memory

end Strata
