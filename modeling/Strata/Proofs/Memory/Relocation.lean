/-
# `Strata.Proofs.Memory.Relocation` — a subtree that moves

`Clean` asks for trimmed names, and a caller may move an entry to a path with any
names; the directories on the way are then made where joining leads, which may even be
within the subtree that moves.  Nothing is lost all the same, and for that less than a
clean tree is enough: every node lies in a directory (`Parented`), so nothing lies
within a path where nothing is, and of two paths that one node lies within, one lies
within the other.
-/
import Strata.Proofs.Memory.Changes

namespace Strata.Memory

open Strata.Action Strata.Path

namespace Tree

variable {t t' : Tree} {source target top path : String} {now : Timestamp}

/-- Every node but the root lies in a directory. -/
def Parented (t : Tree) : Prop := ∀ p ∈ t.paths, p ≠ "" → t.kind (parentOrRoot p) = .directory

instance : DecidablePred Parented := fun t =>
  inferInstanceAs (Decidable (∀ p ∈ t.paths, p ≠ "" → t.kind (parentOrRoot p) = .directory))

/-- Nothing lies below what is missing. -/
theorem Parented.missing_within (h : t.Parented) (h0 : top ≠ "") (hmiss : t.find? top = none)
    (hin : liesWithin path top = true) : t.find? path = none := by
  induction hlen : path.toList.length using Nat.strong_induction_on generalizing path with
  | _ size ih =>
      by_contra hpresent
      by_cases htop : path = top
      · rw [htop] at hpresent
        exact hpresent hmiss
      · have hne := ne_empty_of_liesWithin h0 hin
        have hless := length_parentOrRoot hne
        have hgone := ih _ (hlen ▸ hless) (liesWithin_parentOrRoot h0 hin htop) rfl
        have hdir := h path (mem_paths.mpr hpresent) hne
        rw [kind_eq_unknown.mpr hgone] at hdir
        cases hdir

/-! ## The directories on the way -/

/-- The second tree has the nodes of the first one, and besides them new directories. -/
def Extends (now : Timestamp) (t t' : Tree) : Prop :=
  ∀ q, t'.find? q = t.find? q ∨ t.find? q = none ∧ t'.find? q = some (.directory now)

theorem Extends.refl (now : Timestamp) (t : Tree) : Extends now t t := fun _ => .inl rfl

theorem Extends.find?_eq (h : Extends now t t') (hpresent : t.find? path ≠ none) :
    t'.find? path = t.find? path :=
  (h path).resolve_right fun hnew => hpresent hnew.1

/-- Going along components for a directory makes directories only, also when a file stops it. -/
theorem extends_ensureFrom (now : Timestamp) (goal here : String) (cs : List String) (t : Tree) :
    Extends now t ((ensureFrom now goal .directory here cs).exec t).2 := by
  have hgrown : Grown (fun _ node => node = .directory now) t
      ((ensureFrom now goal .directory here cs).exec t).2 :=
    grown_ensureFrom now goal .directory (fun q _ => by rw [wanted, ite_self]; rfl) t
  intro q
  rcases hgrown q with hsame | ⟨hmiss, _, rfl, hnew⟩
  · exact .inl hsame
  · exact .inr ⟨hmiss, hnew⟩

theorem extends_ensureParent (now : Timestamp) (target : String) (t : Tree) :
    Extends now t ((ensureParent now target).exec t).2 := by
  rw [ensureParent]
  cases parent? target with
  | none => exact .refl now t
  | some parent => exact extends_ensureFrom now parent "" (components parent) t

/-! ## The moves -/

/-- Where the node of a path is to be found after the move of a subtree. -/
def relocate (source target path : String) : String :=
  if liesWithin path source then rebase source target path else path

/-- A subtree has moved from one path to another without loss. -/
structure Relocated (now : Timestamp) (source target : String) (t t' : Tree) : Prop where
  /-- The nodes that moved are as they were, at places where nothing was. -/
  carried : ∀ k ∈ t.paths, liesWithin k source = true →
    t'.find? (rebase source target k) = t.find? k ∧ t.find? (rebase source target k) = none
  /-- Nothing is left behind. -/
  left : ∀ k, liesWithin k source = true → t'.find? k = none
  /-- The other nodes are as they were. -/
  kept : ∀ k ∈ t.paths, ¬ liesWithin k source = true → t'.find? k = t.find? k
  /-- Besides these there are new directories. -/
  new : ∀ q ∈ t'.paths, (∃ k ∈ t.paths, q = relocate source target k) ∨
    t.find? q = none ∧ t'.find? q = some (.directory now)
  /-- No two nodes have come to one place. -/
  injective : ∀ k ∈ t.paths, ∀ l ∈ t.paths,
    relocate source target k = relocate source target l → k = l

/-- Where no node lies within the target, the paths of different nodes stay different. -/
theorem relocate_injective (h0 : source ≠ "") (h1 : target ≠ "")
    (hfree : ∀ p, liesWithin p target = true → t.find? p = none) {k l : String}
    (hk : k ∈ t.paths) (hl : l ∈ t.paths)
    (he : relocate source target k = relocate source target l) : k = l := by
  have hplace {p q : String} (hp : liesWithin p source = true) (hq : q ∈ t.paths) :
      rebase source target p ≠ q := by
    rintro rfl
    exact mem_paths.mp hq (hfree _ (liesWithin_rebase h0 h1 hp))
  rw [relocate, relocate] at he
  by_cases hki : liesWithin k source = true
  · by_cases hli : liesWithin l source = true
    · rw [if_pos hki, if_pos hli] at he
      exact rebase_injective h0 hki hli he
    · rw [if_pos hki, if_neg hli] at he
      exact absurd he (hplace hki hl)
  · by_cases hli : liesWithin l source = true
    · rw [if_neg hki, if_pos hli] at he
      exact absurd he.symm (hplace hli hk)
    · rwa [if_neg hki, if_neg hli] at he

/-- The directories on the way are made, and then the subtree moves to where nothing was. -/
theorem Extends.relocated {u : Tree} (he : Extends now t u) (h0 : source ≠ "") (h1 : target ≠ "")
    (hapart : ∀ p, liesWithin p source = true → ¬ liesWithin p target = true)
    (hfree : ∀ p, liesWithin p target = true → t.find? p = none) :
    Relocated now source target t (u.moveWithin source target) := by
  obtain ⟨hmoved, hgone, hkeep⟩ := find?_moveWithin h0 h1 hapart u
  have hplace {k : String} (hk : liesWithin k source = true) :
      t.find? (rebase source target k) = none := hfree _ (liesWithin_rebase h0 h1 hk)
  refine ⟨?_, hgone, ?_, ?_, fun k hk l hl => relocate_injective h0 h1 hfree hk hl⟩
  · intro k hk hin
    have hpresent := mem_paths.mp hk
    have hu := he.find?_eq hpresent
    refine ⟨?_, hplace hin⟩
    rw [hmoved k hin (hu ▸ hpresent), hu]
  · intro k hk hout
    have hpresent := mem_paths.mp hk
    refine (hkeep k hout ?_).trans (he.find?_eq hpresent)
    rintro p hp - rfl
    exact hpresent (hplace hp)
  · intro q hq
    have hout : ¬ liesWithin q source = true := fun hin => mem_paths.mp hq (hgone q hin)
    by_cases hmove : ∃ p, liesWithin p source = true ∧ u.find? p ≠ none ∧ rebase source target p = q
    · -- what has moved was there before, or it was made on the way
      obtain ⟨p, hp, hpresent, rfl⟩ := hmove
      rw [hmoved p hp hpresent]
      rcases he p with hsame | ⟨-, hnew⟩
      · refine .inl ⟨p, mem_paths.mpr (hsame ▸ hpresent), ?_⟩
        rw [relocate, if_pos hp]
      · exact .inr ⟨hplace hp, hnew⟩
    · have hsame := hkeep q hout fun p hp hpresent heq => hmove ⟨p, hp, hpresent, heq⟩
      have hpresent := mem_paths.mp hq
      rw [hsame] at hpresent ⊢
      rcases he q with hold | ⟨hmiss, hnew⟩
      · refine .inl ⟨q, mem_paths.mpr (hold ▸ hpresent), ?_⟩
        rw [relocate, if_neg hout]
      · exact .inr ⟨hmiss, hnew⟩

end Tree

/-! ## Moving an entry -/

/-- Moving an entry carries its subtree over without loss, whatever the names in the tree and in the
target are: the nodes are found below the target as they were, where nothing was before, the others
stay in their places, and nothing comes in addition but directories. -/
theorem rename_moves_losslessly {m m' : Memory} {now : Timestamp} {path target : String}
    (h : m.tree.Parented) (hrun : (rename now path target).exec m = (.ok (), m')) :
    m' = { m with tree := m'.tree } ∧
      Tree.Relocated now path (normalize target false) m.tree m'.tree := by
  obtain ⟨e, he⟩ | ⟨h0, h1, hout, hex, hdest, r, t, hensure, herr, hok⟩ :=
    rename_cases m now path target
  · rw [he] at hrun
    cases hrun
  cases r with
  | error e =>
      rw [herr e rfl] at hrun
      cases hrun
  | ok u =>
      rw [hok rfl] at hrun
      obtain rfl := (Prod.mk.inj hrun).2
      have hfree : ∀ p, liesWithin p (normalize target false) = true → m.tree.find? p = none :=
        fun p => h.missing_within h1 (Tree.kind_eq_unknown.mp hdest)
      -- nothing is at the target, so what is moved does not lie within it
      have hapart : ∀ p, liesWithin p path = true →
          ¬ liesWithin p (normalize target false) = true := by
        intro p hp hq
        rcases liesWithin_or_liesWithin h0 h1 hp hq with hin | hin
        · exact hout hin
        · exact Kind.exists?_iff.mp hex (Tree.kind_eq_unknown.mpr (hfree path hin))
      have hextends := Tree.extends_ensureParent now (normalize target false) m.tree
      rw [hensure] at hextends
      exact ⟨rfl, hextends.relocated h0 h1 hapart hfree⟩

/-- The directory "a" moves below "a /b", and the directory "a/b" that is made on the way moves with
it. -/
theorem rename_moves_losslessly_through_itself :
    let t := (Tree.root.put "a" (.directory .epoch)).put "a/x" (.file [1] .epoch)
    let m : Memory := { tree := t }
    let m' := ((rename .epoch "a" "a /b/c").exec m).2
    m.tree.Parented ∧ (rename .epoch "a" "a /b/c").exec m = (.ok (), m') ∧
      m'.tree.find? "a /b/c/x" = some (.file [1] .epoch) ∧ m'.tree.find? "a/b" = none := by
  intro t m m'
  have h : m.tree.Parented := by decide +kernel
  have hrun : (rename .epoch "a" "a /b/c").exec m = (.ok (), m') := by decide +kernel
  obtain ⟨-, hmoved⟩ := rename_moves_losslessly h hrun
  have hx := hmoved.carried "a/x" (by decide +kernel) (by decide +kernel)
  exact ⟨h, hrun, hx.1, hmoved.left "a/b" (by decide +kernel)⟩

end Strata.Memory
