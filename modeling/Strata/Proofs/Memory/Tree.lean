/-
# `Strata.Proofs.Memory.Tree` — trees that change and stay clean

Making, removing and moving nodes keeps a clean tree clean, and each changes the
tree at few paths only: `ensure` at parts of its target that were missing,
`removeWithin` below the path that is removed, `moveWithin` below its source and
its target.  Names say where: a path is the list of its names.
-/
import Strata.Proofs.Action
import Strata.Proofs.Outline

namespace Strata.Memory

open Strata.Action Strata.Path

theorem Node.kind_empty {kind : Kind} (h : kind.isCreatable = true) (now : Timestamp) :
    (Node.empty kind now).kind = kind := by
  cases kind with
  | unknown => cases h
  | directory => rfl
  | file => rfl

namespace Tree

variable {t : Tree} {ns ms : List String}

/-! ## Kinds -/

theorem kind_put (t : Tree) (path q : String) (node : Node) :
    (t.put path node).kind q = if q = path then node.kind else t.kind q := by
  by_cases h : q = path <;> simp [kind, find?_put, h]

theorem kind_removeWithin (t : Tree) (top q : String) :
    (t.removeWithin top).kind q = if liesWithin q top then .unknown else t.kind q := by
  by_cases h : liesWithin q top <;> simp [kind, find?_removeWithin, h]

theorem kind_congr {u : Tree} {q r : String} (h : t.find? q = u.find? r) : t.kind q = u.kind r := by
  rw [kind, kind, h]

theorem kind_eq_unknown {q : String} : t.kind q = .unknown ↔ t.find? q = none := by
  rw [kind]
  cases t.find? q with
  | none => simp
  | some node => cases node <;> simp [Node.kind]

theorem mem_paths {p : String} : p ∈ t.paths ↔ t.find? p ≠ none := by
  rw [← exists?_kind, Kind.exists?_iff, Ne, kind_eq_unknown]

/-- A tree is clean if its root is a directory and every other node has a name in a directory. -/
theorem clean_iff :
    t.Clean ↔ t.kind "" = .directory ∧ ∀ p, p ≠ "" → (t.kind p).exists? = true →
      ∃ ns n, (∀ m ∈ ns ++ [n], IsName m) ∧ p = ofNames (ns ++ [n]) ∧
        t.kind (ofNames ns) = .directory := by
  constructor
  · refine fun h => ⟨h.1, ?_⟩
    intro p h0 he
    obtain ⟨hc, hd⟩ := h.2 p ((t.exists?_kind p).mp he) h0
    have heq := hc.ofNames_components
    rcases List.eq_nil_or_concat (components p) with hnil | ⟨ns, n, hs⟩
    · rw [hnil] at heq
      exact absurd heq.symm h0
    · rw [List.concat_eq_append] at hs
      have hn : ∀ m ∈ ns ++ [n], IsName m := fun m hm => hc.isName (hs ▸ hm)
      rw [hs] at heq
      rw [← heq, parentOrRoot_ofNames_snoc (hn n (by simp)).1] at hd
      exact ⟨ns, n, hn, heq.symm, hd⟩
  · refine fun h => ⟨h.1, ?_⟩
    intro p hp h0
    obtain ⟨ns, n, hn, rfl, hd⟩ := h.2 p h0 ((t.exists?_kind p).mpr hp)
    exact ⟨clean_ofNames hn, by rwa [parentOrRoot_ofNames_snoc (hn n (by simp)).1]⟩

theorem ofNames_ne_of_snoc {n : String} (hn : ∀ m ∈ ns ++ [n], IsName m) :
    ofNames ns ≠ ofNames (ns ++ [n]) := by
  intro he
  have hc : ∀ m ∈ ns ++ [n], IsComponent m := fun m hm => (hn m hm).1
  have := ofNames_injective (fun m hm => hc m (List.mem_append_left _ hm)) hc he
  simp at this

/-- The paths of a clean tree are clean. -/
theorem Clean.path_clean {path : String} (h : t.Clean) (he : (t.kind path).exists? = true) :
    Path.Clean path := (outline_clean h).clean_of_exists he

theorem Clean.path_clean_of_directory {path : String} (h : t.Clean)
    (hd : t.kind path = .directory) : Path.Clean path :=
  h.path_clean (hd ▸ rfl)

/-- Nothing lies below what is missing. -/
theorem Clean.missing_of_append (h : t.Clean) (hn : ∀ m ∈ ns ++ ms, IsName m)
    (hmiss : t.kind (ofNames ns) = .unknown) : t.kind (ofNames (ns ++ ms)) = .unknown := by
  by_cases h0 : ms = []
  · rwa [h0, List.append_nil]
  · by_contra hk
    have hd : t.kind (ofNames ns) = .directory :=
      (outline_clean h).directory_of_append (fun m hm => (hn m hm).1) h0 (Kind.exists?_iff.mpr hk)
    rw [hmiss] at hd
    cases hd

/-! ## Making nodes -/

theorem Clean.put {n : String} {node : Node} (h : t.Clean) (hn : ∀ m ∈ ns ++ [n], IsName m)
    (hd : t.kind (ofNames ns) = .directory) (hmiss : t.kind (ofNames (ns ++ [n])) = .unknown) :
    (t.put (ofNames (ns ++ [n])) node).Clean := by
  obtain ⟨hroot, hnodes⟩ := clean_iff.mp h
  -- a directory of the tree is not the path that was missing
  have keep {q : String} (hq : t.kind q = .directory) :
      (t.put (ofNames (ns ++ [n])) node).kind q = .directory := by
    rw [kind_put, if_neg, hq]
    rintro rfl
    rw [hmiss] at hq
    cases hq
  refine clean_iff.mpr ⟨keep hroot, ?_⟩
  intro p h0 he
  rw [kind_put] at he
  split at he
  · rename_i hp
    exact ⟨ns, n, hn, hp, keep hd⟩
  · obtain ⟨ns', n', hn', hp, hd'⟩ := hnodes p h0 he
    exact ⟨ns', n', hn', hp, keep hd'⟩

/-- What making the nodes on the way from one path to another leaves behind. -/
structure Ensured (t t' : Tree) (kind : Kind) (done rest : List String) : Prop where
  clean : t'.Clean
  kept : ∀ q, (t.kind q).exists? = true → t'.kind q = t.kind q
  frame : ∀ q, t'.kind q ≠ t.kind q → ∃ ms, ms ≠ [] ∧ ms <+: rest ∧ q = ofNames (done ++ ms)
  made : ∀ ms, ms ≠ [] → ms <+: rest →
    t'.kind (ofNames (done ++ ms)) = if ms = rest then kind else .directory

/-- The first node on the way, and then the others. -/
theorem Ensured.cons {t₁ t' : Tree} {kind : Kind} {done rest : List String} {c : String}
    (hkind : kind.isCreatable = true)
    (hother : ∀ q, q ≠ ofNames (done ++ [c]) → t₁.kind q = t.kind q)
    (hhere : t₁.kind (ofNames (done ++ [c])) = if rest = [] then kind else .directory)
    (hold : (t.kind (ofNames (done ++ [c]))).exists? = true →
      t₁.kind (ofNames (done ++ [c])) = t.kind (ofNames (done ++ [c])))
    (h : Ensured t₁ t' kind (done ++ [c]) rest) : Ensured t t' kind done (c :: rest) where
  clean := h.clean
  kept q he := by
    have h₁ : t₁.kind q = t.kind q := by
      by_cases hq : q = ofNames (done ++ [c])
      · rw [hq] at he ⊢
        exact hold he
      · exact hother q hq
    rw [h.kept q (h₁ ▸ he), h₁]
  frame q hq := by
    by_cases hh : q = ofNames (done ++ [c])
    · exact ⟨[c], by simp, by simp, hh⟩
    · rw [← hother q hh] at hq
      obtain ⟨ms, -, hms, rfl⟩ := h.frame q hq
      exact ⟨c :: ms, by simp, by simpa using hms, by simp⟩
  made ms h0 hms := by
    obtain ⟨ms', rfl, hms'⟩ : ∃ ms', ms = c :: ms' ∧ ms' <+: rest := by
      cases ms with
      | nil => exact absurd rfl h0
      | cons x ms' =>
          obtain ⟨rfl, hp⟩ := List.cons_prefix_cons.mp hms
          exact ⟨ms', rfl, hp⟩
    by_cases h1 : ms' = []
    · subst h1
      have he : (t₁.kind (ofNames (done ++ [c]))).exists? = true := by
        rw [hhere]
        split
        · exact hkind
        · rfl
      rw [h.kept _ he, hhere]
      by_cases hr : rest = [] <;> simp [hr, eq_comm]
    · have := h.made ms' h1 hms'
      rw [List.append_assoc, List.singleton_append] at this
      rw [this]
      simp

/-- What is made at a place on the way to a target. -/
def wanted (target : String) (kind : Kind) (here : String) : Kind :=
  if here.utf8ByteSize = target.utf8ByteSize then kind else .directory

/-- The target is the only one of the paths on the way that has its length. -/
theorem wanted_ofNames (kind : Kind) (h0 : ms ≠ []) (rest : List String) :
    wanted (ofNames (ms ++ rest)) kind (ofNames ms) = if rest = [] then kind else .directory := by
  refine if_congr ?_ rfl rfl
  constructor
  · intro he
    by_contra hrest
    have := utf8ByteSize_ofNames_append h0 hrest
    omega
  · rintro rfl
    rw [List.append_nil]

theorem isCreatable_wanted {kind : Kind} (h : kind.isCreatable = true) (target here : String) :
    (wanted target kind here).isCreatable = true := by
  rw [wanted]
  split
  · exact h
  · rfl

/-- The step at the first of the components: if nothing is there, a node is made. -/
theorem exec_ensureFrom_join (now : Timestamp) (target : String) (kind : Kind)
    (here c : String) (cs : List String) (t : Tree) :
    (ensureFrom now target kind here (c :: cs)).exec t =
      match t.find? (join here c) with
      | some node =>
        if node.kind = wanted target kind (join here c) then
          (ensureFrom now target kind (join here c) cs).exec t
        else (.error (.conflict (join here c)), t)
      | none =>
        (ensureFrom now target kind (join here c) cs).exec
          (t.put (join here c) (.empty (wanted target kind (join here c)) now)) := by
  rw [ensureFrom]
  simp only [exec_bind, exec_get, wanted]
  cases t.find? (join here c) with
  | none => rfl
  | some node =>
      simp only [exec_ite, exec_bind, exec_throw, beq_iff_eq]
      exact if_congr Iff.rfl rfl rfl

/-- The places on the way from a path along components. -/
def places : String → List String → List String
  | _, [] => []
  | here, c :: cs => join here c :: places (join here c) cs

/-- The second tree has the nodes of the first one; where it has others, these are new. -/
def Grown (new : String → Node → Prop) (t t' : Tree) : Prop :=
  ∀ q, t'.find? q = t.find? q ∨ t.find? q = none ∧ ∃ node, new q node ∧ t'.find? q = some node

theorem Grown.refl (new : String → Node → Prop) (t : Tree) : Grown new t t := fun _ => .inl rfl

theorem Grown.find?_eq {new : String → Node → Prop} {t' : Tree} {q : String} (h : Grown new t t')
    (hpresent : t.find? q ≠ none) : t'.find? q = t.find? q :=
  (h q).resolve_right fun hnew => hpresent hnew.1

/-- A new node where nothing was, and then others. -/
theorem Grown.of_put {new : String → Node → Prop} {t' : Tree} {q : String} {node : Node}
    (hmiss : t.find? q = none) (hnew : new q node) (h : Grown new (t.put q node) t') :
    Grown new t t' := by
  have hput (p : String) : (t.put q node).find? p = if p = q then some node else t.find? p :=
    find?_put t q p node
  intro p
  by_cases hp : p = q
  · subst hp
    have hhere : (t.put p node).find? p = some node := (hput p).trans (if_pos rfl)
    refine .inr ⟨hmiss, node, hnew, ?_⟩
    rw [h.find?_eq (by simp [hhere]), hhere]
  · have := h p
    rwa [hput, if_neg hp] at this

/-- Whatever the components are, and also when a node stops it, the walk along them makes nodes at
the places on its way alone, each without contents. -/
theorem grown_ensureFrom {new : String → Node → Prop} (now : Timestamp) (target : String)
    (kind : Kind) {here : String} {cs : List String}
    (hnew : ∀ q ∈ places here cs, new q (.empty (wanted target kind q) now)) (t : Tree) :
    Grown new t ((ensureFrom now target kind here cs).exec t).2 := by
  induction cs generalizing here t with
  | nil => exact .refl new t
  | cons c cs ih =>
      obtain ⟨hhere, hrest⟩ := List.forall_mem_cons.mp hnew
      rw [exec_ensureFrom_join]
      cases hf : t.find? (join here c) with
      | none => exact .of_put hf hhere (ih hrest _)
      | some node =>
          simp only
          split
          · exact ih hrest t
          · exact .refl new t

/-- The step at the first of the names. -/
theorem exec_ensureFrom_cons (now : Timestamp) (kind : Kind) {done rest : List String} {c : String}
    (hn : ∀ m ∈ done ++ [c] ++ rest, IsName m) (t : Tree) :
    (ensureFrom now (ofNames (done ++ c :: rest)) kind (ofNames done) (c :: rest)).exec t =
      match t.find? (ofNames (done ++ [c])) with
      | some node =>
        if node.kind = if rest = [] then kind else .directory then
          (ensureFrom now (ofNames (done ++ [c] ++ rest)) kind (ofNames (done ++ [c])) rest).exec t
        else (.error (.conflict (ofNames (done ++ [c]))), t)
      | none =>
        (ensureFrom now (ofNames (done ++ [c] ++ rest)) kind (ofNames (done ++ [c])) rest).exec
          (t.put (ofNames (done ++ [c]))
            (.empty (if rest = [] then kind else .directory) now)) := by
  have hsnoc : ∀ m ∈ done ++ [c], IsName m := fun m hm => hn m (List.mem_append_left _ hm)
  have hj : join (ofNames done) c = ofNames (done ++ [c]) :=
    join_ofNames_name (fun m hm => (hsnoc m (List.mem_append_left _ hm)).1) (hsnoc c (by simp))
  have hwanted := wanted_ofNames kind
    (List.append_ne_nil_of_right_ne_nil done (List.cons_ne_nil c [])) rest
  rw [List.append_cons, exec_ensureFrom_join, hj, hwanted]

/-- Making a node and the directories on the way to it: it fails before it changes anything, and
only where a node of another kind is in the way. -/
theorem exec_ensureFrom (now : Timestamp) {kind : Kind} (hkind : kind.isCreatable = true)
    {done rest : List String} (hn : ∀ m ∈ done ++ rest, IsName m) (h : t.Clean)
    (hd : rest ≠ [] → t.kind (ofNames done) = .directory) :
    ∃ r t', (ensureFrom now (ofNames (done ++ rest)) kind (ofNames done) rest).exec t = (r, t') ∧
      (∀ e, r = .error e → t' = t) ∧ (r = .ok () → Ensured t t' kind done rest) ∧
      ((∀ c ∈ rest.head?, t.kind (ofNames (done ++ [c])) = .unknown) → r = .ok ()) := by
  induction rest generalizing done t with
  | nil =>
      refine ⟨.ok (), t, rfl, by simp, fun _ => ⟨h, fun _ _ => rfl, fun q hq => absurd rfl hq, ?_⟩,
        fun _ => rfl⟩
      intro ms h0 hms
      exact absurd (List.prefix_nil.mp hms) h0
  | cons c rest ih =>
      rw [List.append_cons] at hn
      have hsnoc : ∀ m ∈ done ++ [c], IsName m := fun m hm => hn m (List.mem_append_left _ hm)
      -- what is left to do once the first node is there
      have hrest {t₁ : Tree} (h₁ : t₁.Clean)
          (hhere : t₁.kind (ofNames (done ++ [c])) = if rest = [] then kind else .directory) :=
        ih hn h₁ fun h0 => by rw [hhere, if_neg h0]
      rw [exec_ensureFrom_cons now kind hn]
      cases hf : t.find? (ofNames (done ++ [c])) with
      | some node =>
          have hnode : t.kind (ofNames (done ++ [c])) = node.kind := by rw [Tree.kind, hf]
          have hpresent : ¬ ∀ x ∈ (c :: rest).head?, t.kind (ofNames (done ++ [x])) = .unknown := by
            intro hx
            have := hx c rfl
            rw [kind_eq_unknown, hf] at this
            cases this
          by_cases hk : node.kind = if rest = [] then kind else .directory
          · have hhere := hnode.trans hk
            obtain ⟨r, t', he, herr, hok, -⟩ := hrest h hhere
            simp only [if_pos hk, he]
            exact ⟨r, t', rfl, herr, fun hr => (hok hr).cons hkind (fun _ _ => rfl) hhere
              fun _ => rfl, fun hx => absurd hx hpresent⟩
          · simp only [if_neg hk]
            exact ⟨_, t, rfl, fun _ _ => rfl, by simp, fun hx => absurd hx hpresent⟩
      | none =>
          have hmiss := kind_eq_unknown.mpr hf
          have hhere : (t.put (ofNames (done ++ [c]))
              (.empty (if rest = [] then kind else .directory) now)).kind (ofNames (done ++ [c]))
              = if rest = [] then kind else .directory := by
            rw [kind_put, if_pos rfl]
            refine Node.kind_empty ?_ now
            split
            · exact hkind
            · rfl
          have hother (q : String) (hq : q ≠ ofNames (done ++ [c])) :
              (t.put (ofNames (done ++ [c]))
                (.empty (if rest = [] then kind else .directory) now)).kind q = t.kind q := by
            rw [kind_put, if_neg hq]
          obtain ⟨r, t', he, -, hok, hr⟩ := hrest (h.put hsnoc (hd (by simp)) hmiss) hhere
          -- with the first node the others were missing too
          have hr : r = .ok () := by
            refine hr ?_
            intro x hx
            have hn' : ∀ m ∈ done ++ [c] ++ [x], IsName m := by
              obtain ⟨xs, rfl⟩ := List.head?_eq_some_iff.mp hx
              have hpre : done ++ [c] ++ [x] <+: done ++ [c] ++ x :: xs := ⟨xs, by simp⟩
              exact fun m hm => hn m (hpre.subset hm)
            rw [hother _ (ofNames_ne_of_snoc hn').symm]
            exact h.missing_of_append hn' hmiss
          simp only [he]
          refine ⟨r, t', rfl, by simp [hr], fun hr => (hok hr).cons hkind hother hhere
            fun hx => ?_, fun _ => hr⟩
          rw [hmiss] at hx
          cases hx

/-! ## Removing nodes -/

theorem kind_removeWithin_ofNames (hn : ∀ n ∈ ns, IsComponent n) (hm : ∀ m ∈ ms, IsComponent m) :
    (t.removeWithin (ofNames ms)).kind (ofNames ns)
      = if ms <+: ns then .unknown else t.kind (ofNames ns) := by
  rw [kind_removeWithin]
  exact if_congr (liesWithin_ofNames hn hm) rfl rfl

theorem Clean.removeWithin (h : t.Clean) (hm : ∀ m ∈ ms, IsName m) (h0 : ms ≠ []) :
    (t.removeWithin (ofNames ms)).Clean := by
  have hm' : ∀ m ∈ ms, IsComponent m := fun m hmem => (hm m hmem).1
  obtain ⟨hroot, hnodes⟩ := clean_iff.mp h
  have hkind {xs : List String} (hx : ∀ x ∈ xs, IsName x) :
      (t.removeWithin (ofNames ms)).kind (ofNames xs)
        = if ms <+: xs then .unknown else t.kind (ofNames xs) :=
    kind_removeWithin_ofNames (fun x hmem => (hx x hmem).1) hm'
  refine clean_iff.mpr ⟨?_, ?_⟩
  · have := hkind (List.forall_mem_nil _)
    rwa [if_neg (by simpa using h0), ofNames_nil, hroot] at this
  · intro p hp he
    have hold : (t.kind p).exists? = true := by
      rw [kind_removeWithin] at he
      split at he
      · cases he
      · exact he
    obtain ⟨ns, n, hn, rfl, hd⟩ := hnodes p hp hold
    refine ⟨ns, n, hn, rfl, ?_⟩
    rw [hkind fun m hmem => hn m (List.mem_append_left _ hmem), if_neg, hd]
    intro hpre
    rw [hkind hn, if_pos (hpre.trans (List.prefix_append _ _))] at he
    cases he

/-! ## Moving nodes -/

theorem find?_move (t : Tree) (source target q : String) :
    (t.move source target).find? q =
      match t.find? source with
      | none => t.find? q
      | some node => if q = target then some node else if q = source then none else t.find? q := by
  rw [move]
  cases t.find? source with
  | none => rfl
  | some node => simp only [find?_put, find?_erase]

/-- Moving nodes one after the other, when no place that one goes to is a place that one comes
from, and no two go to one place. -/
theorem find?_foldl_move (image : String → String) (l : List String)
    (hinj : ∀ p ∈ l, ∀ q ∈ l, image p = image q → p = q)
    (hne : ∀ p ∈ l, ∀ q ∈ l, image p ≠ q) (t : Tree) :
    (∀ q, q ∉ l → (∀ p ∈ l, image p = q → t.find? p = none) →
      (l.foldl (fun t p => t.move p (image p)) t).find? q = t.find? q) ∧
    (∀ q ∈ l, (l.foldl (fun t p => t.move p (image p)) t).find? q = none) ∧
    (∀ p ∈ l, (t.find? p).isSome →
      (l.foldl (fun t p => t.move p (image p)) t).find? (image p) = t.find? p) := by
  induction l generalizing t with
  | nil => simp
  | cons x l ih =>
      have hx := List.mem_cons_self (a := x) (l := l)
      have hsub {p : String} (hp : p ∈ l) := List.mem_cons_of_mem x hp
      have hxx : image x ≠ x := hne x hx x hx
      have hmove := find?_move t x (image x)
      obtain ⟨hkeep, hgone, hmoved⟩ := ih (fun p hp q hq => hinj p (hsub hp) q (hsub hq))
        (fun p hp q hq => hne p (hsub hp) q (hsub hq)) (t.move x (image x))
      simp only [List.foldl_cons]
      -- a node other than the first is where it was after the first has moved
      have hother {p : String} (hp : p ∈ x :: l) (hpx : p ≠ x) :
          (t.move x (image x)).find? p = t.find? p := by
        rw [hmove]
        cases t.find? x with
        | none => rfl
        | some node => simp only [if_neg (hne x hx p hp).symm, if_neg hpx]
      have hfirst : (t.move x (image x)).find? x = none := by
        rw [hmove]
        cases t.find? x with
        | none => rfl
        | some node => simp only [if_neg hxx.symm, if_true]
      refine ⟨?_, ?_, ?_⟩
      · intro q hq hfree
        obtain ⟨hqx, hql⟩ := not_or.mp (List.mem_cons.not.mp hq)
        rw [hkeep q hql fun p hp he => ?_, hmove]
        · cases hf : t.find? x with
          | none => rfl
          | some node =>
              have : q ≠ image x := fun he => by
                have := hfree x hx he.symm
                rw [hf] at this
                cases this
              simp only [if_neg this, if_neg hqx]
        · by_cases hpx : p = x
          · rw [hpx]; exact hfirst
          · rw [hother (hsub hp) hpx]
            exact hfree p (hsub hp) he
      · intro q hq
        by_cases hql : q ∈ l
        · exact hgone q hql
        · obtain rfl : q = x := (List.mem_cons.mp hq).resolve_right hql
          rw [hkeep q hql fun p hp he => absurd he (hne p (hsub hp) q hx)]
          exact hfirst
      · intro p hp hsome
        by_cases hpx : p = x
        · subst hpx
          obtain ⟨node, hf⟩ := Option.isSome_iff_exists.mp hsome
          rw [hkeep _ (fun hm => hne p hx _ (hsub hm) rfl) fun y hy he => ?_, hmove, hf]
          · simp
          · rw [hinj y (hsub hy) p hx he]
            exact hfirst
        · have hpl := (List.mem_cons.mp hp).resolve_left hpx
          rw [hmoved p hpl (by rw [hother hp hpx]; exact hsome), hother hp hpx]

/-- Moving a subtree to another place: its nodes go there, and no other node is touched, as long as
none stands where one of them goes. -/
theorem find?_moveWithin {source target : String} (h0 : source ≠ "") (h1 : target ≠ "")
    (hapart : ∀ p, liesWithin p source = true → ¬ liesWithin p target = true) (t : Tree) :
    (∀ p, liesWithin p source = true → t.find? p ≠ none →
      (t.moveWithin source target).find? (rebase source target p) = t.find? p) ∧
    (∀ q, liesWithin q source = true → (t.moveWithin source target).find? q = none) ∧
    (∀ q, ¬ liesWithin q source = true →
      (∀ p, liesWithin p source = true → t.find? p ≠ none → rebase source target p ≠ q) →
      (t.moveWithin source target).find? q = t.find? q) := by
  have hmoving {p : String} : p ∈ t.paths.filter (fun p => liesWithin p source) ↔
      t.find? p ≠ none ∧ liesWithin p source = true := by
    rw [List.mem_filter, mem_paths]
  -- a place that something goes to is not one that something comes from
  have himage {p q : String} (hp : liesWithin p source = true) (hq : liesWithin q source = true) :
      rebase source target p ≠ q := fun he => hapart q hq (he ▸ liesWithin_rebase h0 h1 hp)
  obtain ⟨hkeep, hgone, hmoved⟩ := find?_foldl_move (rebase source target)
    (t.paths.filter fun p => liesWithin p source)
    (fun p hp q hq => rebase_injective h0 (hmoving.mp hp).2 (hmoving.mp hq).2)
    (fun p hp q hq => himage (hmoving.mp hp).2 (hmoving.mp hq).2) t
  refine ⟨?_, ?_, ?_⟩
  · intro p hp hpresent
    exact hmoved p (hmoving.mpr ⟨hpresent, hp⟩) (Option.isSome_iff_ne_none.mpr hpresent)
  · intro q hq
    by_cases hpresent : t.find? q = none
    · refine (hkeep q (fun hm => (hmoving.mp hm).1 hpresent) ?_).trans hpresent
      intro p hp he
      exact absurd he (himage (hmoving.mp hp).2 hq)
    · exact hgone q (hmoving.mpr ⟨hpresent, hq⟩)
  · intro q hq hfree
    refine hkeep q (fun hm => hq (hmoving.mp hm).2) ?_
    intro p hp he
    exact absurd he (hfree p (hmoving.mp hp).2 (hmoving.mp hp).1)

/-- Two paths of which neither lies within the other have nothing below them in common. -/
theorem append_ne_append {ps qs : List String} (hpq : ¬ ps <+: qs) (hqp : ¬ qs <+: ps)
    (ks ls : List String) : qs ++ ks ≠ ps ++ ls := by
  intro he
  obtain h | h := List.prefix_or_prefix_of_prefix (List.prefix_append qs ks)
    (he ▸ List.prefix_append ps ls)
  · exact hqp h
  · exact hpq h

/-- What moving a node with all below it leaves behind. -/
structure Moved (t t' : Tree) (source target : List String) : Prop where
  clean : t'.Clean
  moved : ∀ ks, (∀ k ∈ ks, IsName k) →
    t'.kind (ofNames (target ++ ks)) = t.kind (ofNames (source ++ ks))
  frame : ∀ ns, (∀ n ∈ ns, IsName n) → ¬ source <+: ns → ¬ target <+: ns →
    t'.kind (ofNames ns) = t.kind (ofNames ns)

/-- A node of a clean tree can be moved to a place: it is not the root, and the place is free, lies
in a directory and does not lie within the node. -/
structure Movable (t : Tree) (ps qs : List String) (x : String) : Prop where
  clean : t.Clean
  source : ∀ m ∈ ps, IsName m
  target : ∀ m ∈ qs ++ [x], IsName m
  inner : ps ≠ []
  outside : ¬ ps <+: qs ++ [x]
  present : (t.kind (ofNames ps)).exists? = true
  free : t.kind (ofNames (qs ++ [x])) = .unknown
  parent : t.kind (ofNames qs) = .directory

namespace Movable

variable {ps qs ks ls : List String} {x : String} (h : Movable t ps qs x)
include h

theorem sourceName (hk : ∀ k ∈ ks, IsName k) : ∀ m ∈ ps ++ ks, IsName m := by
  intro m hm
  exact (List.mem_append.mp hm).elim (h.source m) (hk m)

theorem targetName (hk : ∀ k ∈ ks, IsName k) : ∀ m ∈ qs ++ [x] ++ ks, IsName m := by
  intro m hm
  exact (List.mem_append.mp hm).elim (h.target m) (hk m)

theorem source_ne : ofNames ps ≠ "" := by
  rw [Ne, ofNames_eq_empty fun m hm => (h.source m hm).1]
  exact h.inner

theorem target_ne : ofNames (qs ++ [x]) ≠ "" := by
  rw [Ne, ofNames_eq_empty fun m hm => (h.target m hm).1]
  simp

/-- The node does not lie within the place where nothing is. -/
theorem not_within : ¬ qs ++ [x] <+: ps := by
  rintro ⟨ms, hms⟩
  have hpresent := h.present
  have hsource := h.source
  rw [← hms] at hpresent hsource
  rw [h.clean.missing_of_append hsource h.free] at hpresent
  cases hpresent

/-- Nothing lies within both places. -/
theorem apart (ks ls : List String) : qs ++ [x] ++ ks ≠ ps ++ ls :=
  append_ne_append h.outside h.not_within ks ls

theorem not_liesWithin {p : String} (hp : liesWithin p (ofNames ps) = true) :
    ¬ liesWithin p (ofNames (qs ++ [x])) = true := by
  have hps : ∀ m ∈ ps, IsComponent m := fun m hm => (h.source m hm).1
  have hqs : ∀ m ∈ qs ++ [x], IsComponent m := fun m hm => (h.target m hm).1
  intro hq
  rcases liesWithin_or_liesWithin h.source_ne h.target_ne hp hq with hin | hin
  · exact h.outside ((liesWithin_ofNames hqs hps).mp hin)
  · exact h.not_within ((liesWithin_ofNames hps hqs).mp hin)

theorem liesWithin_source (hk : ∀ k ∈ ks, IsName k) :
    liesWithin (ofNames (ps ++ ks)) (ofNames ps) = true :=
  (liesWithin_ofNames (fun m hm => (h.sourceName hk m hm).1) fun m hm => (h.source m hm).1).mpr
    (List.prefix_append ps ks)

/-- The paths of the nodes that move, by their names. -/
theorem exists_names {p : String} (hpresent : t.find? p ≠ none)
    (hin : liesWithin p (ofNames ps) = true) :
    ∃ ks, (∀ k ∈ ks, IsName k) ∧ p = ofNames (ps ++ ks) := by
  have hp : Path.Clean p := h.clean.path_clean (Kind.exists?_iff.mpr fun hu =>
    hpresent (kind_eq_unknown.mp hu))
  rw [← hp.ofNames_components, liesWithin_ofNames (fun n hn => (hp.isName hn).1)
    fun m hm => (h.source m hm).1] at hin
  obtain ⟨ks, hks⟩ := hin
  refine ⟨ks, fun k hk => hp.isName (hks ▸ List.mem_append_right ps hk), ?_⟩
  rw [hks, hp.ofNames_components]

theorem rebase_moving (ks : List String) :
    rebase (ofNames ps) (ofNames (qs ++ [x])) (ofNames (ps ++ ks)) = ofNames (qs ++ [x] ++ ks) :=
  rebase_ofNames h.inner (by simp)

/-- What is found after the nodes have moved. -/
theorem kind_moveWithin :
    (∀ q, ¬ liesWithin q (ofNames ps) = true →
      (∀ ks, (∀ k ∈ ks, IsName k) → ofNames (qs ++ [x] ++ ks) = q →
        t.kind (ofNames (ps ++ ks)) = .unknown) →
      (t.moveWithin (ofNames ps) (ofNames (qs ++ [x]))).kind q = t.kind q) ∧
    (∀ q, liesWithin q (ofNames ps) = true →
      (t.moveWithin (ofNames ps) (ofNames (qs ++ [x]))).kind q = .unknown) ∧
    (∀ ks, (∀ k ∈ ks, IsName k) → t.kind (ofNames (ps ++ ks)) ≠ .unknown →
      (t.moveWithin (ofNames ps) (ofNames (qs ++ [x]))).kind (ofNames (qs ++ [x] ++ ks))
        = t.kind (ofNames (ps ++ ks))) := by
  obtain ⟨hmoved, hgone, hkeep⟩ :=
    find?_moveWithin h.source_ne h.target_ne (fun p => h.not_liesWithin) t
  refine ⟨?_, ?_, ?_⟩
  · intro q hq hfree
    refine kind_congr (hkeep q hq ?_)
    intro p hp hpresent he
    obtain ⟨ks, hk, rfl⟩ := h.exists_names hpresent hp
    rw [h.rebase_moving] at he
    exact hpresent (kind_eq_unknown.mp (hfree ks hk he))
  · intro q hq
    exact kind_eq_unknown.mpr (hgone q hq)
  · intro ks hk hne
    have := hmoved _ (h.liesWithin_source hk) fun hnone => hne (kind_eq_unknown.mpr hnone)
    rw [h.rebase_moving] at this
    exact kind_congr this

/-- What does not lie within the node stays, but for the places that something moves to. -/
theorem kind_outside {ns : List String} (hn : ∀ n ∈ ns, IsName n) (hps : ¬ ps <+: ns)
    (hfree : ∀ ks, (∀ k ∈ ks, IsName k) → qs ++ [x] ++ ks = ns →
      t.kind (ofNames (ps ++ ks)) = .unknown) :
    (t.moveWithin (ofNames ps) (ofNames (qs ++ [x]))).kind (ofNames ns) = t.kind (ofNames ns) := by
  have hc : ∀ n ∈ ns, IsComponent n := fun n hm => (hn n hm).1
  refine h.kind_moveWithin.1 _ ?_ ?_
  · rwa [liesWithin_ofNames hc fun m hm => (h.source m hm).1]
  · intro ks hk he
    exact hfree ks hk (ofNames_injective (fun m hm => (h.targetName hk m hm).1) hc he)

theorem kind_frame {ns : List String} (hn : ∀ n ∈ ns, IsName n) (hps : ¬ ps <+: ns)
    (hqs : ¬ qs ++ [x] <+: ns) :
    (t.moveWithin (ofNames ps) (ofNames (qs ++ [x]))).kind (ofNames ns) = t.kind (ofNames ns) :=
  h.kind_outside hn hps fun ks _ hks => absurd ⟨ks, hks⟩ hqs

theorem kind_target (hk : ∀ k ∈ ks, IsName k) :
    (t.moveWithin (ofNames ps) (ofNames (qs ++ [x]))).kind (ofNames (qs ++ [x] ++ ks))
      = t.kind (ofNames (ps ++ ks)) := by
  by_cases he : t.kind (ofNames (ps ++ ks)) = .unknown
  · have hmiss := h.clean.missing_of_append (h.targetName hk) h.free
    rw [he, h.kind_outside (h.targetName hk) ?_ ?_, hmiss]
    · rintro ⟨ls, hl⟩
      exact h.apart ks ls hl.symm
    · intro ls _ hls
      rwa [List.append_cancel_left hls]
  · exact h.kind_moveWithin.2.2 ks hk he

/-- What is at the target and below it lies in a directory, too. -/
theorem directory_target (hk : ∀ k ∈ ks, IsName k)
    (he : (t.kind (ofNames (ps ++ ks))).exists? = true) :
    ∃ ns n, (∀ m ∈ ns ++ [n], IsName m) ∧ ofNames (qs ++ [x] ++ ks) = ofNames (ns ++ [n]) ∧
      (t.moveWithin (ofNames ps) (ofNames (qs ++ [x]))).kind (ofNames ns) = .directory := by
  rcases List.eq_nil_or_concat' ks with rfl | ⟨ls, l, rfl⟩
  · refine ⟨qs, x, h.target, by simp, ?_⟩
    have hqs : ∀ m ∈ qs, IsName m := fun m hm => h.target m (List.mem_append_left _ hm)
    rw [h.kind_frame hqs ?_ ?_, h.parent]
    · exact fun hpre => h.outside (hpre.trans (List.prefix_append _ _))
    · exact fun hpre => absurd hpre.length_le (by simp)
  · have hl : ∀ m ∈ ls, IsName m := fun m hm => hk m (List.mem_append_left _ hm)
    refine ⟨qs ++ [x] ++ ls, l, ?_, by simp, ?_⟩
    · rw [List.append_assoc _ ls]
      exact h.targetName hk
    · have hname := h.sourceName hk
      rw [← List.append_assoc] at he hname
      rw [h.kind_target hl]
      exact (outline_clean h.clean).directory_of_snoc (fun m hm => (hname m hm).1) he

theorem clean_moveWithin : (t.moveWithin (ofNames ps) (ofNames (qs ++ [x]))).Clean := by
  obtain ⟨hkeep, hgone, -⟩ := h.kind_moveWithin
  refine clean_iff.mpr ⟨?_, ?_⟩
  · rw [← ofNames_nil, h.kind_frame (by simp) (by simpa using h.inner) (by simp)]
    exact h.clean.1
  intro p hp0 he
  by_cases hm : liesWithin p (ofNames ps) = true
  · rw [hgone p hm] at he
    cases he
  by_cases hin : ∃ ks, (∀ k ∈ ks, IsName k) ∧ ofNames (qs ++ [x] ++ ks) = p
  · obtain ⟨ks, hk, rfl⟩ := hin
    rw [h.kind_target hk] at he
    exact h.directory_target hk he
  · have hold := hkeep p hm fun ks hk he => absurd ⟨ks, hk, he⟩ hin
    rw [hold] at he
    obtain ⟨ns, n, hn, rfl, hd⟩ := (clean_iff.mp h.clean).2 p hp0 he
    refine ⟨ns, n, hn, rfl, ?_⟩
    -- the directory that it is in neither moves nor is one that something moves to
    rw [h.kind_frame (fun m hm => hn m (List.mem_append_left _ hm)) ?_ ?_, hd]
    · intro hpre
      obtain ⟨ks, hks⟩ := hpre.trans (List.prefix_append ns [n])
      rw [← hks] at hn
      exact hm (hks ▸ h.liesWithin_source fun k hk => hn k (List.mem_append_right _ hk))
    · intro hpre
      obtain ⟨ks, hks⟩ := hpre.trans (List.prefix_append ns [n])
      rw [← hks] at hn
      exact hin ⟨ks, fun k hk => hn k (List.mem_append_right _ hk), by rw [hks]⟩

theorem moved : Moved t (t.moveWithin (ofNames ps) (ofNames (qs ++ [x]))) ps (qs ++ [x]) where
  clean := h.clean_moveWithin
  moved _ hk := h.kind_target hk
  frame _ hn hps hqs := h.kind_frame hn hps hqs

end Movable

end Tree

end Strata.Memory
