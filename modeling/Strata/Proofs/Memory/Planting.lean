/-
# `Strata.Proofs.Memory.Planting` — what is new after a node was made

`Ensured` says of a tree what its kinds are after a node was made at a path.  Who wants
to know that nothing is lost needs more: every node is as it was, contents included,
and each new one is empty and lies on the way to the path (`Planted`).  The node can be
made exactly if nothing of another kind is in the way (`Admits`).
-/
import Strata.Proofs.Memory.AnyName

namespace Strata.Memory

open Strata.Action Strata.Path

namespace Tree

variable {t t' : Tree} {now : Timestamp} {kind : Kind} {ns : List String}

/-! ## The places on the way -/

/-- Along trimmed names the places on the way are the parts of the path. -/
theorem exists_of_mem_places {done rest : List String} (hn : ∀ m ∈ done ++ rest, IsName m)
    {q : String} (hq : q ∈ places (ofNames done) rest) :
    ∃ ms, ms ≠ [] ∧ ms <+: rest ∧ q = ofNames (done ++ ms) := by
  induction rest generalizing done with
  | nil => cases hq
  | cons c rest ih =>
      rw [List.append_cons] at hn
      have hsnoc : ∀ m ∈ done ++ [c], IsName m := fun m hm => hn m (List.mem_append_left _ hm)
      have hjoin : join (ofNames done) c = ofNames (done ++ [c]) :=
        join_ofNames_name (fun m hm => (hsnoc m (List.mem_append_left _ hm)).1) (hsnoc c (by simp))
      rw [places, hjoin] at hq
      rcases List.mem_cons.mp hq with rfl | hq
      · exact ⟨[c], by simp, by simp, rfl⟩
      · obtain ⟨ms, -, hms, rfl⟩ := ih hn hq
        exact ⟨c :: ms, by simp, List.cons_prefix_cons.mpr ⟨rfl, hms⟩, by simp⟩

theorem clean_join {here c : String} (hhere : Path.Clean here) (hc : IsComponent c) :
    Path.Clean (join here c) := by
  rw [← hhere.ofNames_components, join_eq_ofNames fun n hn => (hhere.isName hn).1]
  rcases components_of_component hc with hnil | ⟨n, hn, hone⟩
  · rw [hnil, List.append_nil]
    exact clean_ofNames fun _ => hhere.isName
  · rw [hone]
    exact clean_ofNames (forall_mem_snoc (fun _ => hhere.isName) hn)

/-- Along any components the names of the places on the way are trimmed. -/
theorem clean_of_mem_places {here : String} (hhere : Path.Clean here) {cs : List String}
    (hc : ∀ c ∈ cs, IsComponent c) {q : String} (hq : q ∈ places here cs) : Path.Clean q := by
  induction cs generalizing here with
  | nil => cases hq
  | cons c cs ih =>
      obtain ⟨hc, hcs⟩ := List.forall_mem_cons.mp hc
      rcases List.mem_cons.mp hq with rfl | hq
      · exact clean_join hhere hc
      · exact ih (clean_join hhere hc) hcs hq

/-- A node is found where one was to be made only if the names of the path are trimmed. -/
theorem clean_of_ensure (h : t.Clean) {target : String}
    (hfound : ((ensure now target kind).exec t).2.find? target ≠ none) : Path.Clean target := by
  have hgrown : Grown (fun q _ => Path.Clean q) t ((ensure now target kind).exec t).2 :=
    grown_ensureFrom now target kind
      (fun _ => clean_of_mem_places clean_empty fun _ => isComponent_of_mem) t
  rcases hgrown target with hsame | ⟨-, -, hclean, -⟩
  · refine h.path_clean (Kind.exists?_iff.mpr fun hmiss => hfound ?_)
    exact hsame.trans (kind_eq_unknown.mp hmiss)
  · exact hclean

/-! ## Nothing of another kind in the way -/

/-- What a node of a kind at a path needs at a part of the path. -/
def kindOnWay (kind : Kind) (ns ms : List String) : Kind := if ms = ns then kind else .directory

/-- Nothing of another kind is where a node of a kind is to be, and on the way to it. -/
def Admits (t : Tree) (kind : Kind) (ns : List String) : Prop :=
  ∀ ms, ms ≠ [] → ms <+: ns →
    t.kind (ofNames ms) = .unknown ∨ t.kind (ofNames ms) = kindOnWay kind ns ms

theorem ensureFrom_of_admits (now : Timestamp) {done rest : List String}
    (hn : ∀ m ∈ done ++ rest, IsName m)
    (hadmits : ∀ ms, ms ≠ [] → ms <+: rest →
      t.kind (ofNames (done ++ ms)) = .unknown ∨
        t.kind (ofNames (done ++ ms)) = kindOnWay kind rest ms) :
    ((ensureFrom now (ofNames (done ++ rest)) kind (ofNames done) rest).exec t).1 = .ok () := by
  induction rest generalizing done t with
  | nil => rfl
  | cons c rest ih =>
      rw [List.append_cons] at hn
      have hhere := hadmits [c] (by simp) (by simp)
      have hone : kindOnWay kind (c :: rest) [c] = if rest = [] then kind else .directory := by
        simp [kindOnWay, eq_comm]
      have hrest (ms : List String) (h0 : ms ≠ []) (hms : ms <+: rest) :
          t.kind (ofNames (done ++ [c] ++ ms)) = .unknown ∨
            t.kind (ofNames (done ++ [c] ++ ms)) = kindOnWay kind rest ms := by
        have := hadmits (c :: ms) (by simp) (List.cons_prefix_cons.mpr ⟨rfl, hms⟩)
        simpa [kindOnWay] using this
      rw [exec_ensureFrom_cons now kind hn]
      cases hf : t.find? (ofNames (done ++ [c])) with
      | some node =>
          have hnode : t.kind (ofNames (done ++ [c])) = node.kind := by rw [Tree.kind, hf]
          have hpresent : t.kind (ofNames (done ++ [c])) ≠ .unknown := by
            rw [Ne, kind_eq_unknown, hf]
            simp
          have hkind := hhere.resolve_left hpresent
          rw [hnode, hone] at hkind
          simp only [if_pos hkind]
          exact ih hn hrest
      | none =>
          simp only
          apply ih hn
          intro ms h0 hms
          rw [kind_put, if_neg]
          · exact hrest ms h0 hms
          · intro he
            have hall : ∀ m ∈ done ++ [c] ++ ms, IsComponent m := by
              intro m hm
              rcases List.mem_append.mp hm with hm | hm
              · exact (hn m (List.mem_append_left _ hm)).1
              · exact (hn m (List.mem_append_right _ (hms.subset hm))).1
            have hsame := ofNames_injective hall
              (fun m hm => hall m (List.mem_append_left _ hm)) he
            exact h0 (by simpa using hsame)

/-! ## A new node and what lies on the way to it -/

/-- An empty node at a part of the path, of the kind that is needed there. -/
def OnWay (now : Timestamp) (kind : Kind) (ns : List String) (q : String) (node : Node) : Prop :=
  ∃ ms, ms ≠ [] ∧ ms <+: ns ∧ q = ofNames ms ∧ node = .empty (kindOnWay kind ns ms) now

/-- A tree after a node was made at a path: nothing that was there has changed. -/
structure Planted (now : Timestamp) (kind : Kind) (ns : List String) (t t' : Tree) : Prop where
  clean : t'.Clean
  target : t'.kind (ofNames ns) = kind
  way : ∀ ms, ms <+: ns → ms ≠ ns → t'.kind (ofNames ms) = .directory
  grown : Grown (OnWay now kind ns) t t'

theorem Ensured.planted (he : Ensured t t' kind [] ns) (h0 : ns ≠ [])
    (hgrown : Grown (OnWay now kind ns) t t') : Planted now kind ns t t' where
  clean := he.clean
  target := by
    have := he.made ns h0 List.prefix_rfl
    rwa [if_pos rfl] at this
  way := by
    intro ms hms hne
    by_cases hnil : ms = []
    · rw [hnil, ofNames_nil, he.clean.1]
    · have := he.made ms hnil hms
      rwa [if_neg hne] at this
  grown := hgrown

theorem Planted.kept (h : Planted now kind ns t t') {q : String} (hpresent : t.find? q ≠ none) :
    t'.find? q = t.find? q := h.grown.find?_eq hpresent

theorem Planted.kind_kept (h : Planted now kind ns t t') {q : String}
    (hpresent : t.kind q ≠ .unknown) : t'.kind q = t.kind q :=
  kind_congr (h.kept fun hnone => hpresent (kind_eq_unknown.mpr hnone))

/-- What the path has is what it had, or a new node without contents. -/
theorem Planted.find?_target (h : Planted now kind ns t t') (hn : ∀ n ∈ ns, IsName n)
    (hmiss : t.find? (ofNames ns) = none) (hk : kind.isCreatable = true) :
    t'.find? (ofNames ns) = some (.empty kind now) := by
  rcases h.grown (ofNames ns) with hsame | ⟨-, node, ⟨ms, -, hms, heq, rfl⟩, hnew⟩
  · have htarget := h.target
    rw [kind_eq_unknown.mpr (hsame.trans hmiss)] at htarget
    rw [← htarget] at hk
    cases hk
  · obtain rfl := ofNames_injective (fun n hm => (hn n hm).1)
      (fun m hm => (hn m (hms.subset hm)).1) heq
    rwa [kindOnWay, if_pos rfl] at hnew

/-- Making a node at a path with trimmed names: it succeeds exactly if nothing of another kind is in
the way. -/
theorem planted_of_ensure (hk : kind.isCreatable = true) {place : String} (hp : Path.Clean place)
    (h0 : place ≠ "") (h : t.Clean) {r : Except Failure Unit}
    (hexec : (ensure now place kind).exec t = (r, t')) :
    (r = .ok () ↔ t.Admits kind (components place)) ∧
      (r = .ok () → Planted now kind (components place) t t') := by
  have hn : ∀ n ∈ components place, IsName n := fun _ => hp.isName
  have hofNames := hp.ofNames_components
  have hne := hp.components_ne_nil h0
  obtain ⟨r', t'', he, -, hok⟩ := exec_ensure now hk hn h
  rw [hofNames, hexec] at he
  obtain ⟨rfl, rfl⟩ := Prod.mk.inj he
  have hgrown : Grown (OnWay now kind (components place)) t ((ensure now place kind).exec t).2 := by
    rw [ensure]
    refine grown_ensureFrom now place kind ?_ t
    intro q hq
    rw [← ofNames_nil] at hq
    obtain ⟨ms, hms, hprefix, hq⟩ := exists_of_mem_places hn hq
    rw [List.nil_append] at hq
    refine ⟨ms, hms, hprefix, hq, ?_⟩
    rw [hq, kindOnWay]
    obtain ⟨rest, hrest⟩ := hprefix
    have hrest : ms ++ rest = components place := hrest
    have hwanted := wanted_ofNames kind hms rest
    rw [hrest, hofNames] at hwanted
    rw [hwanted, ← hrest]
    simp
  rw [hexec] at hgrown
  refine ⟨⟨fun hr ms hms hprefix => ?_, fun hadmits => ?_⟩,
    fun hr => (hok hr).planted hne hgrown⟩
  · by_cases hmiss : t.kind (ofNames ms) = .unknown
    · exact .inl hmiss
    · have hmade := (hok hr).made ms hms hprefix
      rw [List.nil_append, (hok hr).kept _ (Kind.exists?_iff.mpr hmiss)] at hmade
      exact .inr hmade
  · have hrun : ((ensureFrom now (ofNames ([] ++ components place)) kind (ofNames [])
        (components place)).exec t).1 = .ok () := ensureFrom_of_admits now hn hadmits
    rw [ofNames_nil, List.nil_append, hofNames, ← ensure, hexec] at hrun
    exact hrun

end Tree

/-- Making an entry of any name from the root. -/
theorem exec_create_root {m : Memory} (now : Timestamp) {kind : Kind} {name : String}
    (hops : m.operations.covers (.only .create) = true) (hk : kind.isCreatable = true)
    (hroot : m.kind "" = .directory) (h0 : normalize name false ≠ "") :
    (create now "" kind name).exec m =
      (((Tree.ensure now (normalize name false) kind).exec m.tree).1.map
          fun _ => normalize name false,
        { m with tree := ((Tree.ensure now (normalize name false) kind).exec m.tree).2 }) := by
  obtain ⟨hno, -⟩ | ⟨-, -, -, -, r, t, hensure, he⟩ := create_cases m now "" kind name
  · exact absurd ⟨hops, hk, hroot, h0⟩ hno
  · have hjoin : join "" name = normalize name false := by simp [join]
    rw [hjoin] at hensure he
    rw [he, hensure]

end Strata.Memory
