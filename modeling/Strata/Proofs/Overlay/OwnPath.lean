/-
# `Strata.Proofs.Overlay.OwnPath` — an entry is found at its own path

While the layers of a union and its folding stay, what each directory lists is a
function of the layers (`tableOf`), so a path leads where single turns lead from
the root (`leadsTo`), whatever is cached.  A node that was handed out was reached by
such turns; its path, spelled as its layers spell it and folded again, has the
very names of these turns (`leadsTo_own`).  So the path of an entry leads back to
the entry (`listed_found_at_path`), with and without folding.
-/
import Strata.Proofs.Overlay.Folding
import Strata.Proofs.Overlay.Looking

namespace Strata.Overlay

open Strata.Action Strata.Path

/-! ## The names of a path, and the keys of a listing -/

section
variable {fold : Bool} {path x : String}

/-- The key under which a name is listed. -/
def keyOf (fold : Bool) (x : String) : String := if fold then lower x else x

theorem listedName_join_key (hp : Path.Clean path) (hx : IsName x) :
    listedName fold (join path x) = keyOf fold x := by
  cases fold with
  | true => exact listedName_join hp hx
  | false =>
      rw [hp.join_eq_snoc hx]
      exact listedName_ofNames_snoc hx

/-- The keys of a clean path, one for each name. -/
theorem components_normalize_clean (hp : Path.Clean path) :
    components (normalize path fold) = (components path).map (keyOf fold) := by
  cases fold with
  | true =>
      rw [components_normalize_fold, hp.1]
      rfl
  | false =>
      rw [hp.1]
      exact (List.map_id' _).symm

/-- One more name is one more key. -/
theorem components_normalize_join (hp : Path.Clean path) (hx : IsName x) :
    components (normalize (join path x) fold)
      = components (normalize path fold) ++ [keyOf fold x] := by
  have hn := forall_mem_snoc (fun _ => hp.isName) hx
  rw [hp.join_eq_snoc hx, components_normalize_clean (clean_ofNames hn),
    components_normalize_clean hp, components_ofNames fun n hm => (hn n hm).1, List.map_append,
    List.map_singleton]

end

/-! ## Where names lead by the layers alone -/

section
variable {w₀ : Store × Overlay Filesystem Entry} {path c : String}
  {place next : Option (Offer Entry)} {names : List String} {o : Offer Entry}

/-- What the layers of a union give together for the directory at a path. -/
def tableOf (w₀ : Store × Overlay Filesystem Entry) (path : String) :
    List (String × Offer Entry) :=
  withOffers w₀.2.fold [] (stacked w₀.1 w₀.2.layers path)

/-- Where a name leads from a place. -/
def turn (w₀ : Store × Overlay Filesystem Entry) (place : Option (Offer Entry)) (c : String) :
    Option (Option (Offer Entry)) :=
  if (kindAt w₀.1 place).isDirectory then
    ((tableOf w₀ (pathAt place)).lookup c).map some
  else none

/-- Names lead from a place to another, turn by turn. -/
def leadsTo (w₀ : Store × Overlay Filesystem Entry) (place : Option (Offer Entry))
    (names : List String) (next : Option (Offer Entry)) : Prop :=
  names.foldlM (turn w₀) place = some next

theorem leadsTo_cons :
    leadsTo w₀ place (c :: names) next ↔ ∃ mid, turn w₀ place c = some mid ∧
      leadsTo w₀ mid names next := by
  simp only [leadsTo, List.foldlM_cons, Option.bind_eq_bind, Option.bind_eq_some_iff]

theorem leadsTo.append {mid : Option (Offer Entry)} {more : List String}
    (h : leadsTo w₀ place names mid) (h' : leadsTo w₀ mid more next) :
    leadsTo w₀ place (names ++ more) next := by
  rw [leadsTo, List.foldlM_append, Option.bind_eq_bind, Option.bind_eq_some_iff]
  exact ⟨mid, h, h'⟩

/-- A union that has listed nothing, over layers that keep clean trees. -/
structure Blank (w₀ : Store × Overlay Filesystem Entry) : Prop where
  trees : ∀ f ∈ w₀.2.layers, f.CleanTree w₀.1
  live : w₀.2.released = false
  size : 0 < w₀.2.listings.size
  dirty : (w₀.2.listing 0).dirty = true

variable (h₀ : Blank w₀)
include h₀

/-- What a listing has is the handle of a layer on a name in the directory, under its key. -/
theorem of_mem_tableOf (hp : Path.Clean path) (hmem : (c, o) ∈ tableOf w₀ path) :
    ∃ f x, w₀.2.layers[o.layer]? = some f ∧ IsName x ∧ keyOf w₀.2.fold x = c ∧
      o.path = join path x ∧ o.source = f.entryAt o.path := by
  obtain ⟨ho, hkey⟩ : o ∈ stacked w₀.1 w₀.2.layers path ∧ c = listedName w₀.2.fold o.path :=
    (mem_withOffers hmem).resolve_left List.not_mem_nil
  obtain ⟨f, x, hat, hx, -, heq⟩ := (mem_stacked_iff h₀.trees hp).mp ho
  have hpath : o.path = join path x := congrArg Offer.path heq
  refine ⟨f, x, hat, hx, ?_, hpath, hpath ▸ congrArg Offer.source heq⟩
  rw [hkey, hpath, listedName_join_key hp hx]

omit h₀ in
theorem lookup_tableOf (hmem : (c, o) ∈ tableOf w₀ path) : (tableOf w₀ path).lookup c = some o :=
  lookup_of_nodup (nodup_withOffers (by simp)) hmem

/-- A turn appends a name to the path, and its key is the name of the turn. -/
theorem path_of_turn (hp : Path.Clean (pathAt place)) (h : turn w₀ place c = some next) :
    Path.Clean (pathAt next) ∧ components (normalize (pathAt next) w₀.2.fold)
      = components (normalize (pathAt place) w₀.2.fold) ++ [c] := by
  rw [turn] at h
  split at h
  · obtain ⟨o, ho, rfl⟩ := Option.map_eq_some_iff.mp h
    obtain ⟨f, x, -, hx, rfl, hpath, -⟩ := of_mem_tableOf h₀ hp (mem_of_lookup ho)
    rw [pathAt, hpath, components_normalize_join hp hx, hp.join_eq_snoc hx]
    exact ⟨clean_ofNames (forall_mem_snoc (fun _ => hp.isName) hx), rfl⟩
  · cases h

theorem path_of_leadsTo (hp : Path.Clean (pathAt place)) (h : leadsTo w₀ place names next) :
    components (normalize (pathAt next) w₀.2.fold)
      = components (normalize (pathAt place) w₀.2.fold) ++ names := by
  induction names generalizing place with
  | nil =>
      obtain rfl := Option.some.inj h
      exact (List.append_nil _).symm
  | cons c names ih =>
      obtain ⟨mid, hturn, hrest⟩ := leadsTo_cons.mp h
      obtain ⟨hmid, hkeys⟩ := path_of_turn h₀ hp hturn
      rw [ih hmid hrest, hkeys, List.append_assoc, List.singleton_append]

/-- The path of a place that names lead to has these names, so it leads there as well. -/
theorem leadsTo_own (h : leadsTo w₀ none names next) :
    leadsTo w₀ none (components (normalize (pathAt next) w₀.2.fold)) next := by
  have hclean : Path.Clean (pathAt none) := clean_empty
  have hroot : components (normalize (pathAt none) w₀.2.fold) = [] := by
    rw [components_normalize_clean hclean, pathAt, components_empty, List.map_nil]
  rw [path_of_leadsTo h₀ hclean h, hroot, List.nil_append]
  exact h

end

/-! ## What every clean listing holds -/

section
variable {n : Nat} {w₀ w : Store × Overlay Filesystem Entry} {h : History Entry}
  {node : Node Entry}

/-- What is known of a union of a history while its layers stay as they were: its nodes are handles
on their paths, and its scans were answered what the layers give together. -/
structure Settled (n : Nat) (w₀ : Store × Overlay Filesystem Entry) (h : History Entry)
    (w : Store × Overlay Filesystem Entry) : Prop where
  trees : w₀.1.SameTrees w.1
  layers : w.2.layers = w₀.2.layers
  fold : w.2.fold = w₀.2.fold
  live : w.2.released = false
  path : ∀ node ∈ h.nodes, Path.Clean node.path
  source : ∀ node ∈ h.nodes, ∀ offer, node.offer? = some offer →
    ∃ f, w₀.2.layers[offer.layer]? = some f ∧ offer.source = f.entryAt offer.path
  scans : ∀ scan ∈ h.scans,
    firstWins w₀.2.fold (offered (Store.provider (n + 1)) scan.answers)
      = tableOf w₀ scan.node.path

theorem Settled.start (h₀ : Blank w₀) : Settled n w₀ {} w₀ where
  trees := .refl _
  layers := rfl
  fold := rfl
  live := h₀.live
  path node hn := by
    obtain rfl := List.mem_singleton.mp hn
    exact clean_empty
  source node hn offer ho := by
    obtain rfl := List.mem_singleton.mp hn
    cases ho
  scans _ hs := by cases hs

variable (h₀ : Blank w₀) (hw : Settled n w₀ h w)
include h₀ hw

theorem Settled.exec_merge (hnode : node ∈ h.nodes) :
    (merge (Store.provider (n + 1)) w.2.fold w.2.layers node.path).exec w.1
      = (.ok (tableOf w₀ node.path), afterMerge w.1 node.path w₀.2.layers) := by
  have hm := exec_mergeFrom n w₀.2.fold (hw.path node hnode) 0
    (fun f hf => (h₀.trees f hf).congr hw.trees) []
  have hstack : (w₀.2.layers.zipIdx.flatMap fun f => offersAt w.1 node.path f.2 f.1)
      = stacked w₀.1 w₀.2.layers node.path := by
    simp only [stacked, offersAt_congr hw.trees]
  rw [merge, hw.fold, hw.layers, hm, hstack, tableOf]

/-- A scan makes handles on names in the directory. -/
theorem Settled.scanned (hnode : node ∈ h.nodes) {answers : List (Nat × List Entry)}
    {w' : Store × Overlay Filesystem Entry}
    (hslot : node.slot < w.2.listings.size)
    (hscan : (scan (Store.provider (n + 1)) node).exec w = (.ok (), w'))
    (ha : Answers (Store.provider (n + 1)) node.path 0 w.2.layers w.1 answers w'.1) :
    Settled n w₀ (h.scanned ⟨node, answers⟩ (nodesOf (w'.2.listing node.slot).children)) w' := by
  have hm := hw.exec_merge h₀ hnode
  have htable : firstWins w₀.2.fold (offered (Store.provider (n + 1)) answers)
      = tableOf w₀ node.path := by
    have hans := ha.exec_mergeFrom w.2.fold []
    rw [← merge, hm, hw.fold, withOffers_nil] at hans
    exact (Except.ok.inj (Prod.mk.inj hans).1).symm
  rw [scan_of_merge_ok hm] at hscan
  obtain ⟨-, rfl⟩ := Prod.mk.inj hscan
  have hmade (m : Node Entry)
      (hmem : m ∈ nodesOf (((w.2.install node.slot (tableOf w₀ node.path)).listing
        node.slot).children)) :
      ∃ c child, (c, child.offer) ∈ tableOf w₀ node.path ∧ m = .entry child := by
    rw [listing_install _ _ hslot, if_pos rfl] at hmem
    obtain ⟨e, he, rfl⟩ := List.mem_map.mp hmem
    refine ⟨e.1, e.2, ?_, rfl⟩
    rw [← map_offer_assignSlots w.2.listings.size (tableOf w₀ node.path)]
    exact List.mem_map.mpr ⟨e, he, rfl⟩
  refine ⟨hw.trees.trans (sameTrees_afterMerge _ _ _), hw.layers, hw.fold, hw.live, ?_, ?_, ?_⟩
  · intro m hm
    rcases List.mem_append.mp hm with hm | hm
    · exact hw.path m hm
    · obtain ⟨c, child, hmem, rfl⟩ := hmade m hm
      obtain ⟨f, x, -, hx, -, hpath, -⟩ := of_mem_tableOf h₀ (hw.path node hnode) hmem
      rw [Node.path, hpath, (hw.path node hnode).join_eq_snoc hx]
      exact clean_ofNames (forall_mem_snoc (fun _ => (hw.path node hnode).isName) hx)
  · intro m hm offer ho
    rcases List.mem_append.mp hm with hm | hm
    · exact hw.source m hm offer ho
    · obtain ⟨c, child, hmem, rfl⟩ := hmade m hm
      obtain rfl := Option.some.inj ho
      obtain ⟨f, x, hat, -, -, -, hsource⟩ := of_mem_tableOf h₀ (hw.path node hnode) hmem
      exact ⟨f, hat, hsource⟩
  · intro scan hmem
    rcases List.mem_cons.mp hmem with rfl | hmem
    · exact htable
    · exact hw.scans scan hmem

omit hw in
theorem Course.settled (hc : Course (Store.provider (n + 1)) Store.SameTrees w₀ h w) :
    Settled n w₀ h w := by
  have hrecorded {h : History Entry} {w : Store × Overlay Filesystem Entry}
      (hc : Course (Store.provider (n + 1)) Store.SameTrees w₀ h w) := hc.recorded h₀.size h₀.dirty
  induction hc with
  | start => exact .start h₀
  | world _ hs ih => exact { ih with trees := ih.trees.trans hs }
  | invalidated _ _ ih => exact { ih with }
  | refused _ hnode hscan ih =>
      rw [scan_of_merge_ok (ih.exec_merge h₀ hnode)] at hscan
      cases (Prod.mk.inj hscan).1
  | scanned hc hnode hscan ha ih =>
      exact ih.scanned h₀ hnode ((hrecorded hc).slots _ hnode) hscan ha

omit hw in
/-- A clean listing holds what the layers give together. -/
theorem Course.offers_eq (hc : Course (Store.provider (n + 1)) Store.SameTrees w₀ h w)
    (hnode : node ∈ h.nodes) (hclean : (w.2.listing node.slot).dirty = false) :
    (w.2.listing node.slot).offers = tableOf w₀ node.path := by
  obtain ⟨scan, hlast, rfl, hoffers⟩ := (hc.recorded h₀.size h₀.dirty).whole node hnode hclean
  have hw := hc.settled h₀
  rw [hoffers, hw.fold, hw.scans scan (List.mem_of_find?_eq_some hlast)]

end

/-! ## Walking through it -/

section
variable {n : Nat} {w₀ w : Store × Overlay Filesystem Entry} {h : History Entry}
  {node : Node Entry} {place : Option (Offer Entry)} {held : List (Node Entry)}
variable (h₀ : Blank w₀) (hc : Course (Store.provider (n + 1)) Store.SameTrees w₀ h w)
include h₀ hc

/-- To list a node answers what the layers give together for its path. -/
theorem Course.exec_listed (hnode : node ∈ h.nodes) :
    ∃ h' w' cs, (listed (Store.provider (n + 1)) node).exec w = (.ok cs, w') ∧
      Course (Store.provider (n + 1)) Store.SameTrees w₀ h' w' ∧ nodesOf cs ⊆ h'.nodes ∧
      (cs.map fun c => (c.1, c.2.offer)) = tableOf w₀ node.path := by
  obtain ⟨h', hc', hsub, hknown⟩ := advances_listed h₀.size h₀.dirty
    (List.mem_singleton_self node) h w hc (List.forall_mem_singleton.mpr hnode)
  have hslot := (hc.recorded h₀.size h₀.dirty).slots node hnode
  -- the listing is clean afterwards, and it is the answer
  obtain ⟨w', he, hclean⟩ : ∃ w', (listed (Store.provider (n + 1)) node).exec w
      = (.ok (w'.2.listing node.slot).children, w') ∧ (w'.2.listing node.slot).dirty = false := by
    cases hd : (w.2.listing node.slot).dirty with
    | false => exact ⟨w, by simp [listed, hd], hd⟩
    | true =>
        have hscan := scan_of_merge_ok ((hc.settled h₀).exec_merge h₀ hnode)
        refine ⟨(afterMerge w.1 node.path w₀.2.layers,
          w.2.install node.slot (tableOf w₀ node.path)), by simp [listed, hd, hscan], ?_⟩
        rw [listing_install _ _ hslot, if_pos rfl]
  rw [he] at hc' hknown
  exact ⟨h', w', _, he, hc', hknown _ rfl, hc'.offers_eq h₀ (hsub hnode) hclean⟩

theorem Course.exec_requireLive (node : Node Entry) :
    (requireLive node : Call Store Filesystem Entry Unit).exec w = (.ok (), w) :=
  Overlay.exec_requireLive (hc.settled h₀).live

theorem Course.exec_requireDirectory (hnode : node ∈ h.nodes) :
    (requireDirectory (Store.provider (n + 1)) node).exec w =
      (if (kindAt w₀.1 node.offer?).isDirectory then .ok () else .error (.notADirectory node.path),
        w) :=
  have hw := hc.settled h₀
  exec_requireDirectory_of_kind (kind_of_source h₀.trees n hw.trees (hw.source node hnode))

/-- A walk arrives where the layers lead, and nowhere else. -/
theorem Course.descend_leadsTo (names : List String) (hnode : node ∈ h.nodes) :
    (∃ m, ((descend (Store.provider (n + 1)) node names).exec w).1 = .ok (some m) ∧
        m.offer? = place) ↔
      leadsTo w₀ node.offer? names place := by
  induction names generalizing node h w with
  | nil => simp [descend, leadsTo]
  | cons c names ih =>
      rw [descend, leadsTo_cons, turn]
      simp only [exec_bind, hc.exec_requireDirectory h₀ hnode]
      cases (kindAt w₀.1 node.offer?).isDirectory with
      | false => simp
      | true =>
          obtain ⟨h', w', cs, he, hc', hknown, htable⟩ := hc.exec_listed h₀ hnode
          have hl : (tableOf w₀ (pathAt node.offer?)).lookup c = (cs.lookup c).map (·.offer) := by
            rw [pathAt_offer, ← htable, lookup_map_offer]
          simp only [if_true, listedChild, exec_bind, exec_pure, he, hl]
          cases hlook : cs.lookup c with
          | none => simp
          | some child =>
              have hchild : Node.entry child ∈ h'.nodes :=
                hknown (List.mem_map.mpr ⟨(c, child), mem_of_lookup hlook, rfl⟩)
              simp only [Option.map_some, Option.some.injEq, exists_eq_left']
              exact ih hc' hchild

theorem Course.lookup_leadsTo {path : String} (hpath : components path ≠ [])
    (hnode : node ∈ h.nodes) :
    (∃ m, ((lookup (Store.provider (n + 1)) node path).exec w).1 = .ok (some m) ∧
        m.offer? = place) ↔
      leadsTo w₀ node.offer? (components path) place := by
  obtain ⟨c, cs, hnames⟩ := List.exists_cons_of_ne_nil hpath
  rw [← hc.descend_leadsTo h₀ (components path) hnode, lookup, hnames]
  simp only [exec_bind, hc.exec_requireLive h₀, hc.exec_requireDirectory h₀ hnode]
  cases hk : (kindAt w₀.1 node.offer?).isDirectory with
  | true => simp only [if_true]
  | false =>
      simp only [descend, exec_bind, hc.exec_requireDirectory h₀ hnode, hk, Bool.false_eq_true,
        if_false]

/-- A path leads where the layers lead along its keys. -/
theorem Course.entry_leadsTo (path : String) :
    (∃ m, ((entry (Store.provider (n + 1)) path).exec w).1 = .ok (some m) ∧ m.offer? = place) ↔
      leadsTo w₀ none (components (normalize path w₀.2.fold)) place := by
  rw [entry]
  simp only [exec_bind, exec_current, (hc.settled h₀).fold, exec_ite, exec_pure,
    String.isEmpty_iff]
  by_cases h0 : normalize path w₀.2.fold = ""
  · rw [if_pos h0, h0, components_empty]
    simp [leadsTo, Node.offer?]
  · have hne := components_normalize_key_ne_nil h0
    rw [if_neg h0]
    exact hc.lookup_leadsTo h₀ hne hc.root_mem

theorem Course.child_leadsTo (name : String) (hnode : node ∈ h.nodes) {m : Node Entry}
    (hm : ((child (Store.provider (n + 1)) node name).exec w).1 = .ok (some m)) :
    leadsTo w₀ node.offer? (components (normalize name w₀.2.fold)) m.offer? := by
  have hlive := hc.exec_requireLive h₀ node
  have hdir := hc.exec_requireDirectory h₀ hnode
  rw [child] at hm
  cases hk : (kindAt w₀.1 node.offer?).isDirectory with
  | false =>
      simp only [exec_bind, hlive, hdir, hk, Bool.false_eq_true, if_false] at hm
      cases hm
  | true =>
      simp only [exec_bind, hlive, hdir, hk, if_true, exec_current, (hc.settled h₀).fold, exec_ite,
        exec_pure, String.isEmpty_iff] at hm
      by_cases h0 : normalize name w₀.2.fold = ""
      · rw [if_pos h0] at hm
        cases hm
      · have hne := components_normalize_key_ne_nil h0
        rw [if_neg h0] at hm
        exact (hc.lookup_leadsTo h₀ hne hnode).mp ⟨m, hm, rfl⟩

theorem Course.children_leadsTo (hnode : node ∈ h.nodes) {ms : List (Node Entry)}
    (hms : ((children (Store.provider (n + 1)) node).exec w).1 = .ok ms) :
    ∀ m ∈ ms, ∃ c, leadsTo w₀ node.offer? [c] m.offer? := by
  have hlive := hc.exec_requireLive h₀ node
  have hdir := hc.exec_requireDirectory h₀ hnode
  have hreq : (require (Store.provider (n + 1)) (.only .read) "listing" node).exec w = _ :=
    exec_require _ _ _
  obtain ⟨h', w', cs, he, -, -, htable⟩ := hc.exec_listed h₀ hnode
  rw [children] at hms
  by_cases hread : (operations (Store.provider (n + 1)) w.2 w.1).covers (.only .read) = true
  · rw [if_pos hread] at hreq
    cases hk : (kindAt w₀.1 node.offer?).isDirectory with
    | false =>
        simp only [exec_bind, hlive, hreq, hdir, hk, Bool.false_eq_true, if_false] at hms
        cases hms
    | true =>
        simp only [exec_bind, hlive, hreq, hdir, hk, if_true, he, exec_pure] at hms
        obtain rfl := Except.ok.inj hms
        intro m hm
        obtain ⟨⟨c, child⟩, hmem, rfl⟩ := List.mem_map.mp hm
        have hmem' : (c, child.offer) ∈ tableOf w₀ (pathAt node.offer?) := by
          rw [pathAt_offer, ← htable]
          exact List.mem_map.mpr ⟨(c, child), hmem, rfl⟩
        refine ⟨c, leadsTo_cons.mpr ⟨_, ?_, rfl⟩⟩
        rw [turn, if_pos hk, lookup_tableOf hmem']
        rfl
  · rw [if_neg hread] at hreq
    simp only [exec_bind, hlive, hreq] at hms
    cases hms

/-- What is asked of a node that names lead to answers nodes that names lead to. -/
theorem Course.ask_leadsTo {what : Ask} (hwhat : what.isReading = true) (hnode : node ∈ h.nodes)
    (hreached : ∃ names, leadsTo w₀ none names node.offer?) :
    ∀ m ∈ handed ((what.perform (Store.provider (n + 1)) node).exec w).1,
      ∃ names, leadsTo w₀ none names m.offer? := by
  obtain ⟨names, hnames⟩ := hreached
  intro m hm
  obtain ⟨a, ha, hm⟩ := mem_handed hm
  cases what with
  | child name =>
      obtain ⟨r, hr, rfl⟩ := ok_of_map ha
      obtain rfl := Option.mem_toList.mp hm
      exact ⟨_, hnames.append (hc.child_leadsTo h₀ name hnode hr)⟩
  | children =>
      obtain ⟨ms, hms, rfl⟩ := ok_of_map ha
      obtain ⟨c, hlead⟩ := hc.children_leadsTo h₀ hnode hms m hm
      exact ⟨_, hnames.append hlead⟩
  | count =>
      obtain ⟨_, -, rfl⟩ := ok_of_map ha
      cases hm
  | populate depth =>
      obtain ⟨_, -, rfl⟩ := ok_of_map ha
      cases hm
  | refresh =>
      obtain ⟨_, -, rfl⟩ := ok_of_map ha
      cases hm
  | invalidate =>
      obtain ⟨_, -, rfl⟩ := ok_of_map ha
      cases hm
  | _ => cases hwhat

omit hc in
/-- Wherever looking around leads, names lead to each node that is held. -/
theorem Reaches.leadsTo
    (h : Reaches (Store.provider (n + 1)) Store.SameTrees (fun _ r => r.looks = true) [.root] w₀
      held w) :
    ∀ m ∈ held, ∃ names, Overlay.leadsTo w₀ none names m.offer? := by
  induction h with
  | start =>
      intro m hm
      obtain rfl := List.mem_singleton.mp hm
      exact ⟨[], rfl⟩
  | world _ _ ih => exact ih
  | request r hreach hr hlooks ih =>
      obtain ⟨h, hc, hheld⟩ := hreach.course h₀.size h₀.dirty
      intro m hm
      rcases List.mem_append.mp hm with hm | hm
      · exact ih m hm
      · cases r with
        | entry path =>
            obtain ⟨a, ha, hma⟩ := mem_handed hm
            obtain ⟨found, hfound, rfl⟩ := ok_of_map ha
            obtain rfl := Option.mem_toList.mp hma
            exact ⟨_, (hc.entry_leadsTo h₀ path).mp ⟨m, hfound, rfl⟩⟩
        | ask node what =>
            exact hc.ask_leadsTo h₀ hlooks (hheld (hr node rfl)) (ih node (hr node rfl)) m hm
        | addLayer layer => cases hlooks

omit hc in
/-- A node that is held is found at its own path. -/
theorem Reaches.found_at_path
    (h : Reaches (Store.provider (n + 1)) Store.SameTrees (fun _ r => r.looks = true) [.root] w₀
      held w) (hnode : node ∈ held) :
    ∃ e w', (entry (Store.provider (n + 1)) node.path).exec w = (.ok (some e), w') ∧
      e.offer? = node.offer? := by
  obtain ⟨history, hc, -⟩ := h.course h₀.size h₀.dirty
  obtain ⟨names, hnames⟩ := h.leadsTo h₀ node hnode
  have hown := leadsTo_own h₀ hnames
  rw [pathAt_offer] at hown
  obtain ⟨e, he, hoffer⟩ := (hc.entry_leadsTo h₀ node.path).mpr hown
  exact ⟨e, _, Prod.ext he rfl, hoffer⟩

omit hc in
/-- A union over layers that keep clean trees, with or without folding, whose layers stay as they
are: what is listed in a directory is found at its own path then and later on, with the same path,
from the same layer, as the same entry of it. -/
theorem listed_found_at_path {held' ms : List (Node Entry)}
    {w₁ w' : Store × Overlay Filesystem Entry} {d m : Node Entry}
    (h : Reaches (Store.provider (n + 1)) Store.SameTrees (fun _ r => r.looks = true) [.root] w₀
      held w)
    (hd : d ∈ held) (hms : (children (Store.provider (n + 1)) d).exec w = (.ok ms, w₁))
    (h' : Reaches (Store.provider (n + 1)) Store.SameTrees (fun _ r => r.looks = true)
      (held ++ ms) w₁ held' w')
    (hm : m ∈ ms) :
    ∃ e w'', (entry (Store.provider (n + 1)) m.path).exec w' = (.ok (some e), w'') ∧
      e.path = m.path ∧
      kind (Store.provider (n + 1)) e w''.1 = kind (Store.provider (n + 1)) m w''.1 ∧
      e.layer? = m.layer? ∧ e.source? = m.source? := by
  have hlisted := h.request (.ask d .children) (fun node hn => Option.some.inj hn ▸ hd) rfl
  have hexec : ((Request.ask d .children).perform (Store.provider (n + 1))).exec w
      = (.ok (.places ms), w₁) := exec_map_of_eq hms _
  rw [hexec] at hlisted
  obtain ⟨e, w'', he, hoffer⟩ := (hlisted.trans h').found_at_path h₀
    (h'.held_subset (List.mem_append_right _ hm))
  refine ⟨e, w'', he, Node.path_eq hoffer, ?_, Node.layer_eq hoffer, Node.source_eq hoffer⟩
  rw [kind, kind, Node.source_eq hoffer]

end

deriving instance DecidableEq for Offer, Child, Node

/-- The directory and the file in it that a union of two spellings shows. -/
def docsNode : Node Entry := .entry ⟨1, ⟨"Docs", .memory 0 "Docs", 0⟩⟩

@[inherit_doc docsNode]
def docsFile : Node Entry := .entry ⟨2, ⟨"Docs/a", .memory 0 "Docs/a", 0⟩⟩

/-- In a union that folds case, the file that is listed in a directory is found at its own path,
also after the directory was listed anew. -/
theorem listed_found_at_path_twoSpellings :
    ∃ held w w₁ held' w',
      Reaches (Store.provider 1) Store.SameTrees (fun _ r => r.looks = true) [.root]
        twoSpellingsUnion held w ∧ docsNode ∈ held ∧
      (children (Store.provider 1) docsNode).exec w = (.ok [docsFile], w₁) ∧
      Reaches (Store.provider 1) Store.SameTrees (fun _ r => r.looks = true) (held ++ [docsFile])
        w₁ held' w' ∧
      ∃ e w'', (entry (Store.provider 1) "Docs/a").exec w' = (.ok (some e), w'') ∧
        e.path = "Docs/a" ∧ e.layer? = some 0 ∧ e.source? = some (.memory 0 "Docs/a") := by
  have hblank : Blank twoSpellingsUnion := ⟨by decide, rfl, by decide, rfl⟩
  have hroot := exec_of_toOption (x := children (Store.provider 1) .root) (s := twoSpellingsUnion)
    (a := [docsNode]) (by decide +kernel)
  have hdocs := exec_of_toOption (x := children (Store.provider 1) docsNode)
    (s := ((children (Store.provider 1) .root).exec twoSpellingsUnion).2)
    (a := [docsFile]) (by decide +kernel)
  have hreach : Reaches (Store.provider 1) Store.SameTrees (fun _ r => r.looks = true) [.root]
      twoSpellingsUnion [.root, docsNode]
      ((children (Store.provider 1) .root).exec twoSpellingsUnion).2 := by
    have hstart : Reaches (Store.provider 1) Store.SameTrees (fun _ r => r.looks = true) [.root]
        twoSpellingsUnion [.root] twoSpellingsUnion := .start
    have hask := hstart.request (.ask .root .children)
      (fun node hn => Option.some.inj hn ▸ List.mem_singleton_self Node.root) rfl
    have hexec : ((Request.ask .root .children).perform (Store.provider 1)).exec twoSpellingsUnion
        = _ := exec_map_of_eq hroot _
    rw [hexec] at hask
    exact hask
  have hstay : Reaches (Store.provider 1) Store.SameTrees (fun _ r => r.looks = true)
      ([.root, docsNode] ++ [docsFile]) ((children (Store.provider 1) docsNode).exec
        ((children (Store.provider 1) .root).exec twoSpellingsUnion).2).2 _ _ := .start
  have hagain := hstay.request (.ask docsNode .refresh)
    (fun node hn => Option.some.inj hn ▸ by simp) rfl
  obtain ⟨e, w'', he, hpath, -, hlayer, hsource⟩ := listed_found_at_path hblank hreach
    (by simp) hdocs hagain (List.mem_singleton_self docsFile)
  exact ⟨_, _, _, _, _, hreach, by simp, hdocs, hagain, e, w'', he, hpath, hlayer, hsource⟩

end Strata.Overlay
