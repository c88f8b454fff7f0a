/-
# `Strata.Proofs.Overlay.Nesting` — a union as a layer of a union

A union that is a layer answers out of its own listings and for its own layers, and
what it lists hides what it hides.  Still it gives, for every directory, what its
layers would give in its place, as long as they agree on what is a file and what a
directory (`gives_overlay`): then a directory of any of them is one of the union.
So the union over all the layers side by side answers the same (`nested_eq_flat`).
-/
import Strata.Proofs.Overlay.Origins
import Strata.Proofs.Overlay.Pieces

namespace Strata

open Strata.Action Strata.Path

namespace Overlay

/-! ## Layers that agree -/

/-- No path is a file in one layer that can read and a directory in another. -/
def Agree (s : Store) (layers : List Filesystem) : Prop :=
  ∀ f ∈ layers, ∀ g ∈ layers, f.canRead s = true → g.canRead s = true → ∀ p,
    (f.outline s).kind p = .file → (g.outline s).kind p ≠ .directory

section
variable {s : Store} {layers : List Filesystem}

/-- Where layers agree, a directory of any of them that can read is found as a directory. -/
theorem follow_of_lists (hs : ∀ f ∈ layers, f.CleanTree s) (hagree : Agree s layers)
    {f : Filesystem} (hf : f ∈ layers) (done rest : List String)
    (place : Option (Offer Entry)) (hn : ∀ m ∈ done ++ rest, IsComponent m)
    (hdir : (kindAt s place).isDirectory = true)
    (hl : lists s (ofNames (done ++ rest)) f = true) :
    ∃ place', follow s layers done place rest = .ok (some place') ∧
      (kindAt s place').isDirectory = true := by
  induction rest generalizing done place with
  | nil => exact ⟨place, rfl, hdir⟩
  | cons c rest ih =>
      rw [List.append_cons] at hn hl
      rw [lists, Bool.and_eq_true, beq_iff_eq] at hl
      have hfdir : (f.outline s).kind (ofNames (done ++ [c])) = .directory := by
        by_cases h0 : rest = []
        · have hd := hl.2
          rwa [h0, List.append_nil] at hd
        · exact (hs f hf).outline_clean.directory_of_append hn h0 (by rw [hl.2]; rfl)
      have hholds : holds s (ofNames (done ++ [c])) f = true := by
        rw [holds, hl.1, hfdir]
        rfl
      rw [follow, if_pos hdir]
      cases hp : provided s layers (ofNames (done ++ [c])) with
      | none =>
          obtain ⟨i, hi, rfl⟩ := List.getElem_of_mem hf
          rw [provided, Option.map_eq_none_iff, List.find?_eq_none] at hp
          exact absurd hholds (hp (layers[i], i)
            (List.mem_zipIdx_iff_getElem?.mpr (List.getElem?_eq_getElem hi)))
      | some o =>
          obtain ⟨g, hg, hgholds, -, heq⟩ := provided_eq_some.mp hp
          have hg' := List.mem_of_getElem? hg
          rw [holds, Bool.and_eq_true] at hgholds
          have hkind : kindAt s (some o) = (g.outline s).kind (ofNames (done ++ [c])) := by
            rw [heq]
            exact (hs g hg').kind_entryAt _
          have hgdir : (kindAt s (some o)).isDirectory = true := by
            rw [hkind]
            cases hk : (g.outline s).kind (ofNames (done ++ [c])) with
            | directory => rfl
            | file => exact absurd hfdir (hagree g hg' f hf hgholds.1 hl.1 _ hk)
            | unknown =>
                rw [hk] at hgholds
                exact absurd hgholds.2 (by decide)
          exact ih (done ++ [c]) _ hn hgdir (by rw [lists, hl.1, hl.2]; rfl)

theorem follow_error {done rest : List String} {place : Option (Offer Entry)} {e : Failure}
    (h : follow s layers done place rest = .error e) : ∃ p, e = .notADirectory p := by
  induction rest generalizing done place with
  | nil => cases h
  | cons c rest ih =>
      rw [follow] at h
      split at h
      · split at h
        · exact ih h
        · cases h
      · exact ⟨_, (Except.error.inj h).symm⟩

/-- Where layers agree and the way does not lead to a directory, none of them lists one. -/
theorem not_lists_of_follow (hs : ∀ f ∈ layers, f.CleanTree s) (hagree : Agree s layers)
    {path : String} (hp : Path.Clean path)
    (hnone : ∀ place, follow s layers [] none (components path) = .ok (some place) →
      (kindAt s place).isDirectory = false) :
    ∀ f ∈ layers, lists s path f = false := by
  intro f hf
  by_contra hl
  rw [Bool.not_eq_false, ← hp.ofNames_components] at hl
  obtain ⟨place, hfollow, hdir⟩ :=
    follow_of_lists hs hagree hf [] _ none (fun m hm => isComponent_of_mem hm) rfl hl
  rw [hnone place hfollow] at hdir
  cases hdir

theorem merged_of_not_lists {path : String} (h : ∀ f ∈ layers, lists s path f = false) :
    merged s layers path = [] := by
  have hstack : stacked s layers path = [] := by
    refine List.flatMap_eq_nil_iff.mpr ?_
    rintro ⟨f, i⟩ hf
    rw [offersAt, if_neg]
    rw [h f (List.fst_mem_of_mem_zipIdx hf)]
    exact Bool.false_ne_true
  rw [merged, hstack]
  rfl

end

/-! ## Looking through a union of memory filesystems -/

section
variable {t : Store} (n : Nat)

/-- Looking into a memory filesystem leads to its own entries and leaves the store as it is. -/
theorem ensures_child_memory (id : Nat) (e : Entry) (name : String)
    (he : ∃ path, e = .memory id path) :
    Ensures (fun s => s = t) ((Store.provider (n + 1)).child e name)
      fun r => ∀ e' ∈ r, ∃ path, e' = .memory id path := by
  obtain ⟨path, rfl⟩ := he
  refine Ensures.get.bind fun s _ => (Ensures.ofExcept _).bind fun r _ => .pure ?_
  intro e he
  obtain ⟨q, -, rfl⟩ := Option.map_eq_some_iff.mp he
  exact ⟨q, rfl⟩

theorem ensures_layerOffers_memory (path : String) (layer id : Nat) :
    Ensures (fun s => s = t) (layerOffers (Store.provider (n + 1)) path layer (.memory id))
      fun _ => True := by
  have hdir := ensures_resolveDirectory (P := Store.provider (n + 1)) (f := .memory id)
    (I := fun s => s = t) ⟨"", rfl⟩ (ensures_child_memory n id) path
  refine Ensures.get.bind fun _ _ => .ite (hdir.bind ?_) (.pure trivial)
  intro r hr
  cases r with
  | none => exact .pure trivial
  | some e =>
      obtain ⟨q, rfl⟩ := hr e rfl
      refine Ensures.bind (Q := fun _ => True) ?_ fun _ _ => .pure trivial
      exact Ensures.get.bind fun _ _ => (Ensures.ofExcept _).bind fun _ _ => .pure trivial

theorem ensures_mergeFrom_memory (fold : Bool) (path : String) (ids : List Nat) (layer : Nat)
    (table : List (String × Offer Entry)) :
    Ensures (fun s => s = t)
      (mergeFrom (Store.provider (n + 1)) fold path layer (ids.map .memory) table)
      fun _ => True := by
  induction ids generalizing layer table with
  | nil => exact .pure trivial
  | cons id ids ih =>
      exact (ensures_layerOffers_memory n path layer id).bind fun _ _ => ih _ _

/-- To look through a union of memory filesystems changes nothing but the listings of the union. -/
theorem observed_memory (ids : List Nat) :
    Observed (Store.provider (n + 1)) (fun w => w.1 = t ∧ w.2.layers = ids.map .memory)
      fun _ => True where
  root := trivial
  listed _ _ _ _ _ := trivial
  scan node := by
    rintro ⟨s, o⟩ ⟨rfl, hlayers⟩
    refine ⟨?_, fun _ _ => trivial⟩
    have hmerge := (ensures_mergeFrom_memory (t := s) n o.fold node.path ids 0 [] s rfl).1
    rw [← hlayers] at hmerge
    rcases hexec : (merge (Store.provider (n + 1)) o.fold o.layers node.path).exec s with ⟨_ | _, s'⟩
    all_goals
      rw [merge] at hexec
      rw [hexec] at hmerge
      simp only [scan, exec_bind, exec_current, exec_below, merge, hexec, exec_update]
      exact ⟨hmerge, hlayers⟩

end

/-! ## Unions as layers -/

section
variable {s t : Store} {ids : List Nat} {u : Nat}

theorem overlay_setOverlay (h : u < t.overlays.size) (o : Overlay Filesystem Entry) :
    (t.setOverlay u o).overlay u = o := by
  simp [Store.overlay, Store.setOverlay, h]

theorem sameTrees_setOverlay (t : Store) (u : Nat) (o : Overlay Filesystem Entry) :
    t.SameTrees (t.setOverlay u o) := ⟨rfl, rfl⟩

/-- The union of a number stands over these memory filesystems, which are as in the store, and what
it has listed is what they give together. -/
structure Houses (s : Store) (ids : List Nat) (u : Nat) (t : Store) : Prop where
  size : u < t.overlays.size
  base : Over s (ids.map .memory) (t, t.overlay u)
  root : ∃ label, Holds (ids.map .memory) label (AsMerged s (ids.map .memory)) (t.overlay u) .root

/-- What is known of a node of the union is known of its root as well. -/
def Attained (s : Store) (ids : List Nat) (u : Nat) (t : Store) (m : Node Entry) : Prop :=
  ∃ label, Holds (ids.map .memory) label (AsMerged s (ids.map .memory)) (t.overlay u) .root ∧
    Holds (ids.map .memory) label (AsMerged s (ids.map .memory)) (t.overlay u) m

theorem Houses.attained (h : Houses s ids u t) : Attained s ids u t .root := by
  obtain ⟨label, hroot⟩ := h.root
  exact ⟨label, hroot, hroot⟩

/-- A union is still what it was after somebody looked through it. -/
theorem Houses.quiet {label label' : Nat → String} {o : Overlay Filesystem Entry}
    (h : Houses s ids u t)
    (hroot : Holds (ids.map .memory) label (AsMerged s (ids.map .memory)) (t.overlay u) .root)
    (hq : Quiet s (ids.map .memory) label (t, t.overlay u) label' (t, o)) :
    Houses s ids u (t.setOverlay u o) where
  size := by simpa [Store.setOverlay] using h.size
  base := by
    rw [overlay_setOverlay h.size]
    exact ⟨hq.base.trees.trans (sameTrees_setOverlay t u o), hq.base.layers, hq.base.fold,
      hq.base.live⟩
  root := by
    rw [overlay_setOverlay h.size]
    exact ⟨label', hq.holds _ _ (asMerged s _) hroot⟩

end

section
variable (n : Nat) {s t : Store} {ids : List Nat} {u : Nat}
  (hs : ∀ f ∈ ids.map Filesystem.memory, f.CleanTree s) {path : String}

theorem kind_ofNode (m : Node Entry) : (Entry.ofNode u m).kind s = kindAt s m.offer? := by
  cases m <;> rfl

/-- Looking a name up in a union leaves the store as it is but for the listings of the union. -/
theorem exec_inOverlay_of_observed {α : Type} {x : Call Store Filesystem Entry α}
    {Q : α → Prop}
    (hx : Ensures (fun w => w.1 = t ∧ w.2.layers = ids.map Filesystem.memory) x Q)
    (hl : (t.overlay u).layers = ids.map .memory) {r : Except Failure α}
    {w : Store × Overlay Filesystem Entry} (he : x.exec (t, t.overlay u) = (r, w)) :
    (Store.inOverlay u x).exec t = (r, t.setOverlay u w.2) ∧ w.1 = t := by
  have hw : w.1 = t := by
    have hkept := (hx (t, t.overlay u) ⟨rfl, hl⟩).1.1
    rwa [he] at hkept
  refine ⟨?_, hw⟩
  simp only [Store.inOverlay, exec_zoom, he, hw]

/-- The nodes of a union stand for the entries of a table. -/
theorem cores_of_offers {ms : List (Node Entry)} {table : List (String × Offer Entry)} {layer : Nat}
    (hms : ms.map Node.offer? = table.map fun e => some e.2)
    (hclean : ∀ e ∈ table, normalize e.2.path false = e.2.path) :
    (offersOf (Store.provider (n + 2)) layer (ms.map (Entry.ofNode u))).map Offer.core
      = (cores table).map (·.2) := by
  induction ms generalizing table with
  | nil =>
      obtain rfl := List.map_eq_nil_iff.mp hms.symm
      rfl
  | cons m ms ih =>
      rcases table with _ | ⟨⟨name, o⟩, table⟩
      · cases hms
      · obtain ⟨hm, hms⟩ := List.cons.inj hms
        have hrest := ih hms fun e he => hclean e (List.mem_cons_of_mem _ he)
        refine List.cons_eq_cons.mpr ⟨?_, hrest⟩
        cases m with
        | root => cases hm
        | entry child =>
            obtain rfl := Option.some.inj hm
            have hpath : normalize child.offer.path false = child.offer.path :=
              hclean (name, child.offer) (List.mem_cons_self ..)
            exact congrArg (fun p => (⟨p, child.offer.source.core, 0⟩ : Offer Entry)) hpath

/-- What memory filesystems list together are entries of those among them that can read. -/
theorem source_of_mem_merged {e : String × Offer Entry}
    (he : e ∈ merged s (ids.map .memory) path) :
    ∃ id ∈ ids, (Filesystem.memory id).canRead s = true ∧ ∃ q, e.2.source = .memory id q := by
  obtain ⟨ho, -⟩ := (mem_withOffers he).resolve_left List.not_mem_nil
  obtain ⟨⟨f, i⟩, hf, ho⟩ := List.mem_flatMap.mp ho
  obtain ⟨id, hid, rfl⟩ := List.mem_map.mp (List.fst_mem_of_mem_zipIdx hf)
  rw [offersAt] at ho
  split at ho
  · rename_i hl
    rw [lists, Bool.and_eq_true] at hl
    obtain ⟨q, -, heq⟩ := List.mem_map.mp ho
    exact ⟨id, hid, hl.1, q, by rw [← heq]; rfl⟩
  · cases ho

include hs

/-- The listings of a union lead from its root to where its layers lead. -/
theorem exec_child_overlay (hp : Path.Clean path) (h0 : path ≠ "") (h : Houses s ids u t) :
    ∃ (r : Except Failure (Option (Node Entry))) (t' : Store),
      ((Store.provider (n + 2)).child (.overlayRoot u) path).exec t
        = (r.map (·.map (Entry.ofNode u)), t') ∧ Houses s ids u t' ∧
      r.map (·.map Node.offer?) = follow s (ids.map .memory) [] none (components path) ∧
      ∀ m, r = .ok (some m) → m.path = path ∧
        (Store.provider (n + 2)).kind (Entry.ofNode u m) t' = kindAt s m.offer? ∧
        Attained s ids u t' m := by
  obtain ⟨label, hroot⟩ := h.root
  obtain ⟨r, label', ⟨t', o⟩, he, hq, -, hr, hcached⟩ :=
    exec_child hs n (asMerged s _) path h.base hroot
  obtain ⟨hin, rfl⟩ := exec_inOverlay_of_observed
    (ensures_child (observed_memory n ids) .root path trivial) h.base.layers he
  have hquiet := h.quiet hroot hq
  have hholds := hq.holds _ _ (asMerged s _) hroot
  refine ⟨r, _, ?_, hquiet, ?_, ?_⟩
  · show (Entry.child (Store.provider (n + 1)) (Entry.ofNode u .root) path).exec t' = _
    rw [Entry.child_ofNode]
    simp only [exec_bind, hin]
    cases r <;> rfl
  · rw [hr (guides_merged hs fun m hm => ?_), foundBelow, hp.1]
    · obtain ⟨c, cs, hc⟩ := List.exists_cons_of_ne_nil (hp.components_ne_nil h0)
      rw [hc]
      rfl
    · exact isComponent_of_mem ((List.mem_append.mp hm).resolve_left List.not_mem_nil)
  · intro m hm
    have hc := hcached m hm
    rw [hp.1] at hc
    have hm' := hholds.of_cached hc
    have hbase := hquiet.base
    rw [overlay_setOverlay h.size] at hbase
    refine ⟨?_, (kind_ofNode m).trans (kindAt_congr hs hbase hm'.sound), label', ?_⟩
    · rw [← hm'.sound.path.ofNames_components, hholds.path_of_cached hc]
      exact hp.ofNames_components
    · rw [overlay_setOverlay h.size]
      exact ⟨hholds, hm'⟩

/-- The directory of a union at a path is a node of it, if one of its layers has a directory
there. -/
theorem exec_resolveDirectory_overlay (hp : Path.Clean path)
    (hagree : Agree s (ids.map .memory)) (h : Houses s ids u t) :
    ∃ r t', ((Store.provider (n + 2)).resolveDirectory (.overlay u) path).exec t = (.ok r, t') ∧
      Houses s ids u t' ∧
      ((∃ m, r = some (Entry.ofNode u m) ∧ m.path = path ∧
          (kindAt s m.offer?).isDirectory = true ∧ Attained s ids u t' m) ∨
        r = none ∧ ∀ f ∈ ids.map Filesystem.memory, lists s path f = false) := by
  have absent := not_lists_of_follow hs hagree hp
  unfold Provider.resolveDirectory Provider.resolve
  by_cases h0 : path = ""
  · subst h0
    exact ⟨some (Entry.ofNode u .root), t, rfl, h, .inl ⟨.root, rfl, rfl, rfl, h.attained⟩⟩
  · obtain ⟨r, t', hchild, ht', hfollow, hm⟩ := exec_child_overlay n hs hp h0 h
    have hroot : (Store.provider (n + 2)).root (.overlay u) = .overlayRoot u := rfl
    simp only [String.isEmpty_iff, if_neg h0, exec_bind, exec_attempt, hroot, hchild]
    cases r with
    | error e =>
        obtain ⟨p, rfl⟩ := follow_error hfollow.symm
        refine ⟨none, t', rfl, ht', .inr ⟨rfl, absent fun place hplace => ?_⟩⟩
        rw [hplace] at hfollow
        cases hfollow
    | ok found =>
        cases found with
        | none =>
            refine ⟨none, t', rfl, ht', .inr ⟨rfl, absent fun place hplace => ?_⟩⟩
            rw [hplace] at hfollow
            cases hfollow
        | some m =>
            obtain ⟨hpath, hkind, hholds⟩ := hm m rfl
            have hplace : ∀ place, follow s (ids.map .memory) [] none (components path)
                = .ok (some place) → place = m.offer? := by
              intro place hplace
              rw [hplace] at hfollow
              exact (Option.some.inj (Except.ok.inj hfollow)).symm
            simp only [Except.map, Option.map_some, exec_bind, exec_get, exec_pure, hkind]
            cases hk : kindAt s m.offer? with
            | directory =>
                refine ⟨some (Entry.ofNode u m), t', ?_, ht', .inl ⟨m, rfl, hpath, by rw [hk]; rfl, hholds⟩⟩
                simp [Kind.exists?, hkind, hk, Kind.isDirectory]
            | file =>
                refine ⟨none, t', ?_, ht', .inr ⟨rfl, absent fun place h => ?_⟩⟩
                · simp [Kind.exists?, hkind, hk, Kind.isDirectory]
                · rw [hplace place h, hk]
                  rfl
            | unknown =>
                refine ⟨none, t', ?_, ht', .inr ⟨rfl, absent fun place h => ?_⟩⟩
                · simp [Kind.exists?]
                · rw [hplace place h, hk]
                  rfl

/-- The entries of a directory of a union are what its layers give together. -/
theorem exec_children_overlay {m : Node Entry} (hm : Attained s ids u t m) (h : Houses s ids u t)
    (hdir : (kindAt s m.offer?).isDirectory = true)
    (hread : ((ids.map Filesystem.memory).any fun f => f.canRead s) = true) :
    ∃ (ms : List (Node Entry)) (t' : Store),
      ((Store.provider (n + 2)).children (Entry.ofNode u m)).exec t
        = (.ok (ms.map (Entry.ofNode u)), t') ∧ Houses s ids u t' ∧
      ms.map Node.offer? = (merged s (ids.map .memory) m.path).map fun e => some e.2 := by
  obtain ⟨label, hroot, hnode⟩ := hm
  obtain ⟨r, label', ⟨t', o⟩, he, hq, -, ⟨table, htable, hr⟩, -⟩ :=
    exec_children hs n (asMerged s _) h.base hnode
  obtain ⟨hin, rfl⟩ := exec_inOverlay_of_observed
    (ensures_children (observed_memory n ids) m) h.base.layers he
  rw [contents, if_pos hread, if_pos hdir] at hr
  cases r with
  | error e => cases hr
  | ok ms =>
      refine ⟨ms, _, ?_, h.quiet hroot hq, ?_⟩
      · show (Entry.children (Store.provider (n + 1)) (Entry.ofNode u m)).exec t' = _
        rw [Entry.children_ofNode]
        simp only [exec_bind, hin]
        rfl
      · rw [← show table = merged s (ids.map .memory) m.path from htable]
        exact Except.ok.inj hr

/-- A file that a union has from a layer that can read can be read through the union. -/
theorem readable_ofNode {m : Node Entry} {o : Offer Entry} (hm : m.offer? = some o) {id : Nat}
    {q : String} (hid : id ∈ ids) (hcan : (Filesystem.memory id).canRead s = true)
    (hsource : o.source = .memory id q) :
    (Entry.ofNode u m).Readable (Store.provider (n + 2)) (Houses s ids u) s := by
  have hkind (t : Store) : (Entry.ofNode u m).kind t = (Entry.memory id q).kind t := by
    rw [kind_ofNode, hm, ← hsource]
    rfl
  have hbytes : (Entry.ofNode u m).bytes s = (Entry.memory id q).bytes s := by
    cases m with
    | root => cases hm
    | entry child =>
        obtain rfl := Option.some.inj hm
        rw [← hsource]
        rfl
  refine ⟨fun t ht => ?_, fun hfile t ht => ?_⟩
  · have hsame := (readable_memory n (fun t (ht : Houses s ids u t) => ht.base.trees) hcan q).kind t ht
    exact (hkind t).trans (hsame.trans (hkind s).symm)
  · have hread := readable_memory n (I := fun t' => t' = t)
      (fun t' (ht' : t' = t) => ht' ▸ ht.base.trees) hcan q
    rw [hkind] at hfile
    obtain ⟨t', hopen, rfl⟩ := hread.opens hfile t rfl
    have hmode : OpenMode.reading.checkAgainst
        (operations (Store.provider (n + 1)) (t'.overlay u) t') m.path = .ok (.only .read) := by
      refine if_pos ((operations_covers hs n ht.base .read).trans ?_)
      exact List.any_eq_true.mpr ⟨_, List.mem_map.mpr ⟨id, hid, rfl⟩, hcan⟩
    have hmsource : m.source? = some (.memory id q) := by
      cases m with
      | root => cases hm
      | entry child =>
          obtain rfl := Option.some.inj hm
          exact congrArg some hsource
    have hfile' : (kind (Store.provider (n + 1)) m t').isFile = true := by
      rw [kind, hmsource]
      show ((Store.provider (n + 1)).kind (.memory id q) t').isFile = true
      rw [hread.kind t' rfl, hfile]
      rfl
    have hexec : (openStream (Store.provider (n + 1)) m .reading).exec (t', t'.overlay u)
        = (.ok (.buffer (.reader ((Entry.memory id q).bytes s)) none), (t', t'.overlay u)) := by
      rw [openStream]
      simp only [exec_bind, exec_requireLive ht.base.live, exec_get, exec_ofExcept, hmode, hfile',
        if_true, exec_pure, hmsource, exec_attempt, exec_below, hopen]
    refine ⟨t', ?_, ht⟩
    show (Entry.openStream (Store.provider (n + 1)) (Entry.ofNode u m) .reading).exec t' = _
    rw [Entry.openStream_ofNode]
    simp only [Store.inOverlay, exec_zoom, hexec, hbytes, Store.setOverlay_self]

/-- A union that is a layer gives what its layers give together. -/
theorem gives_overlay (hagree : Agree s (ids.map .memory)) :
    Gives (Store.provider (n + 2)) (Houses s ids u) s (.overlay u) fun path =>
      (cores (merged s (ids.map .memory) path)).map (·.2) := by
  intro t h path hp layer
  have hops : ((Store.provider (n + 2)).operations (.overlay u) t).covers (.only .read)
      = (ids.map Filesystem.memory).any fun f => f.canRead s :=
    operations_covers hs n h.base .read
  have nothing (hno : ∀ f ∈ ids.map Filesystem.memory, lists s path f = false) :
      [].map Offer.core = (cores (merged s (ids.map .memory) path)).map (·.2) := by
    rw [merged_of_not_lists hno]
    rfl
  unfold layerOffers
  simp only [exec_bind, exec_get, hops, exec_ite]
  cases hread : (ids.map Filesystem.memory).any fun f => f.canRead s with
  | false =>
      refine ⟨[], t, rfl, h, nothing fun f hf => ?_, fun o ho => by cases ho⟩
      rw [lists, show f.canRead s = false by simpa using List.any_eq_false.mp hread f hf]
      rfl
  | true =>
      obtain ⟨r, t', hdir, ht', ⟨m, rfl, rfl, hm, hattained⟩ | ⟨rfl, hno⟩⟩ :=
        exec_resolveDirectory_overlay n hs hp hagree h
      · obtain ⟨ms, t'', hlist, ht'', hms⟩ :=
          exec_children_overlay n hs hattained ht' hm hread
        simp only [if_true, hdir, exec_bind, hlist, exec_pure]
        refine ⟨_, t'', rfl, ht'', ?_, ?_⟩
        · refine cores_of_offers n hms ?_
          intro e he
          have hmade := made_merged hs hp
          rw [hmade.path e.1 e.2 he, normalize_ofNames]
          exact forall_mem_snoc (fun _ => hp.isName) (hmade.isName e.1 e.2 he)
        · intro o ho
          obtain ⟨_, he, rfl⟩ := List.mem_map.mp ho
          obtain ⟨m', hm', rfl⟩ := List.mem_map.mp he
          have hoffer : m'.offer? ∈ ms.map Node.offer? := List.mem_map.mpr ⟨m', hm', rfl⟩
          rw [hms] at hoffer
          obtain ⟨e, he, heq⟩ := List.mem_map.mp hoffer
          obtain ⟨id, hid, hcan, q, hsource⟩ := source_of_mem_merged he
          exact readable_ofNode n hs heq.symm hid hcan hsource
      · simp only [if_true, hdir]
        exact ⟨[], t', rfl, ht', nothing hno, fun o ho => by cases ho⟩

end

/-! ## Side by side or nested -/

section
variable (n : Nat) {s : Store}

theorem cleanTree_memory {ids : List Nat} (hs : ∀ id ∈ ids, (s.memory id).tree.Clean) :
    ∀ f ∈ ids.map Filesystem.memory, f.CleanTree s :=
  List.forall_mem_map.mpr hs

/-- Memory filesystems side by side show what they hold. -/
theorem renders_plain {ids : List Nat} (hs : ∀ id ∈ ids, (s.memory id).tree.Clean) :
    Renders (Store.provider (n + 1)) s.SameTrees s (ids.map .memory) (ids.map .memory) where
  operations t ht o ho := by
    rw [operations, ho]
    refine List.foldl_ext _ _ _ fun acc f hf => congrArg (acc ∪ ·) ?_
    exact (Filesystem.CleanTree.operations _ ((cleanTree_memory hs f hf).congr ht)).trans
      (Filesystem.allows_congr ht f)
  merge t ht path hp := by
    have hgives : ∀ f ∈ ids.map Filesystem.memory,
        Gives (Store.provider (n + 1)) s.SameTrees s f (plainOffers s f) :=
      List.forall_mem_map.mpr fun id hid => gives_memory n (fun _ h => h) (hs id hid)
    rw [cores_merged]
    exact exec_mergeFrom_of_gives hgives hp ht 0 fun e he => by cases he

/-- What each layer gives: the union in their midst what its layers give together, and memory
filesystems what they hold. -/
def nestedOffers (s : Store) (ys : List Nat) (u : Nat) (f : Filesystem) (path : String) :
    List (Offer Entry) :=
  if f = .overlay u then (cores (merged s (ys.map .memory) path)).map (·.2)
  else plainOffers s f path

variable {xs ys zs : List Nat} {u : Nat}

theorem flatMap_nestedOffers (ids : List Nat) (path : String) :
    ((ids.map Filesystem.memory).flatMap fun f => nestedOffers s ys u f path)
      = (ids.map Filesystem.memory).flatMap fun f => plainOffers s f path := by
  refine List.flatMap_congr fun f hf => ?_
  obtain ⟨id, -, rfl⟩ := List.mem_map.mp hf
  exact if_neg (by simp)

theorem gives_nested (hs : ∀ id ∈ xs ++ ys ++ zs, (s.memory id).tree.Clean)
    (hagree : Agree s (ys.map .memory)) :
    ∀ f ∈ xs.map Filesystem.memory ++ .overlay u :: zs.map .memory,
      Gives (Store.provider (n + 2)) (Houses s ys u) s f (nestedOffers s ys u f) := by
  have hmemory (ids : List Nat) (hids : ∀ id ∈ ids, (s.memory id).tree.Clean) :
      ∀ f ∈ ids.map Filesystem.memory,
        Gives (Store.provider (n + 2)) (Houses s ys u) s f (nestedOffers s ys u f) :=
    List.forall_mem_map.mpr fun id hid =>
      gives_memory (n + 1) (fun t ht => ht.base.trees) (hids id hid)
  have hunion : Gives (Store.provider (n + 2)) (Houses s ys u) s (.overlay u)
      (nestedOffers s ys u (.overlay u)) := by
    unfold nestedOffers
    simp only [if_true]
    exact gives_overlay n (cleanTree_memory fun id hid => hs id (by simp [hid])) hagree
  exact List.forall_mem_append.mpr ⟨hmemory xs fun id hid => hs id (by simp [hid]),
    List.forall_mem_cons.mpr ⟨hunion, hmemory zs fun id hid => hs id (by simp [hid])⟩⟩

/-- A union in the midst of memory filesystems may be asked what its layers may be asked. -/
theorem operations_nested (hs : ∀ id ∈ xs ++ ys ++ zs, (s.memory id).tree.Clean) {t : Store}
    (ht : Houses s ys u t) {o : Overlay Filesystem Entry}
    (ho : o.layers = xs.map .memory ++ .overlay u :: zs.map .memory) :
    operations (Store.provider (n + 2)) o t
      = allowed s ((xs ++ ys ++ zs).map .memory) := by
  refine Operations.ext_mem fun op => ?_
  have hu : ((Store.provider (n + 2)).operations (.overlay u) t).covers (.only op)
      = (ys.map Filesystem.memory).any fun f => (f.allows s).covers (.only op) :=
    operations_covers (cleanTree_memory fun id hid => hs id (by simp [hid])) n ht.base op
  have hplain (ids : List Nat) : ((ids.map Filesystem.memory).any fun f =>
      ((Store.provider (n + 2)).operations f t).covers (.only op))
        = (ids.map Filesystem.memory).any fun f => (f.allows s).covers (.only op) := by
    rw [List.any_map, List.any_map]
    refine congrArg ids.any (funext fun id => ?_)
    show (t.memory id).operations.covers _ = (s.memory id).operations.covers _
    rw [memory_congr ht.base.trees]
  rw [← Operations.covers_only, ← Operations.covers_only, ← Bool.eq_iff_iff,
    operations_covers_only, allowed_covers (cleanTree_memory hs), ho, List.any_append,
    List.any_cons, hu, hplain, hplain, List.map_append, List.map_append, List.any_append,
    List.any_append, Bool.or_assoc]

/-- Among memory filesystems, a union over some of them shows what they show. -/
theorem renders_nested (hs : ∀ id ∈ xs ++ ys ++ zs, (s.memory id).tree.Clean)
    (hagree : Agree s (ys.map .memory)) :
    Renders (Store.provider (n + 2)) (Houses s ys u) s ((xs ++ ys ++ zs).map .memory)
      (xs.map .memory ++ .overlay u :: zs.map .memory) where
  operations _ ht _ ho := operations_nested n hs ht ho
  merge t ht path hp := by
    obtain ⟨table, t', he, ht', hcores, hread⟩ :=
      exec_mergeFrom_of_gives (gives_nested n hs hagree) hp ht 0
        fun e (he : e ∈ ([] : List (String × Offer Entry))) => by cases he
    refine ⟨table, t', he, ht', ?_, hread⟩
    rw [hcores, cores_merged, List.flatMap_append, List.flatMap_cons, flatMap_nestedOffers,
      flatMap_nestedOffers, List.map_append, List.map_append, List.flatMap_append,
      List.flatMap_append]
    simp only [nestedOffers, if_true, cores_merged]
    -- what the union in the midst shows first is all that counts of its layers
    rw [withOffers_append, withOffers_append, withOffers_firsts, ← withOffers_append,
      ← withOffers_append, List.append_assoc]
    rfl

/-- A union that was just made has listed nothing. -/
theorem houses_new (s : Store) (ids : List Nat) (policy : Policy) :
    Houses s ids s.overlays.size
      (s.addOverlay { layers := ids.map .memory, policy := policy }).2 := by
  have hnew : (s.addOverlay { layers := ids.map .memory, policy := policy }).2.overlay
      s.overlays.size = { layers := ids.map .memory, policy := policy } := by
    simp [Store.addOverlay, Store.overlay]
  refine ⟨by simp [Store.addOverlay], ?_, fun _ => "", ?_⟩
  · rw [hnew]
    exact ⟨⟨rfl, rfl⟩, rfl, rfl, rfl⟩
  · rw [hnew]
    exact holds_root Nat.zero_lt_one rfl rfl

/-- A new union over memory filesystems and a new union of some of them answers as one over all of
them side by side: it may be asked the same, and for every path it shows the same entry, lists the
same entries in the same order and reads the same bytes, with the same failures.  It is enough that
the filesystems of the inner union agree on what is a file and what a directory. -/
theorem nested_eq_flat (n : Nat) (s : Store) (xs ys zs : List Nat)
    (policy policy' policy'' : Policy)
    (hs : ∀ id ∈ xs ++ ys ++ zs, (s.memory id).tree.Clean)
    (hagree : Agree s (ys.map .memory)) :
    let P := Store.provider (n + 2)
    let made := s.addOverlay { layers := ys.map .memory, policy := policy }
    let nested : Store × Overlay Filesystem Entry :=
      (made.2, { layers := xs.map .memory ++ made.1 :: zs.map .memory, policy := policy' })
    let flat : Store × Overlay Filesystem Entry :=
      (s, { layers := (xs ++ ys ++ zs).map .memory, policy := policy'' })
    operations P nested.2 nested.1 = operations P flat.2 flat.1 ∧ ∀ path,
      ((sightAt P path).exec nested).1 = ((sightAt P path).exec flat).1 ∧
      ((listingAt P path).exec nested).1 = ((listingAt P path).exec flat).1 ∧
      ((bytesAt P path).exec nested).1 = ((bytesAt P path).exec flat).1 := by
  intro P made nested flat
  have hclean := cleanTree_memory hs
  have hnested := renders_nested n hs hagree (u := s.overlays.size)
  have hflat := renders_plain (n + 1) hs
  have hhouses := houses_new s ys policy
  have hplain : s.SameTrees s := .refl s
  have pristine : Pristine P (Houses s ys s.overlays.size) s nested.2.layers nested .root :=
    pristine_root hhouses policy'
  have pristine' : Pristine P s.SameTrees s flat.2.layers flat .root :=
    pristine_root hplain policy''
  refine ⟨?_, fun path => ⟨?_, ?_, ?_⟩⟩
  · rw [hnested.operations _ hhouses nested.2 rfl, hflat.operations _ hplain flat.2 rfl]
  · rw [pristine.sightAt_eq hnested hclean, pristine'.sightAt_eq hflat hclean]
  · rw [pristine.listingAt_eq hnested hclean, pristine'.listingAt_eq hflat hclean]
  · rw [pristine.bytesAt_eq hnested hclean, pristine'.bytesAt_eq hflat hclean]

end

/-- Four memory filesystems: the first two share a directory; the third cannot read and has a file
in its place. -/
def sharedDirectory : Store where
  memories := #[
    { tree := ⟨⟨[("", .directory .epoch), ("a", .directory .epoch), ("a/x", .file [1] .epoch)]⟩⟩ },
    { tree := ⟨⟨[("", .directory .epoch), ("a", .directory .epoch), ("a/x", .file [2] .epoch),
        ("a/y", .file [2] .epoch)]⟩⟩ },
    { operations := .only .write
      tree := ⟨⟨[("", .directory .epoch), ("a", .file [3] .epoch)]⟩⟩ },
    { tree := ⟨⟨[("", .directory .epoch), ("b", .file [4] .epoch)]⟩⟩ }]

theorem agree_sharedDirectory : Agree sharedDirectory ([1, 2].map .memory) := by
  intro f hf g hg hcf hcg p hfile hdir
  have one {h : Filesystem} (hh : h ∈ [1, 2].map Filesystem.memory)
      (hcan : h.canRead sharedDirectory = true) : h = .memory 1 := by
    rcases List.mem_map.mp hh with ⟨id, hid, rfl⟩
    rcases List.mem_cons.mp hid with rfl | hid
    · rfl
    · obtain rfl := List.mem_singleton.mp hid
      exact absurd hcan (by decide)
  rw [one hf hcf] at hfile
  rw [one hg hcg, hfile] at hdir
  cases hdir

theorem nested_eq_flat_sharedDirectory :
    let P := Store.provider 2
    let made := sharedDirectory.addOverlay { layers := [1, 2].map .memory }
    let nested : Store × Overlay Filesystem Entry :=
      (made.2, { layers := [.memory 0, made.1, .memory 3] })
    (∀ id ∈ [0, 1, 2, 3], (sharedDirectory.memory id).tree.Clean) ∧
      Agree sharedDirectory ([1, 2].map .memory) ∧
      ((listingAt P "a").exec nested).1 = .ok (some [("a/x", .file), ("a/y", .file)]) ∧
      ((bytesAt P "a/x").exec nested).1 = .ok (some [1]) := by
  have hs : ∀ id ∈ [0] ++ [1, 2] ++ [3], (sharedDirectory.memory id).tree.Clean := by decide
  have h := (nested_eq_flat 0 sharedDirectory [0] [1, 2] [3] .onDemand .onDemand .onDemand hs
    agree_sharedDirectory).2
  refine ⟨hs, agree_sharedDirectory, ?_, ?_⟩
  · exact (h "a").2.1.trans rfl
  · exact (h "a/x").2.2.trans rfl

end Overlay

end Strata
