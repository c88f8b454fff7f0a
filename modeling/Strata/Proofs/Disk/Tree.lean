/-
# `Strata.Proofs.Disk.Tree` — disks whose items form a tree

`IsTree` says what every disk of the real kind is: an item lies in a directory,
under a name that a directory can hold, and each file has its own number.
`Contained r d d'` says that what led from `d` to `d'` did not touch anything
that is not strictly below `r`; each single change of a disk at such a place is
contained, and so is one contained change after another.
-/
import Strata.Disk.Basic
import Strata.Proofs.Path
import Strata.Table

namespace Strata

/-- The location lies strictly below the other one. -/
def Location.Inside (r loc : Location) : Prop := r <+: loc ∧ loc ≠ r

theorem Location.not_snoc_prefix (dir : Location) (name : String) : ¬dir ++ [name] <+: dir := by
  intro h
  have := h.length_le
  rw [List.length_append, List.length_singleton] at this
  omega

theorem Location.inside_snoc {r dir : Location} (h : r <+: dir) (name : String) :
    Location.Inside r (dir ++ [name]) := by
  refine ⟨h.trans (List.prefix_append dir [name]), ?_⟩
  rintro rfl
  exact Location.not_snoc_prefix dir name h

theorem Location.Inside.below {r loc q : Location} (h : Location.Inside r loc) (hq : loc <+: q) :
    Location.Inside r q := by
  refine ⟨h.1.trans hq, ?_⟩
  rintro rfl
  exact h.2 (hq.eq_of_length_le h.1.length_le)

/-- Everything that the change is about lies strictly below the location. -/
def Change.Inside (r : Location) : Change → Prop
  | .made loc _ => Location.Inside r loc
  | .filled loc _ => Location.Inside r loc
  | .removed loc => Location.Inside r loc
  | .moved source target => Location.Inside r source ∧ Location.Inside r target

namespace Disk

open Location (Inside)

/-- A name that a directory can hold. -/
def IsFileName (name : String) : Prop := Path.IsComponent name ∧ name ≠ "." ∧ name ≠ ".."

instance : DecidablePred IsFileName := fun name =>
  inferInstanceAs (Decidable (Path.IsComponent name ∧ name ≠ "." ∧ name ≠ ".."))

/-- The items of the disk form a tree of directories, and no two files share their contents. -/
structure IsTree (d : Disk) : Prop where
  shown : ∀ i ∈ d.items, d.item? i.1 = some i.2
  within : ∀ {dir name item}, d.item? (dir ++ [name]) = some item →
    IsFileName name ∧ d.item? dir = some .directory
  apart : ∀ {p q n}, d.item? p = some (.file n) → d.item? q = some (.file n) → p = q
  stored : ∀ {p n}, d.item? p = some (.file n) → n < d.contents.length

variable {d d' d'' : Disk} {r dir loc q source target : Location} {name : String} {item : Item}
  {n : Nat}

/-! ## What a tree holds -/

theorem IsTree.directory_above (hd : d.IsTree) (h : d.item? loc = some item)
    (hq : q <+: loc) (hne : q ≠ loc) : d.item? q = some .directory := by
  induction loc using List.reverseRecOn generalizing item with
  | nil => exact absurd (List.prefix_nil.mp hq) hne
  | append_singleton dir name ih =>
    obtain ⟨-, hdir⟩ := hd.within h
    rcases List.prefix_concat_iff.mp hq with rfl | hq
    · exact absurd rfl hne
    · by_cases he : q = dir
      · exact he ▸ hdir
      · exact ih hdir hq he

theorem IsTree.directory_dropLast (hd : d.IsTree) (h : d.item? loc = some .directory) :
    d.item? loc.dropLast = some .directory := by
  by_cases he : loc.dropLast = loc
  · rw [he, h]
  · exact hd.directory_above h (List.dropLast_prefix loc) he

theorem IsTree.isFileName (hd : d.IsTree) (h : d.item? loc = some item) :
    ∀ m ∈ loc, IsFileName m := by
  induction loc using List.reverseRecOn generalizing item with
  | nil => simp
  | append_singleton dir name ih =>
    obtain ⟨hname, hdir⟩ := hd.within h
    exact Path.forall_mem_snoc (ih hdir) hname

/-- Below a place where nothing is there is nothing. -/
theorem IsTree.none_below (hd : d.IsTree) (h : d.item? loc = none) (hq : loc <+: q) :
    d.item? q = none := by
  by_contra hsome
  obtain ⟨item, hitem⟩ := Option.ne_none_iff_exists'.mp hsome
  by_cases he : loc = q
  · rw [he, hitem] at h
    cases h
  · rw [hd.directory_above hitem hq he] at h
    cases h

theorem ne_nil_of_item? (h : d.item? loc = none) : loc ≠ [] := by
  rintro rfl
  cases h

theorem mem_items (h : d.item? loc = some item) (hne : loc ≠ []) : (loc, item) ∈ d.items := by
  rw [item?, if_neg (by simpa using hne), List.lookup_eq_some_iff] at h
  obtain ⟨before, after, he, -⟩ := h
  simp [he]

/-- The number of a file. -/
def number? : Item → Option Nat
  | .file n => some n
  | _ => none

/-- Whether a disk is a tree can be told from its items. -/
theorem isTree_of_items (hshown : ∀ i ∈ d.items, d.item? i.1 = some i.2)
    (hwithin : ∀ i ∈ d.items, ∀ name ∈ i.1.getLast?,
      IsFileName name ∧ d.item? i.1.dropLast = some .directory)
    (hfiles : ∀ i ∈ d.items, ∀ n ∈ number? i.2, n < d.contents.length ∧
      ∀ j ∈ d.items, number? j.2 = some n → j.1 = i.1) : d.IsTree := by
  have hmem {loc : Location} {n : Nat} (h : d.item? loc = some (.file n)) :
      (loc, .file n) ∈ d.items := by
    refine mem_items h ?_
    rintro rfl
    cases h
  refine ⟨hshown, fun {dir name item} h => ?_, fun {p q n} hp hq => ?_, fun {p n} hp => ?_⟩
  · simpa using hwithin _ (mem_items h (by simp)) name (by simp)
  · exact (hfiles _ (hmem hq) n rfl).2 _ (hmem hp) rfl
  · exact (hfiles _ (hmem hp) n rfl).1

/-- A file is where its number says. -/
theorem IsTree.place?_eq (hd : d.IsTree) (h : d.item? loc = some (.file n)) :
    d.place? n = some loc := by
  have hne : loc ≠ [] := by
    rintro rfl
    cases h
  have hsome : (d.items.find? fun i => i.2 == .file n).isSome := by
    rw [List.find?_isSome]
    exact ⟨_, mem_items h hne, by simp⟩
  obtain ⟨i, hi⟩ := Option.isSome_iff_exists.mp hsome
  have hfile : i.2 = .file n := by simpa using List.find?_some hi
  have hshown := hd.shown i (List.mem_of_find?_eq_some hi)
  rw [hfile] at hshown
  simp [place?, hi, hd.apart hshown h]

/-! ## Items after a change -/

theorem item?_add_of_none (h : d.item? loc = none) (item : Item) (q : Location) :
    (d.add loc item).item? q = if q = loc then some item else d.item? q := by
  have hne := ne_nil_of_item? h
  exact item?_add (by rwa [item?, if_neg (by simpa using hne)] at h) hne

theorem item?_addFile (h : d.item? loc = none) (data : Bytes) (q : Location) :
    (d.addFile loc data).item? q =
      if q = loc then some (.file d.contents.length) else d.item? q :=
  item?_add_of_none (d := { d with contents := d.contents ++ [[]] }) h _ q

theorem item?_removeBelow (hne : loc ≠ []) :
    (d.removeBelow loc).item? q = if loc <+: q then none else d.item? q := by
  by_cases hq : q = []
  · subst hq
    simp [item?, hne]
  · simp only [item?, List.isEmpty_iff, hq, if_false, removeBelow,
      Table.lookup_filter d.items fun p => !loc.isPrefixOf p, Bool.not_eq_true',
      ← Bool.not_eq_true, List.isPrefixOf_iff_prefix, ite_not]

/-- Where one key alone is renamed to `q`, what was at this key is at `q`. -/
theorem lookup_map_key {items : List (Location × Item)} {rename : Location → Location} {p : Location}
    (h : ∀ i ∈ items, rename i.1 = q ↔ i.1 = p) :
    (items.map fun i => (rename i.1, i.2)).lookup q = items.lookup p := by
  induction items with
  | nil => rfl
  | cons i items ih =>
    obtain ⟨k, item⟩ := i
    have hk : q = rename k ↔ p = k := by simpa only [eq_comm] using h (k, item) List.mem_cons_self
    rw [List.map_cons, Table.lookup_cons, Table.lookup_cons,
      ih fun i hi => h i (List.mem_cons_of_mem _ hi)]
    simp only [hk]

theorem lookup_map_key_none {items : List (Location × Item)} {rename : Location → Location}
    (h : ∀ i ∈ items, rename i.1 ≠ q) :
    (items.map fun i => (rename i.1, i.2)).lookup q = none := by
  rw [List.lookup_eq_none_iff]
  intro i hi
  obtain ⟨j, hj, rfl⟩ := List.mem_map.mp hi
  simpa using (h j hj).symm

/-- No item of the disk is at a place where nothing is, or below it. -/
theorem IsTree.not_below_of_mem (hd : d.IsTree) (hnone : d.item? target = none)
    {i : Location × Item} (hi : i ∈ d.items) : ¬target <+: i.1 := by
  intro h
  have := hd.none_below hnone h
  rw [hd.shown i hi] at this
  cases this

theorem IsTree.item?_moveBelow (hd : d.IsTree) (hs : source ≠ []) (hnone : d.item? target = none) :
    (d.moveBelow source target).item? q =
      if target <+: q then d.item? (source ++ q.drop target.length)
      else if source <+: q then none
      else d.item? q := by
  by_cases hq : q = []
  · subst hq
    simp [item?, hs, ne_nil_of_item? hnone]
  · let rename (p : Location) := if source <+: p then target ++ p.drop source.length else p
    have hitems : (d.moveBelow source target).items = d.items.map fun i => (rename i.1, i.2) := by
      refine List.map_congr_left fun i _ => ?_
      simp only [rename, List.isPrefixOf_iff_prefix]
      split <;> rfl
    simp only [item?, List.isEmpty_iff, hq, if_false, List.append_eq_nil_iff, hs, false_and, hitems]
    by_cases htq : target <+: q
    · obtain ⟨rest, rfl⟩ := htq
      rw [if_pos (List.prefix_append _ _), List.drop_left]
      refine lookup_map_key fun i hi => ?_
      by_cases hsp : source <+: i.1
      · obtain ⟨rest', he⟩ := hsp
        simp [rename, ← he]
      · have hne : i.1 ≠ target ++ rest := fun he =>
          hd.not_below_of_mem hnone hi ⟨rest, he.symm⟩
        have hne' : i.1 ≠ source ++ rest := fun he => hsp ⟨rest, he.symm⟩
        simp [rename, hsp, hne, hne']
    · rw [if_neg htq]
      split
      · rename_i hsq
        refine lookup_map_key_none fun i hi he => ?_
        by_cases hsp : source <+: i.1
        · exact htq ⟨_, by simpa [rename, hsp] using he⟩
        · rw [← he] at hsq
          simp [rename, hsp] at hsq
      · rename_i hsq
        refine lookup_map_key fun i hi => ?_
        by_cases hsp : source <+: i.1
        · have hne : rename i.1 ≠ q := by
            rintro rfl
            exact htq (by simp [rename, hsp])
          exact iff_of_false hne fun he => hsq (he ▸ hsp)
        · simp [rename, hsp]

/-! ## Contained changes -/

/-- What led from `d` to `d'` left everything alone that is not strictly below `r`. -/
structure Contained (r : Location) (d d' : Disk) : Prop where
  tree : d'.IsTree
  item : ∀ q, ¬Inside r q → d'.item? q = d.item? q
  contents : ∀ q n, ¬Inside r q → d.item? q = some (.file n) → d'.contentsOf n = d.contentsOf n
  changes : ∃ done, d'.changes = done ++ d.changes ∧ ∀ c ∈ done, c.Inside r

theorem Contained.refl (hd : d.IsTree) : Contained r d d :=
  ⟨hd, fun _ _ => rfl, fun _ _ _ _ => rfl, [], rfl, by simp⟩

theorem Contained.trans (h : Contained r d d') (h' : Contained r d' d'') : Contained r d d'' where
  tree := h'.tree
  item q hq := (h'.item q hq).trans (h.item q hq)
  contents q n hq hn :=
    (h'.contents q n hq (by rw [h.item q hq, hn])).trans (h.contents q n hq hn)
  changes := by
    obtain ⟨done, he, hdone⟩ := h.changes
    obtain ⟨done', he', hdone'⟩ := h'.changes
    refine ⟨done' ++ done, by rw [he', he, List.append_assoc], fun c hc => ?_⟩
    exact (List.mem_append.mp hc).elim (hdone' c) (hdone c)

/-- A new item in a directory; a file comes with a number of its own. -/
theorem IsTree.add (hd : d.IsTree) (item : Item) (hdir : d.item? dir = some .directory)
    (hname : IsFileName name) (hnone : d.item? (dir ++ [name]) = none)
    (hfile : ∀ n, item = .file n → n < d.contents.length ∧ ∀ p, d.item? p ≠ some (.file n)) :
    (d.add (dir ++ [name]) item).IsTree := by
  have hitem (q : Location) := item?_add_of_none hnone item q
  have hold {q : Location} {x : Item} (h : d.item? q = some x) :
      (d.add (dir ++ [name]) item).item? q = some x := by
    rw [hitem, if_neg, h]
    rintro rfl
    rw [hnone] at h
    cases h
  refine ⟨fun i hi => ?_, fun {dir' name' x} hx => ?_, fun {p q n} hp hq => ?_, fun {p n} hp => ?_⟩
  · rcases List.mem_append.mp hi with hi | hi
    · exact hold (hd.shown i hi)
    · rw [List.mem_singleton.mp hi, hitem, if_pos rfl]
  · rw [hitem] at hx
    split at hx
    · rename_i he
      obtain ⟨rfl, hn⟩ := List.append_inj' he rfl
      cases hn
      exact ⟨hname, hold hdir⟩
    · exact ⟨(hd.within hx).1, hold (hd.within hx).2⟩
  · rw [hitem] at hp hq
    split at hp <;> split at hq
    · rename_i hp' hq'
      rw [hp', hq']
    · exact absurd hq ((hfile n (Option.some.inj hp)).2 q)
    · exact absurd hp ((hfile n (Option.some.inj hq)).2 p)
    · exact hd.apart hp hq
  · rw [hitem] at hp
    split at hp
    · exact (hfile n (Option.some.inj hp)).1
    · exact hd.stored hp

/-- A new item at a place in a directory where nothing was. -/
theorem IsTree.contained_add (hd : d.IsTree) (item : Item) (hdir : d.item? dir = some .directory)
    (hname : IsFileName name) (hnone : d.item? (dir ++ [name]) = none) (hr : r <+: dir)
    (hfile : ∀ n, item = .file n → n < d.contents.length ∧ ∀ p, d.item? p ≠ some (.file n)) :
    Contained r d (d.add (dir ++ [name]) item) := by
  refine ⟨hd.add item hdir hname hnone hfile, fun q hq => ?_, fun q n hq _ => rfl,
    [.made (dir ++ [name]) item], rfl, ?_⟩
  · rw [item?_add_of_none hnone, if_neg]
    rintro rfl
    exact hq (Location.inside_snoc hr name)
  · simpa [Change.Inside] using Location.inside_snoc hr name

/-- Other contents of a file. -/
theorem IsTree.contained_setContents (hd : d.IsTree) (hfile : d.item? loc = some (.file n))
    (hr : Inside r loc) (data : Bytes) : Contained r d (d.setContents n data) := by
  have hchanges : (d.setContents n data).changes = .filled loc data :: d.changes := by
    rw [setContents, hd.place?_eq hfile]
  refine ⟨⟨hd.shown, hd.within, hd.apart, fun {p n} hp => ?_⟩, fun q _ => rfl, fun q m hq hm => ?_,
    [.filled loc data], hchanges, ?_⟩
  · simpa [setContents] using hd.stored hp
  · have hne : n ≠ m := by
      rintro rfl
      exact hq (hd.apart hfile hm ▸ hr)
    simp [contentsOf, setContents, List.getElem?_set_ne hne]
  · simpa [Change.Inside] using hr

/-- Room for the contents of one more file. -/
theorem IsTree.contained_room (hd : d.IsTree) (r : Location) :
    Contained r d { d with contents := d.contents ++ [[]] } := by
  refine ⟨⟨hd.shown, hd.within, hd.apart, fun {p n} hp => ?_⟩, fun q _ => rfl, fun q n _ hn => ?_,
    [], rfl, by simp⟩
  · have := hd.stored hp
    simp only [List.length_append]
    omega
  · simp [contentsOf, List.getElem?_append_left (hd.stored hn)]

/-- A new file at a place in a directory where nothing was. -/
theorem IsTree.contained_addFile (hd : d.IsTree) (hdir : d.item? dir = some .directory)
    (hname : IsFileName name) (hnone : d.item? (dir ++ [name]) = none) (hr : r <+: dir)
    (data : Bytes) : Contained r d (d.addFile (dir ++ [name]) data) := by
  have hroom := hd.contained_room r
  have hadd := hroom.tree.contained_add (.file d.contents.length) hdir hname hnone hr ?_
  · exact (hroom.trans hadd).trans (hadd.tree.contained_setContents
      ((item?_addFile hnone data _).trans (if_pos rfl)) (Location.inside_snoc hr name) data)
  · rintro n ⟨⟩
    exact ⟨by simp, fun p hp => absurd (hd.stored hp) (by simp)⟩

theorem IsTree.removeBelow (hd : d.IsTree) (hne : loc ≠ []) : (d.removeBelow loc).IsTree := by
  have hitem (q : Location) := item?_removeBelow (d := d) (q := q) hne
  have hold {q : Location} {x : Item} (h : (d.removeBelow loc).item? q = some x) :
      ¬loc <+: q ∧ d.item? q = some x := by
    rw [hitem] at h
    split at h
    · cases h
    · exact ⟨‹_›, h⟩
  refine ⟨fun i hi => ?_, fun {dir name x} hx => ?_, fun hp hq => hd.apart (hold hp).2 (hold hq).2,
    fun hp => hd.stored (hold hp).2⟩
  · obtain ⟨hmem, hkept⟩ := List.mem_filter.mp hi
    rw [Bool.not_eq_true', ← Bool.not_eq_true, List.isPrefixOf_iff_prefix] at hkept
    rw [hitem, if_neg hkept, hd.shown i hmem]
  · obtain ⟨hout, hx⟩ := hold hx
    refine ⟨(hd.within hx).1, ?_⟩
    rw [hitem, if_neg fun h => hout (h.trans (List.prefix_append _ _)), (hd.within hx).2]

/-- Nothing more at a place, nor below it. -/
theorem IsTree.contained_removeBelow (hd : d.IsTree) (hr : Inside r loc) :
    Contained r d (d.removeBelow loc) := by
  have hne : loc ≠ [] := by
    rintro rfl
    exact hr.2 (List.prefix_nil.mp hr.1).symm
  refine ⟨hd.removeBelow hne, fun q hq => ?_, fun _ _ _ _ => rfl, [.removed loc], rfl, ?_⟩
  · rw [item?_removeBelow hne, if_neg fun h => hq (hr.below h)]
  · simpa [Change.Inside] using hr

/-- What is at a place after a move came with what was moved, or was there before. -/
theorem IsTree.moveBelow_cases (hd : d.IsTree) (hs : source ≠ []) (hnone : d.item? target = none)
    (h : (d.moveBelow source target).item? q = some item) :
    (∃ rest, q = target ++ rest ∧ d.item? (source ++ rest) = some item) ∨
      ¬target <+: q ∧ ¬source <+: q ∧ d.item? q = some item := by
  rw [hd.item?_moveBelow hs hnone] at h
  split at h
  · rename_i htq
    obtain ⟨rest, rfl⟩ := htq
    rw [List.drop_left] at h
    exact .inl ⟨rest, rfl, h⟩
  · split at h
    · cases h
    · exact .inr ⟨‹_›, ‹_›, h⟩

/-- What is moved is in a directory again, and so is all below it. -/
theorem IsTree.within_moveBelow (hd : d.IsTree) (hs : source ≠ [])
    (hdir : d.item? dir = some .directory) (hname : IsFileName name)
    (hnone : d.item? (dir ++ [name]) = none) (hout : ¬source <+: dir ++ [name])
    {dir' : Location} {name' : String}
    (h : (d.moveBelow source (dir ++ [name])).item? (dir' ++ [name']) = some item) :
    IsFileName name' ∧ (d.moveBelow source (dir ++ [name])).item? dir' = some .directory := by
  have hitem (q : Location) := hd.item?_moveBelow (q := q) hs hnone
  rcases hd.moveBelow_cases hs hnone h with ⟨rest, he, hx⟩ | ⟨htq, hsq, hx⟩
  · rcases List.eq_nil_or_concat' rest with rfl | ⟨rest, last, rfl⟩
    · -- the place that it was moved to
      rw [List.append_nil] at he
      obtain ⟨rfl, hn⟩ := List.append_inj' he rfl
      cases hn
      refine ⟨hname, ?_⟩
      rw [hitem, if_neg (Location.not_snoc_prefix _ _),
        if_neg fun h => hout (h.trans (List.prefix_append _ _)), hdir]
    · -- a place below it
      rw [← List.append_assoc] at he hx
      obtain ⟨rfl, hn⟩ := List.append_inj' he rfl
      cases hn
      refine ⟨(hd.within hx).1, ?_⟩
      rw [hitem, if_pos (List.prefix_append _ _), List.drop_left, (hd.within hx).2]
  · refine ⟨(hd.within hx).1, ?_⟩
    rw [hitem, if_neg fun h => htq (h.trans (List.prefix_append _ _)),
      if_neg fun h => hsq (h.trans (List.prefix_append _ _)), (hd.within hx).2]

theorem IsTree.moveBelow (hd : d.IsTree) (hs : source ≠ [])
    (hdir : d.item? dir = some .directory) (hname : IsFileName name)
    (hnone : d.item? (dir ++ [name]) = none) (hout : ¬source <+: dir ++ [name]) :
    (d.moveBelow source (dir ++ [name])).IsTree where
  shown i hi := by
    have hitem (q : Location) := hd.item?_moveBelow (q := q) hs hnone
    obtain ⟨j, hj, rfl⟩ := List.mem_map.mp hi
    have hshown := hd.shown j hj
    split
    · rename_i hsj
      obtain ⟨rest, hrest⟩ := List.isPrefixOf_iff_prefix.mp hsj
      rw [← hrest, List.drop_left, hitem, if_pos (List.prefix_append _ _), List.drop_left, hrest,
        hshown]
    · rename_i hsj
      rw [List.isPrefixOf_iff_prefix] at hsj
      rw [hitem, if_neg (hd.not_below_of_mem hnone hj), if_neg hsj, hshown]
  within h := hd.within_moveBelow hs hdir hname hnone hout h
  apart hp hq := by
    rcases hd.moveBelow_cases hs hnone hp with ⟨rest, rfl, hp'⟩ | ⟨htp, hsp, hp'⟩ <;>
      rcases hd.moveBelow_cases hs hnone hq with ⟨rest', rfl, hq'⟩ | ⟨htq, hsq, hq'⟩
    · rw [List.append_cancel_left (hd.apart hp' hq')]
    · exact absurd ⟨rest, hd.apart hp' hq'⟩ hsq
    · exact absurd ⟨rest', hd.apart hq' hp'⟩ hsp
    · exact hd.apart hp' hq'
  stored hp := by
    rcases hd.moveBelow_cases hs hnone hp with ⟨rest, -, h⟩ | ⟨-, -, h⟩ <;> exact hd.stored h

/-- An item and all below it at a place in a directory where nothing was. -/
theorem IsTree.contained_moveBelow (hd : d.IsTree) (hs : Inside r source)
    (hdir : d.item? dir = some .directory) (hname : IsFileName name)
    (hnone : d.item? (dir ++ [name]) = none) (hr : r <+: dir) (hout : ¬source <+: dir ++ [name]) :
    Contained r d (d.moveBelow source (dir ++ [name])) := by
  have hne : source ≠ [] := by
    rintro rfl
    exact hout List.nil_prefix
  refine ⟨hd.moveBelow hne hdir hname hnone hout, fun q hq => ?_, fun _ _ _ _ => rfl,
    [.moved source (dir ++ [name])], rfl, ?_⟩
  · rw [hd.item?_moveBelow hne hnone, if_neg fun h => hq ((Location.inside_snoc hr name).below h),
      if_neg fun h => hq (hs.below h)]
  · simpa [Change.Inside] using ⟨hs, Location.inside_snoc hr name⟩

/-- An item and all below it in the place of what is at a name in another directory. -/
theorem IsTree.contained_replace (hd : d.IsTree) (hs : Inside r source)
    (hdir : d.item? dir = some .directory) (hname : IsFileName name) (hr : r <+: dir)
    (hout : ¬source <+: dir ++ [name]) :
    Contained r d ((if (d.item? (dir ++ [name])).isSome then d.removeBelow (dir ++ [name])
      else d).moveBelow source (dir ++ [name])) := by
  by_cases hsome : (d.item? (dir ++ [name])).isSome
  · rw [if_pos hsome]
    have hremoved := hd.contained_removeBelow (Location.inside_snoc hr name)
    have hitem (q : Location) := item?_removeBelow (d := d) (q := q)
      (List.append_ne_nil_of_right_ne_nil dir (List.cons_ne_nil name []))
    refine hremoved.trans (hremoved.tree.contained_moveBelow hs ?_ hname ?_ hr hout)
    · rw [hitem, if_neg (Location.not_snoc_prefix _ _), hdir]
    · rw [hitem, if_pos List.prefix_rfl]
  · rw [if_neg hsome]
    exact hd.contained_moveBelow hs hdir hname (by simpa using hsome) hr hout

end Disk

end Strata
