/-
# `Strata.Proofs.Overlay.FoldedCreation` — making an entry where case is folded

A union looks names up in lower case, but it makes an entry under the very name that
it is asked for.  What is new in the first layer are parts of the path of that name, so
a folded name leads to such a part or to what it led to (`Planted.offers_cases`).  Below
a part that is spelled as it was shown, paths lead on as before, unless the part is a
file now (`create_keeps_paths`); a layer has a second spelling of a name exactly if the
part was new to it in that spelling only (`Planted.distinctFolded_iff`).
-/
import Strata.Proofs.Overlay.Folding
import Strata.Proofs.Overlay.New

namespace Strata

open Strata.Action Strata.Path

namespace Overlay

variable {s : Store} {layers : List Filesystem} {path : String} {ms names : List String}

/-- The layer lacks a part of the path that it has in another spelling. -/
def Respelled (s : Store) (f : Filesystem) (ns : List String) : Prop :=
  ∃ ms x y, ms ++ [x] <+: ns ∧ holds s (ofNames (ms ++ [x])) f = false ∧
    IsName y ∧ lower y = lower x ∧ holds s (ofNames (ms ++ [y])) f = true

/-- What the union shows under the folded names, if anything, has just these names. -/
def ShownAs (s : Store) (layers : List Filesystem) (ms : List String) : Prop :=
  ∀ o, Shown s layers (ms.map lower) (some o) → o.path = ofNames ms

/-- The names, when folded, lead to a place above the one that the others lead to. -/
def Above (ms names : List String) : Prop := ms.map lower <+: names ∧ ms.map lower ≠ names

instance (ms names : List String) : Decidable (Above ms names) :=
  inferInstanceAs (Decidable (_ ∧ _))

/-- The union shows the parts of a path above a place, where it shows them, as they are spelled. -/
def SpelledAbove (s : Store) (layers : List Filesystem) (ns names : List String) : Prop :=
  ∀ ms, ms ≠ [] → ms <+: ns → Above ms names → ShownAs s layers ms

/-- What a memory filesystem offers at a path if it is the first layer. -/
def firstOffer (id : Nat) (ms : List String) : Offer Entry :=
  ⟨ofNames ms, .memory id (ofNames ms), 0⟩

/-- The place that names led to, or the part of a path that has these names, in the first layer. -/
def Supplanted (id : Nat) (ns names : List String) (place place' : Option (Offer Entry)) : Prop :=
  place' = place ∨ ∃ ms, ms ≠ [] ∧ ms <+: ns ∧ ms.map lower = names ∧
    place' = some (firstOffer id ms)

theorem Above.append (h : Above ms names) (more : List String) : Above ms (names ++ more) := by
  refine ⟨h.1.trans (List.prefix_append _ _), fun he => h.2 (h.1.eq_of_length_le ?_)⟩
  rw [he, List.length_append]
  exact Nat.le_add_right _ _

theorem SpelledAbove.of_append {ns more : List String}
    (h : SpelledAbove s layers ns (names ++ more)) : SpelledAbove s layers ns names :=
  fun ms h0 hms habove => h ms h0 hms (habove.append more)

theorem Shown.exists_offer {place : Option (Offer Entry)} (h : Shown s layers names place)
    (h0 : names ≠ []) : ∃ o, place = some o := by
  cases h with
  | root => exact absurd rfl h0
  | beneath => exact ⟨_, rfl⟩

/-- What is listed beside an entry under the same folded name. -/
theorem snoc_of_sibling {x q : String} (hm : ∀ m ∈ ms ++ [x], IsName m) (hq : Path.Clean q)
    (hparent : parentOrRoot q = parentOrRoot (ofNames (ms ++ [x])))
    (hlisted : listedName true q = listedName true (ofNames (ms ++ [x]))) :
    ∃ y, IsName y ∧ lower y = lower x ∧ q = ofNames (ms ++ [y]) := by
  have hx : IsName x := hm x (by simp)
  have hms : ∀ m ∈ ms, IsName m := fun m h => hm m (List.mem_append_left _ h)
  rw [listedName_fold hx] at hlisted
  rw [parentOrRoot_ofNames_snoc hx.1] at hparent
  obtain ⟨qs, hqs, rfl⟩ : ∃ qs, (∀ n ∈ qs, IsName n) ∧ q = ofNames qs :=
    ⟨components q, fun _ => hq.isName, hq.ofNames_components.symm⟩
  rcases List.eq_nil_or_concat' qs with rfl | ⟨qs, y, rfl⟩
  · -- the root has no name
    have hroot : listedName true (ofNames []) = "" := by decide +kernel
    exact absurd (hlisted.symm.trans hroot) hx.1.lower.1
  · have hy : IsName y := hqs y (by simp)
    have hqs' : ∀ n ∈ qs, IsName n := fun n h => hqs n (List.mem_append_left _ h)
    rw [listedName_fold hy] at hlisted
    rw [parentOrRoot_ofNames_snoc hy.1] at hparent
    obtain rfl := ofNames_injective (fun n h => (hqs' n h).1) (fun m h => (hms m h).1) hparent
    exact ⟨y, hy, hlisted, rfl⟩

/-- What the first layer has under a folded name it offers. -/
theorem Offers.layer_eq_zero {c : String} {o : Offer Entry} {f : Filesystem}
    (h : Offers s layers path c o) (hat : layers[0]? = some f) (hf : HasFolded s path c f) :
    o.layer = 0 := by
  by_contra hlayer
  exact h.first 0 f (Nat.pos_of_ne_zero hlayer) hat hf

theorem getElem?_zero_of_head? {ids : List Nat} {id : Nat} (h : ids.head? = some id) :
    (ids.map Filesystem.memory)[0]? = some (.memory id) := by
  rw [← List.head?_eq_getElem?, List.head?_map, h]
  rfl

theorem HasFolded.mono {s' : Store} {c : String} {f : Filesystem}
    (h : ∀ q, holds s q f = true → holds s' q f = true) (hf : HasFolded s path c f) :
    HasFolded s' path c f := by
  obtain ⟨x, hx, hkey, hholds⟩ := hf
  exact ⟨x, hx, hkey, h _ hholds⟩

end Overlay

/-! ## A new node among folded names -/

namespace Store.Planted

open Overlay

variable {s s' : Store} {ids : List Nat} {id : Nat} {kind : Kind} {ns : List String}
  (h : s.Planted s' id kind ns) (hn : ∀ n ∈ ns, IsName n) (hk : kind.isCreatable = true)
  (hread : Filesystem.canRead s (.memory id) = true)
include h hn

/-- Nothing stands beside a new part of the path under the same folded name, unless the layer had
the part in another spelling. -/
theorem eq_of_sibling {p q : String} (hp : holds s' p (.memory id) = true)
    (hmiss : holds s p (.memory id) = false) (hq : holds s' q (.memory id) = true)
    (hparent : parentOrRoot q = parentOrRoot p) (hlisted : listedName true q = listedName true p)
    (hsame : ¬ Respelled s (.memory id) ns) : p = q := by
  rcases h.holds_cases hp with hold | ⟨-, pm, h0, hpm, rfl⟩
  · rw [hold] at hmiss
    cases hmiss
  · obtain ⟨ms, x, rfl⟩ := (List.eq_nil_or_concat' pm).resolve_left h0
    obtain ⟨y, hy, hkey, rfl⟩ := snoc_of_sibling (fun m hm => hn m (hpm.subset hm))
      (clean_of_holds (f := .memory id) h.tree.clean hq) hparent hlisted
    rcases h.holds_cases hq with hold | ⟨-, qm, -, hqm, heq⟩
    · exact absurd ⟨ms, x, y, hpm, hmiss, hy, hkey, hold⟩ hsame
    · have hms : ∀ m ∈ ms ++ [y], IsComponent m :=
        forall_mem_snoc (fun m hm => (hn m (hpm.subset (List.mem_append_left _ hm))).1) hy.1
      have hnames : ms ++ [y] = qm :=
        ofNames_injective hms (fun m hm => (hn m (hqm.subset hm)).1) heq
      have hlen : (ms ++ [x]).length = (ms ++ [y]).length := by simp
      rw [List.prefix_of_prefix_length_le hpm (hnames ▸ hqm) hlen.le |>.eq_of_length hlen]

include hk hread in
/-- A layer has two spellings of a name afterwards exactly if a part of the path was new to it that
it had in another spelling. -/
theorem distinctFolded_iff (hd : DistinctFolded s (.memory id)) :
    DistinctFolded s' (.memory id) ↔ ¬ Respelled s (.memory id) ns := by
  constructor
  · rintro hd' ⟨ms, x, y, hms, hmiss, hy, hkey, hold⟩
    have hx : IsName x := hn x (hms.subset (by simp))
    have hnew : holds s' (ofNames (ms ++ [x])) (.memory id) = true :=
      (h.holds_iff hms hk id).mpr (.inr ⟨hread, rfl⟩)
    have hsame : ofNames (ms ++ [x]) = ofNames (ms ++ [y]) := by
      refine hd' _ _ hnew (h.holds_kept hold) ?_ ?_
      · rw [parentOrRoot_ofNames_snoc hx.1, parentOrRoot_ofNames_snoc hy.1]
      · rw [listedName_fold hx, listedName_fold hy, hkey]
    rw [hsame, hold] at hmiss
    cases hmiss
  · intro hsame p q hp hq hparent hlisted
    by_cases hpold : holds s p (.memory id) = true
    · by_cases hqold : holds s q (.memory id) = true
      · exact hd p q hpold hqold hparent hlisted
      · exact (h.eq_of_sibling hn hq (eq_false_of_ne_true hqold) hp hparent hlisted
          hsame).symm
    · exact h.eq_of_sibling hn hp (eq_false_of_ne_true hpold) hq hparent.symm
        hlisted.symm hsame

include hk hread in
/-- If no part of the path was new in another spelling, no layer has two spellings of a name. -/
theorem distinctFolded (hd : ∀ j ∈ ids, DistinctFolded s (.memory j))
    (hsame : ¬ Respelled s (.memory id) ns) : ∀ j ∈ ids, DistinctFolded s' (.memory j) := by
  intro j hj
  by_cases hid : j = id
  · subst hid
    exact (h.distinctFolded_iff hn hk hread (hd j hj)).mpr hsame
  · have hold {q : String} (hq : holds s' q (.memory j) = true) : holds s q (.memory j) = true :=
      (h.holds_cases hq).resolve_right fun hnew => hid hnew.1
    exact fun p q hp hq => hd j hj p q (hold hp) (hold hq)

omit hn in
/-- What was shown as a directory is one still. -/
theorem isDirectory_kept {names : List String} {place : Option (Offer Entry)}
    (hshown : Shown s (ids.map .memory) names place)
    (hdir : (kindAt s place).isDirectory = true) : (kindAt s' place).isDirectory = true := by
  cases hshown with
  | root => rfl
  | beneath _ _ hoffers =>
      obtain ⟨f, x, hat, -, -, -, heq⟩ := hoffers.here
      obtain ⟨j, -, rfl⟩ := List.mem_map.mp (List.mem_of_getElem? hat)
      rw [kindAt, congrArg Offer.source heq] at hdir ⊢
      have hkind := h.kind_kept j (q := join (pathAt _) x) fun hmiss => by
        rw [show (Filesystem.entryAt (.memory j) _ : Entry).kind s = .unknown from hmiss] at hdir
        cases hdir
      rw [show (Filesystem.entryAt (.memory j) _ : Entry).kind s' = _ from hkind]
      exact hdir

section
variable (hhead : ids.head? = some id) (hs : ∀ j ∈ ids, (s.memory j).tree.Clean)
  (hd : ∀ j ∈ ids, DistinctFolded s (.memory j))
include hhead

include hd in
/-- A name leads to what it led to, or to a part of the path that is new in the first layer. -/
theorem offers_cases {path c : String} (hp : Path.Clean path) {o o' : Offer Entry}
    (ho : Offers s (ids.map .memory) path c o) (ho' : Offers s' (ids.map .memory) path c o') :
    o' = o ∨ ∃ x, lower x = c ∧ components path ++ [x] <+: ns ∧
      o' = firstOffer id (components path ++ [x]) := by
  obtain ⟨f, x, hat, hx, hkey, hheld, heq⟩ := ho'.here
  obtain ⟨j, -, rfl⟩ := List.mem_map.mp (List.mem_of_getElem? hat)
  rcases h.holds_cases hheld with hold | ⟨rfl, ms, -, hms, hjoin⟩
  · have hbefore : Offers s (ids.map .memory) path c o' := by
      refine ⟨⟨_, x, hat, hx, hkey, hold, heq⟩, fun i g hi hg hfolded => ?_⟩
      obtain ⟨k, -, rfl⟩ := List.mem_map.mp (List.mem_of_getElem? hg)
      exact ho'.first i _ hi hg (hfolded.mono fun _ => h.holds_kept)
    exact .inl (hbefore.eq (List.forall_mem_map.mpr hd) hp ho)
  · have hlayer := ho'.layer_eq_zero (getElem?_zero_of_head? hhead) ⟨x, hx, hkey, hheld⟩
    rw [hp.join_eq_snoc hx] at hjoin heq
    obtain rfl : components path ++ [x] = ms :=
      ofNames_injective (forall_mem_snoc (fun _ => isComponent_of_mem) hx.1)
        (fun m hm => (hn m (hms.subset hm)).1) hjoin
    refine .inr ⟨x, hkey, hms, ?_⟩
    rw [heq, hlayer]
    rfl

omit hn in
/-- What is shown at the path itself is the entry that was made. -/
theorem kindAt_target (hk : kind.isCreatable = true)
    (hread : Filesystem.canRead s (.memory id) = true) {names : List String} {o : Offer Entry}
    (hshown : Shown s' (ids.map .memory) names (some o)) (hpath : o.path = ofNames ns) :
    kindAt s' (some o) = kind := by
  cases hshown with
  | @beneath _ _ above _ _ _ hoffers =>
      obtain ⟨f, x, hat, hx, hkey, -, heq⟩ := hoffers.here
      have hjoin : join (pathAt above) x = ofNames ns := (congrArg Offer.path heq).symm.trans hpath
      have hheld : holds s' (join (pathAt above) x) (.memory id) = true := by
        rw [hjoin]
        exact (h.holds_iff List.prefix_rfl hk id).mpr (.inr ⟨hread, rfl⟩)
      have hzero := getElem?_zero_of_head? hhead
      rw [hoffers.layer_eq_zero hzero ⟨x, hx, hkey, hheld⟩] at hat
      obtain rfl := Option.some.inj (hat.symm.trans hzero)
      rw [kindAt, congrArg Offer.source heq, hjoin]
      exact h.tree.target

omit hn hhead in
/-- A directory that was shown is the same directory afterwards, unless it is spelled otherwise now,
or a file. -/
theorem directory_kept (hk : kind.isCreatable = true) {names : List String} {c : String}
    {place place' : Option (Offer Entry)} (hshown : Shown s (ids.map .memory) names place)
    (hdir : (kindAt s place).isDirectory = true) (hplace : Supplanted id ns names place place')
    (hspelled : SpelledAbove s (ids.map .memory) ns (names ++ [c]))
    (hfile : ¬ (kind = .file ∧ Above ns (names ++ [c]))) :
    pathAt place' = pathAt place ∧ (kindAt s' place').isDirectory = true := by
  rcases hplace with rfl | ⟨ms, h0, hms, rfl, rfl⟩
  · exact ⟨rfl, h.isDirectory_kept hshown hdir⟩
  · have habove : Above ms (ms.map lower ++ [c]) := ⟨List.prefix_append _ _, by simp⟩
    obtain ⟨o, rfl⟩ := hshown.exists_offer (mt List.map_eq_nil_iff.mp h0)
    refine ⟨(hspelled ms h0 hms habove o hshown).symm, ?_⟩
    show ((s'.memory id).kind (ofNames ms)).isDirectory = true
    by_cases hns : ms = ns
    · rw [hns, show (s'.memory id).kind (ofNames ns) = kind from h.tree.target]
      cases kind with
      | directory => rfl
      | file => exact absurd ⟨rfl, hns ▸ habove⟩ hfile
      | unknown => cases hk
    · rw [show (s'.memory id).kind (ofNames ms) = .directory from h.tree.way ms hms hns]
      rfl

include hs hd in
/-- A path leads where it led, or to a part of the new path, as long as the union showed the parts
above it as they are spelled, and none of them is a file now. -/
theorem walk (hk : kind.isCreatable = true) {names : List String} {place : Option (Offer Entry)}
    (hshown : Shown s (ids.map .memory) names place)
    (hspelled : SpelledAbove s (ids.map .memory) ns names)
    (hfile : ¬ (kind = .file ∧ Above ns names)) :
    ∃ place', names.foldlM (step s' (ids.map .memory)) none = some place' ∧
      Supplanted id ns names place place' := by
  have hclean := cleanTree_memory (h.clean hs)
  induction hshown with
  | root => exact ⟨none, rfl, .inl rfl⟩
  | @beneath names c place o hshown hdir hoffers ih =>
      obtain ⟨place', hwalk, hplace⟩ :=
        ih hspelled.of_append fun hbelow => hfile ⟨hbelow.1, hbelow.2.append _⟩
      obtain ⟨hpath, hdir'⟩ := h.directory_kept hk hshown hdir hplace hspelled hfile
      -- the layer of what was offered still has it, so something is offered
      have hp := hshown.path_folds
      obtain ⟨f, x, hat, hx, hkey, hheld, -⟩ := hoffers.here
      obtain ⟨j, hj, rfl⟩ := List.mem_map.mp (List.mem_of_getElem? hat)
      obtain ⟨o', ho'⟩ : ∃ o', beneath s' (ids.map .memory) (pathAt place) c = some o' := by
        refine Option.ne_none_iff_exists'.mp fun hnone => ?_
        exact (beneath_eq_none hclean hp.1).mp hnone _ (List.mem_map_of_mem hj)
          ⟨x, hx, hkey, h.holds_kept hheld⟩
      refine ⟨some o', foldlM_step_snoc.mpr ⟨place', o', hwalk, hdir', hpath ▸ ho', rfl⟩, ?_⟩
      rcases h.offers_cases hn hhead hd hp.1 hoffers (offers_of_beneath hclean hp.1 ho') with
        rfl | ⟨y, hy, hns, rfl⟩
      · exact .inl rfl
      · exact .inr ⟨_, by simp, hns, by rw [List.map_append, hp.2, ← hy]; rfl, rfl⟩

include hs hd in
/-- Nothing is found below a file that was made. -/
theorem walk_below_file (hread : Filesystem.canRead s (.memory id) = true) (h0 : ns ≠ [])
    {names : List String} {place : Option (Offer Entry)}
    (hshown : Shown s (ids.map .memory) names place)
    (hspelled : SpelledAbove s (ids.map .memory) ns names) (hfile : kind = .file)
    (habove : Above ns names) :
    names.foldlM (step s' (ids.map .memory)) none = none := by
  have hclean := cleanTree_memory (h.clean hs)
  have hk : kind.isCreatable = true := hfile ▸ rfl
  have hns := hspelled ns h0 List.prefix_rfl habove
  obtain ⟨more, rfl⟩ := habove.1
  obtain ⟨c, more, rfl⟩ := List.exists_cons_of_ne_nil (l := more)
    fun hnil => habove.2 (by rw [hnil, List.append_nil])
  -- what was shown at the path was spelled so, and so is what is shown there now
  have hbefore :=
    (foldlM_step_eq_some (cleanTree_memory hs) (List.forall_mem_map.mpr hd) _ _).mpr hshown
  rw [List.foldlM_append, Option.bind_eq_bind, Option.bind_eq_some_iff] at hbefore
  obtain ⟨at₀, hat₀, -⟩ := hbefore
  have hshown₀ := shown_of_foldlM_step (cleanTree_memory hs) hat₀
  obtain ⟨o, rfl⟩ := hshown₀.exists_offer (mt List.map_eq_nil_iff.mp h0)
  obtain ⟨at₁, hat₁, hplace⟩ :=
    h.walk hn hhead hs hd hk hshown₀ hspelled.of_append fun hself => hself.2.2 rfl
  obtain ⟨o₁, rfl, hpath⟩ : ∃ o₁, at₁ = some o₁ ∧ o₁.path = ofNames ns := by
    rcases hplace with rfl | ⟨ms, -, hms, hnames, rfl⟩
    · exact ⟨o, rfl, hns o hshown₀⟩
    · have hlen : ms.length = ns.length := by simpa using congrArg List.length hnames
      exact ⟨_, rfl, congrArg ofNames (hms.eq_of_length hlen)⟩
  have hkind := h.kindAt_target hhead hk hread (shown_of_foldlM_step hclean hat₁) hpath
  rw [List.foldlM_append, hat₁, Option.bind_eq_bind, Option.bind_some, List.foldlM_cons, step,
    hkind, hfile]
  rfl

end

end Store.Planted

/-! ## Making an entry in a new union that folds case -/

namespace Overlay

variable {s : Store} {ids : List Nat} {kind : Kind} {name : String}

/-- A union over memory filesystems that was just made and folds case. -/
def newFoldedUnion (s : Store) (ids : List Nat) (policy : Policy) :
    Store × Overlay Filesystem Entry :=
  (s, { layers := ids.map .memory, fold := true, policy := policy })

/-- The path leads to an entry. -/
def Resolves (n : Nat) (w : Store × Overlay Filesystem Entry) (path : String) : Prop :=
  ∃ m, ((entry (Store.provider (n + 1)) path).exec w).1 = .ok (some m)

instance (n : Nat) (w : Store × Overlay Filesystem Entry) (path : String) :
    Decidable (Resolves n w path) :=
  decidable_of_iff
    (((entry (Store.provider (n + 1)) path).exec w).1.toOption.join.isSome = true) <| by
    rw [Resolves]
    cases ((entry (Store.provider (n + 1)) path).exec w).1 with
    | error e => simp [Except.toOption]
    | ok r => cases r <;> simp [Except.toOption]

theorem Fresh.resolves_iff {layers : List Filesystem} {w : Store × Overlay Filesystem Entry}
    (h : Fresh s layers w .root) (n : Nat) (hs : ∀ f ∈ layers, f.CleanTree s) (path : String) :
    Resolves n w path ↔
      ∃ place, (components (normalize path true)).foldlM (step s layers) none = some place := by
  obtain ⟨r, w', hexec, -, hwalk⟩ := h.exec_entry n hs path
  rw [Resolves, hexec]
  constructor
  · rintro ⟨m, rfl⟩
    exact ⟨_, (hwalk m.offer?).mp ⟨m, rfl, rfl⟩⟩
  · rintro ⟨place, hplace⟩
    obtain ⟨m, hm, -⟩ := (hwalk place).mpr hplace
    exact ⟨m, hm⟩

/-- Where all layers can create, the first one takes what is made. -/
theorem head?_of_taker (hall : ∀ id ∈ ids, (s.memory id).operations = .all)
    (hs : ∀ id ∈ ids, (s.memory id).tree.Clean) {id i : Nat}
    (h : taker? s (ids.map .memory) "" = some (.memory id, i)) : ids.head? = some id := by
  cases ids with
  | nil => cases h
  | cons j ids =>
      have hcan : (s.memory j).operations.covers (.only .create) = true := by
        rw [hall j (by simp)]
        rfl
      have hroot : ((s.memory j).kind "" == .directory) = true := beq_iff_eq.mpr (hs j (by simp)).1
      have htakes : takes s "" (.memory j) = true := Bool.and_eq_true_iff.mpr ⟨hcan, hroot⟩
      rw [taker?, List.map_cons, List.zipIdx_cons, List.find?_cons, htakes] at h
      obtain ⟨hj, -⟩ := Prod.mk.inj (Option.some.inj h)
      rw [Filesystem.memory.inj hj]
      rfl

section
variable (n : Nat) (policy : Policy) (hs : ∀ id ∈ ids, (s.memory id).tree.Clean)
  (hstored : ∀ id ∈ ids, id < s.memories.size)
  (hall : ∀ id ∈ ids, (s.memory id).operations = .all) (hk : kind.isCreatable = true)
  (hp : Path.Clean (normalize name false))
include hs hstored hall hk hp

/-- Making an entry changes the first layer, or fails and changes nothing. -/
theorem exec_create_folded :
    ∃ r s' o', (create (Store.provider (n + 1)) .root kind name).exec (newFoldedUnion s ids policy)
        = (r, (s', o')) ∧
      ((∃ e, r = .error e) ∧ (s', o') = newFoldedUnion s ids policy ∨
        ∃ node id, r = .ok node ∧ ids.head? = some id ∧
          s.Planted s' id kind (components (normalize name false)) ∧ normalize name false ≠ "") ∧
      Fresh s' (ids.map .memory) (s', o'.invalidate 0) .root := by
  have hfresh := fresh_new s (ids.map .memory) policy
  obtain ⟨r, ⟨s', o'⟩, hexec, hcases⟩ :=
    exec_create_root n hs hstored hk hp rfl (o := (newFoldedUnion s ids policy).2) rfl rfl
  refine ⟨r, s', o', hexec, ?_⟩
  rcases hcases with ⟨he, hsame, -⟩ | ⟨node, id, i, offer, hr, haccepts, hplanted, ho⟩
  · obtain ⟨rfl, rfl⟩ := Prod.mk.inj hsame
    exact ⟨.inl ⟨he, rfl⟩, fresh_invalidated hfresh.stack hfresh.fold hfresh.live hfresh.slot⟩
  · have hhead := head?_of_taker hall hs haccepts.taker
    refine ⟨.inr ⟨node, id, hr, hhead, hplanted, haccepts.named⟩, ?_⟩
    obtain rfl : o' = _ := ho
    cases policy <;> exact fresh_invalidated rfl rfl rfl (by simp [addNode])

/-- A new union that folds case, over memory filesystems that allow everything, in which no two
entries of a directory fold to the same name.  Making an entry from the root, under trimmed names,
fails and changes nothing, or puts the entry and the directories on its way into the first layer,
where nothing else changes.  If no part of the path is new to that layer while it has it in another
spelling, then no layer has two entries of a directory that fold to the same name afterwards.  Once
the root is marked as dirty, a path that led to an entry leads to one still, as far as the parts of
the new path above it were shown as they are spelled; what lies below a file that was made is the
one exception, since the file is shown instead of a directory of another layer. -/
theorem create_keeps_paths (hd : ∀ id ∈ ids, DistinctFolded s (.memory id)) :
    let ns := components (normalize name false)
    ∃ r w', (create (Store.provider (n + 1)) .root kind name).exec (newFoldedUnion s ids policy)
        = (r, w') ∧
      ((∃ e, r = .error e) ∧ w' = newFoldedUnion s ids policy ∨
        ∃ node id, r = .ok node ∧ ids.head? = some id ∧ s.Planted w'.1 id kind ns) ∧
      ((∀ id, ids.head? = some id → ¬ Respelled s (.memory id) ns) →
        ∀ id ∈ ids, DistinctFolded w'.1 (.memory id)) ∧
      ∀ path, Resolves n (newFoldedUnion s ids policy) path →
        SpelledAbove s (ids.map .memory) ns (components (normalize path true)) →
        (Resolves n ((invalidateNode .root).exec w').2 path ↔
          ¬ ((∃ node, r = .ok node) ∧ kind = .file ∧
            Above ns (components (normalize path true)))) := by
  intro ns
  have hclean := cleanTree_memory hs
  obtain ⟨r, s', o', hexec, houtcome, hfresh⟩ :=
    exec_create_folded n policy hs hstored hall hk hp
  have hbefore := (fresh_new s (ids.map .memory) policy).resolves_iff n hclean
  rcases houtcome with ⟨⟨e, rfl⟩, hsame⟩ | ⟨node, id, rfl, hhead, hplanted, h0⟩
  · obtain ⟨rfl, rfl⟩ : s' = s ∧ o' = (newFoldedUnion s ids policy).2 := Prod.mk.inj hsame
    refine ⟨_, _, hexec, .inl ⟨⟨e, rfl⟩, rfl⟩, fun _ => hd, fun path hpath _ => ?_⟩
    have hafter : Resolves n (s', (newFoldedUnion s' ids policy).2.invalidate 0) path :=
      (hfresh.resolves_iff n hclean path).mpr ((hbefore path).mp hpath)
    exact iff_of_true hafter fun hmade => by
      obtain ⟨⟨node, hnode⟩, -⟩ := hmade
      cases hnode
  · have hn : ∀ m ∈ ns, IsName m := fun _ => hp.isName
    have hns : ns ≠ [] := components_normalize_ne_nil h0
    have hid : id ∈ ids := List.mem_of_mem_head? hhead
    have hread : Filesystem.canRead s (.memory id) = true := by
      show (s.memory id).operations.covers (.only .read) = true
      rw [hall id hid]
      rfl
    refine ⟨_, _, hexec, .inr ⟨node, id, rfl, hhead, hplanted⟩, fun hsame => ?_, ?_⟩
    · exact hplanted.distinctFolded hn hk hread hd (hsame id hhead)
    · intro path hpath hspelled
      obtain ⟨place, hplace⟩ := (hbefore path).mp hpath
      have hshown := shown_of_foldlM_step hclean hplace
      have hafter : Resolves n (s', o'.invalidate 0) path ↔ _ :=
        hfresh.resolves_iff n (cleanTree_memory (hplanted.clean hs)) path
      show Resolves n (s', o'.invalidate 0) path ↔ _
      rw [hafter]
      constructor
      · rintro ⟨place', hplace'⟩ ⟨-, hfile, habove⟩
        have hnone := hplanted.walk_below_file hn hhead hs hd hread hns hshown hspelled hfile habove
        rw [hnone] at hplace'
        cases hplace'
      · intro hfile
        obtain ⟨place', hplace', -⟩ := hplanted.walk hn hhead hs hd hk hshown hspelled
          fun hbelow => hfile ⟨⟨node, rfl⟩, hbelow⟩
        exact ⟨place', hplace'⟩

end

/-- Two memory filesystems with a directory each. -/
def twoDirectories : Store where
  memories := #[{ tree := ⟨⟨[("", .directory .epoch), ("a", .directory .epoch),
      ("a/x", .file [] .epoch)]⟩⟩ },
    { tree := ⟨⟨[("", .directory .epoch), ("b", .directory .epoch), ("b/x", .file [] .epoch)]⟩⟩ }]

theorem distinctFolded_twoDirectories :
    ∀ id ∈ [0, 1], DistinctFolded twoDirectories (.memory id) := by
  intro id hid
  refine distinctFolded_memory ?_
  revert id
  decide +kernel

/-- A file is made in a directory that is shown as it is spelled, and what lies beside it is found
as before. -/
theorem create_keeps_paths_beside :
    Path.Clean (normalize "a/y" false) ∧
      Resolves 0 (newFoldedUnion twoDirectories [0, 1] .onDemand) "A/X" ∧
      ∃ r w', (create (Store.provider 1) .root .file "a/y").exec
          (newFoldedUnion twoDirectories [0, 1] .onDemand) = (r, w') ∧
        (∀ id ∈ [0, 1], DistinctFolded w'.1 (.memory id)) ∧
        Resolves 0 ((invalidateNode .root).exec w').2 "A/X" := by
  have hname : components (normalize "a/y" false) = ["a", "y"] := by decide +kernel
  have hpath : components (normalize "A/X" true) = ["a", "x"] := by decide +kernel
  have hfound : Resolves 0 (newFoldedUnion twoDirectories [0, 1] .onDemand) "A/X" := by
    decide +kernel
  have hclean : Path.Clean (normalize "a/y" false) := by decide +kernel
  have htrees : ∀ id ∈ [0, 1], (twoDirectories.memory id).tree.Clean := by decide
  have hall : ∀ id ∈ [0, 1], (twoDirectories.memory id).operations = .all := by decide
  have hstored : ∀ id ∈ [0, 1], id < twoDirectories.memories.size := by decide
  have hcreatable : Kind.file.isCreatable = true := rfl
  obtain ⟨r, w', hexec, -, hdistinct, hpaths⟩ := create_keeps_paths 0 .onDemand htrees hstored hall
    hcreatable hclean distinctFolded_twoDirectories
  rw [hname] at hdistinct hpaths
  have hparts {ms : List String} (h0 : ms ≠ []) (hms : ms <+: ["a", "y"]) :
      ms = ["a"] ∨ ms = ["a", "y"] := by
    simpa [h0] using (List.mem_inits _ _).mpr hms
  have hbeside : ¬ Above ["a", "y"] ["a", "x"] := by decide +kernel
  refine ⟨hclean, hfound, r, w', hexec, hdistinct ?_, (hpaths "A/X" hfound ?_).mpr ?_⟩
  · -- the directory is there, and no other name in it is that of the file in another case
    rintro id hid ⟨ms, x, y, hms, hmiss, hy, hkey, hold⟩
    obtain rfl := Option.some.inj hid
    rcases hparts (by simp) hms with h | h
    · rw [h] at hmiss
      revert hmiss
      decide
    · obtain rfl : x = "y" := by simpa using congrArg List.getLast? h
      have hothers : ∀ p ∈ (twoDirectories.memory 0).tree.paths,
          lower (lastName p) ≠ lower "y" := by decide +kernel
      exact hothers _ (mem_paths_of_holds hold) (by rw [lastName_ofNames_snoc hy.1, hkey])
  · rw [hpath]
    intro ms h0 hms habove o ho
    rcases hparts h0 hms with rfl | rfl
    · have hstep := (foldlM_step_eq_some (cleanTree_memory htrees)
        (List.forall_mem_map.mpr distinctFolded_twoDirectories) _ _).mpr ho
      have hdirectory : ((["a"].map lower).foldlM
          (step twoDirectories ([0, 1].map .memory)) none).map pathAt = some "a" := by
        decide +kernel
      rw [hstep] at hdirectory
      exact Option.some.inj hdirectory
    · exact absurd habove hbeside
  · rw [hpath]
    exact fun hfile => hbeside hfile.2.2

/-- Two ways in which a new entry hides what was found: a file is made in the first layer, where a
later one has a directory; and a directory is made in another spelling, beside the one that was
listed. -/
theorem created_entry_hides :
    let w := newFoldedUnion twoDirectories [0, 1] .onDemand
    let file := (create (Store.provider 1) .root .file "b").exec w
    let directory := (create (Store.provider 1) .root .directory "A").exec w
    (∀ id ∈ [0, 1], (twoDirectories.memory id).tree.Clean ∧
        (twoDirectories.memory id).operations = .all ∧
        DistinctFolded twoDirectories (.memory id)) ∧
      Path.Clean (normalize "b" false) ∧ file.1.toOption.isSome ∧ Resolves 0 w "b/x" ∧
      ¬ Resolves 0 ((invalidateNode .root).exec file.2).2 "b/x" ∧
      Path.Clean (normalize "A" false) ∧ directory.1.toOption.isSome ∧ Resolves 0 w "a/x" ∧
      ¬ Resolves 0 ((invalidateNode .root).exec directory.2).2 "a/x" ∧
      ¬ DistinctFolded directory.2.1 (.memory 0) := by
  intro w file directory
  refine ⟨fun id hid => ⟨?_, ?_, distinctFolded_twoDirectories id hid⟩, by decide +kernel,
    by decide +kernel, by decide +kernel, by decide +kernel, by decide +kernel, by decide +kernel,
    by decide +kernel, by decide +kernel, fun hd => ?_⟩
  · revert id
    decide
  · revert id
    decide
  · have hlisted : holds directory.2.1 "a" (.memory 0) = true := by decide +kernel
    have hmade : holds directory.2.1 "A" (.memory 0) = true := by decide +kernel
    have hsame : "a" = "A" := hd _ _ hlisted hmade (by decide +kernel) (by decide +kernel)
    exact absurd hsame (by decide)

end Overlay

end Strata
