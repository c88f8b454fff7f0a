/-
# `Strata.Proofs.Canonical` — normal forms of paths, and the lists that they stand for

Whether a text is in normal form can be seen from it: no white space and no separator stands at its
ends, and no two separators stand side by side (`normalize_eq_self_iff`).  What `normalize` gives is
of this form, folded or not, so a second time it folds at most (`normalize_canonical`).

To fold a path is to fold its names one by one, and a union that folds does the same to the names
under which it lists its entries (`folding_by_names`).  This is why a folded path finds its way
through folded listings.

The calls on the text of a path in normal form are calls on the list of its names:

    components (join a s)  =  components a ++ components (normalize s false)
    lastName, parent?         take the last name off
    splitHead                 takes the first name off
    liesWithin                is the prefix order

All of them together are `calls_on_components`.
-/
import Strata.Overlay.Merge
import Strata.Proofs.Folding

namespace Strata.Path

/-! ## Normal form, read off the text -/

/-- The form of a normalized path: it is empty, or it neither starts nor ends with white space or a
separator and has no two separators side by side. -/
def IsCanonical (path : String) : Prop :=
  path = "" ∨
    (∀ c ∈ path.toList.head?, Text.isBlank c = false ∧ c ≠ separator) ∧
    (∀ c ∈ path.toList.getLast?, Text.isBlank c = false ∧ c ≠ separator) ∧
    ¬[separator, separator] <:+: path.toList

theorem isEdge_eq_false {c : Char} :
    isEdge c = false ↔ Text.isBlank c = false ∧ c ≠ separator := by
  simp [isEdge]

/-- A piece is empty where a separator stands at an end or two stand side by side. -/
theorem nil_mem_pieces_iff {cs : List Char} :
    [] ∈ pieces cs ↔ cs = [] ∨ cs.head? = some separator ∨ cs.getLast? = some separator ∨
      [separator, separator] <:+: cs := by
  constructor
  · intro hnil
    obtain ⟨front, back, hpieces⟩ := List.append_of_mem hnil
    have hcs : joinNames (front ++ [] :: back) = cs := by
      rw [← hpieces]
      exact Text.intercalate_split separator cs
    rw [← hcs]
    cases front with
    | nil =>
        cases back with
        | nil => exact .inl rfl
        | cons b back =>
            rw [List.nil_append, joinNames_cons (List.cons_ne_nil b back)]
            exact .inr (.inl rfl)
    | cons f front =>
        rw [joinNames_append (List.cons_ne_nil f front) (List.cons_ne_nil [] back)]
        cases back with
        | nil => exact .inr (.inr (.inl (by simp [joinNames])))
        | cons b back =>
            rw [joinNames_cons (List.cons_ne_nil b back)]
            exact .inr (.inr (.inr ⟨joinNames (f :: front), joinNames (b :: back), by simp⟩))
  · have hempty : [] ∈ pieces [] := List.mem_singleton_self []
    rintro (rfl | hhead | hlast | ⟨front, back, rfl⟩)
    · exact hempty
    · obtain ⟨back, rfl⟩ := List.head?_eq_some_iff.mp hhead
      rw [← List.nil_append (separator :: back), pieces_append_cons]
      exact List.mem_append_left _ hempty
    · obtain ⟨front, rfl⟩ := List.getLast?_eq_some_iff.mp hlast
      rw [pieces_append_cons]
      exact List.mem_append_right _ hempty
    · have hcut : front ++ [separator, separator] ++ back
          = front ++ separator :: ([] ++ separator :: back) := by simp
      rw [hcut, pieces_append_cons, pieces_append_cons]
      exact List.mem_append_right _ (List.mem_append_left _ hempty)

/-- A text without empty pieces is its names put together. -/
theorem joinNames_names {cs : List Char} (h : [] ∉ pieces cs) : joinNames (names cs) = cs := by
  have hnames : names cs = pieces cs := by
    refine List.filter_eq_self.mpr fun n hn => ?_
    have hne : n ≠ [] := fun he => h (he ▸ hn)
    simpa using hne
  rw [hnames]
  exact Text.intercalate_split separator cs

theorem pieces_ofNames {ns : List String} (h : ∀ n ∈ ns, IsComponent n) (h0 : ns ≠ []) :
    pieces (ofNames ns).toList = ns.map String.toList := by
  rw [ofNames, String.toList_ofList]
  refine pieces_joinNames ?_ (by simpa using h0)
  intro n hn
  obtain ⟨m, hm, rfl⟩ := List.mem_map.mp hn
  exact (h m hm).2

theorem IsPath.isCanonical {ns : List String} (h : IsPath ns) : IsCanonical (ofNames ns) := by
  by_cases h0 : ns = []
  · exact .inl (by rw [h0, ofNames_nil])
  refine .inr ⟨?_, ?_, ?_⟩
  · intro c hc
    exact isEdge_eq_false.mp (h.isEdge_head hc)
  · intro c hc
    exact isEdge_eq_false.mp (h.isEdge_last hc)
  · intro hdouble
    have hnil := nil_mem_pieces_iff.mpr (.inr (.inr (.inr hdouble)))
    rw [pieces_ofNames h.component h0] at hnil
    obtain ⟨n, hn, hempty⟩ := List.mem_map.mp hnil
    exact (h.component n hn).toList_ne_nil hempty

/-- A text of the normal form is trimmed and has no empty piece, so nothing is left to do. -/
theorem IsCanonical.normalize_eq {path : String} (h : IsCanonical path) :
    normalize path false = path := by
  rcases h with rfl | ⟨front, back, single⟩
  · exact clean_empty.1
  by_cases h0 : path.toList = []
  · rw [String.toList_inj.mp (h0.trans String.toList_empty.symm)]
    exact clean_empty.1
  have trimmed : Text.trimBy isEdge path.toList = path.toList := by
    refine Text.trimBy_eq_self ?_ ?_
    · intro c hc
      exact isEdge_eq_false.mpr (front c hc)
    · intro c hc
      exact isEdge_eq_false.mpr (back c hc)
  have whole : [] ∉ pieces path.toList := by
    intro hnil
    rcases nil_mem_pieces_iff.mp hnil with hempty | hhead | hlast | hdouble
    · exact h0 hempty
    · exact (front _ hhead).2 rfl
    · exact (back _ hlast).2 rfl
    · exact single hdouble
  rw [normalize, normalizeChars, trimmed, joinNames_names whole]
  exact String.ofList_toList

/-- Normalizing leaves alone exactly the texts of the normal form. -/
theorem normalize_eq_self_iff (path : String) :
    normalize path false = path ↔ IsCanonical path := by
  constructor
  · intro h
    obtain ⟨ns, hns, rfl⟩ := exists_isPath h
    exact hns.isCanonical
  · exact IsCanonical.normalize_eq

/-! ## Normalizing twice -/

theorem isPath_components_key (fold : Bool) (path : String) :
    IsPath (components (normalize path fold)) := by
  cases fold with
  | false => exact isPath_components path
  | true =>
      rw [components_normalize_fold]
      exact (isPath_components path).lower

/-- A folded path is in normal form, too. -/
theorem normalize_key (fold : Bool) (path : String) :
    normalize (normalize path fold) false = normalize path fold := by
  have h := (isPath_components_key fold path).normalize_ofNames
  rwa [ofNames_components_normalize_key] at h

theorem normalize_normalize_key (a b : Bool) (path : String) :
    normalize (normalize path a) b = normalize path (a || b) := by
  cases b with
  | false => rw [Bool.or_false, normalize_key]
  | true =>
      rw [Bool.or_true, normalize_fold, normalize_key]
      cases a with
      | false => exact (normalize_fold path).symm
      | true => rw [normalize_fold, lower_lower]

/-- Normalizing is canonical: the texts that it leaves alone are those of the normal form, what it
gives is of this form and stays as it is, and of two foldings one is enough. -/
theorem normalize_canonical (path : String) :
    (normalize path false = path ↔ IsCanonical path) ∧
      (∀ fold, normalize (normalize path fold) fold = normalize path fold ∧
        IsCanonical (normalize path fold)) ∧
      ∀ a b, normalize (normalize path a) b = normalize path (a || b) := by
  refine ⟨normalize_eq_self_iff path, ?_, ?_⟩
  · intro fold
    refine ⟨?_, ?_⟩
    · rw [normalize_normalize_key, Bool.or_self]
    · exact (normalize_eq_self_iff _).mp (normalize_key fold path)
  · intro a b
    exact normalize_normalize_key a b path

/-- White space is trimmed at the two ends only: between two separators it is a name. -/
example : normalize "/ Docs/ //ΑΣ/ " true = "docs/ /ας" := by decide +kernel

/-! ## Folding name by name -/

section
open Overlay (listedName)

/-- A union that folds lists an entry under the name that it would have otherwise, in lower
case. -/
theorem listedName_fold_eq (path : String) :
    listedName true path = lower (listedName false path) :=
  normalize_fold (lastName path)

theorem map_listedName_fold (paths : List String) :
    paths.map (listedName true) = (paths.map (listedName false)).map lower := by
  rw [List.map_map]
  exact List.map_congr_left fun path _ => listedName_fold_eq path

/-- A name that ends in a capital sigma ends in the final one when it is lower-cased, if a cased
letter of the name stands before it. -/
theorem exists_lower_sigma (front : List Char) :
    ∃ start, lower (String.ofList (front ++ ['Σ']))
      = String.ofList (start ++ [if Text.casedAhead front.reverse then 'ς' else 'σ']) := by
  obtain ⟨start, hstart⟩ := Text.exists_lowercase_sigma front
  refine ⟨start, ?_⟩
  have hafter : Text.casedAhead [] = false := rfl
  rw [lower, String.toList_ofList, hstart, Text.lowerSigma, hafter, Bool.not_false, Bool.and_true]

/-- To fold a path is to lower-case each of its names by itself: which form a sigma takes at the end
of a name depends on that name alone.  The names that a union gives its entries are folded in the
same way, so where those of some entries spell a path, the folded ones spell the folded path. -/
theorem folding_by_names (path : String) :
    components (normalize path true) = (components (normalize path false)).map lower ∧
      (∀ (i : Nat) (front : List Char),
        (components (normalize path false))[i]? = some (String.ofList (front ++ ['Σ'])) →
        ∃ start, (components (normalize path true))[i]?
          = some (String.ofList (start ++ [if Text.casedAhead front.reverse then 'ς' else 'σ']))) ∧
      (∀ entry, listedName true entry = lower (listedName false entry)) ∧
      ∀ entries : List String, entries.map (listedName false) = components (normalize path false) →
        entries.map (listedName true) = components (normalize path true) := by
  have hnames := components_normalize_fold path
  refine ⟨hnames, ?_, listedName_fold_eq, ?_⟩
  · intro i front hi
    obtain ⟨start, hstart⟩ := exists_lower_sigma front
    exact ⟨start, by rw [hnames, List.getElem?_map, hi, Option.map_some, hstart]⟩
  · intro entries hentries
    rw [map_listedName_fold, hentries, hnames]

/-- The sigma that ends `ΑΣ` is final although a letter follows behind the separator, and the one
that is a name of its own is not. -/
theorem folding_by_names_sigma :
    components (normalize "/ΑΣ/Σ/" true) = ["ας", "σ"] ∧
      ["ΑΣ", "ΑΣ/Σ"].map (listedName true) = components (normalize "/ΑΣ/Σ/" true) ∧
      ∃ start, (components (normalize "/ΑΣ/Σ/" true))[0]? = some (String.ofList (start ++ ['ς'])) := by
  obtain ⟨hnames, hsigma, -, hlisted⟩ := folding_by_names "/ΑΣ/Σ/"
  have hplain : components (normalize "/ΑΣ/Σ/" false) = ["ΑΣ", "Σ"] := by decide +kernel
  have hcased : Text.casedAhead ['Α'].reverse = true := by decide +kernel
  obtain ⟨start, hstart⟩ := hsigma 0 ['Α'] (by rw [hplain]; rfl)
  rw [hcased, if_pos rfl] at hstart
  refine ⟨?_, hlisted _ (by rw [hplain]; decide +kernel), start, hstart⟩
  rw [hnames, hplain]
  decide +kernel

end

/-! ## Calls on the list of names -/

section
variable {a b path : String}

theorem components_join (ha : normalize a false = a) (s : String) :
    components (join a s) = components a ++ components (normalize s false) := by
  obtain ⟨ns, hns, rfl⟩ := exists_isPath ha
  have happend := hns.append (isPath_components s)
  rw [join_eq_ofNames hns.component, components_ofNames happend.component,
    components_ofNames hns.component]

theorem join_assoc (ha : normalize a false = a) (hb : normalize b false = b) (s : String) :
    join (join a b) s = join a (join b s) := by
  obtain ⟨ns, hns, rfl⟩ := exists_isPath ha
  have hab := hns.append (isPath_components b)
  rw [join_eq_ofNames hns.component, join_eq_ofNames hab.component,
    join_eq_ofNames hns.component, normalize_join hb, components_join hb, hb, List.append_assoc]

theorem liesWithin_iff_components (hp : normalize path false = path) (ha : normalize a false = a) :
    liesWithin path a = true ↔ components a <+: components path := by
  obtain ⟨ns, hns, rfl⟩ := exists_isPath hp
  obtain ⟨ms, hms, rfl⟩ := exists_isPath ha
  rw [components_ofNames hns.component, components_ofNames hms.component]
  exact liesWithin_ofNames hns.component hms.component

/-- Taking the last name off. -/
theorem components_snoc (hp : normalize path false = path) (h0 : path ≠ "") :
    (components path).getLast? = some (lastName path) ∧
      (parent? path = none ↔ (components path).length = 1) ∧
      ∀ q, parent? path = some q → components q = (components path).dropLast := by
  obtain ⟨ns, hns, rfl⟩ := exists_isPath hp
  rcases List.eq_nil_or_concat' ns with rfl | ⟨ns, n, rfl⟩
  · exact absurd ofNames_nil h0
  have hn : IsComponent n := hns.component n (by simp)
  have hfront : ∀ m ∈ ns, IsComponent m := fun m hm => hns.component m (by simp [hm])
  rw [components_ofNames hns.component, lastName_ofNames_snoc hn, parent?_ofNames_snoc hn,
    List.getLast?_concat, List.dropLast_concat]
  refine ⟨rfl, ?_, ?_⟩
  · simp
  · intro q hq
    split at hq
    · cases hq
    · rw [← Option.some.inj hq, components_ofNames hfront]

/-- Taking the first name off. -/
theorem components_cons (hp : normalize path false = path) (h0 : path ≠ "") :
    (components path).head? = some (splitHead path).1 ∧
      ((splitHead path).2 = none ↔ (components path).length = 1) ∧
      (splitHead path).2.elim [] components = (components path).tail := by
  obtain ⟨ns, hns, rfl⟩ := exists_isPath hp
  cases ns with
  | nil => exact absurd ofNames_nil h0
  | cons n ns =>
      have hback : ∀ m ∈ ns, IsComponent m := fun m hm => hns.component m (by simp [hm])
      rw [components_ofNames hns.component, splitHead_ofNames_cons (hns.component n (by simp))]
      refine ⟨rfl, by simp, ?_⟩
      by_cases hns0 : ns = []
      · rw [if_pos hns0, hns0]
        rfl
      · rw [if_neg hns0]
        exact components_ofNames hback

/-- Paths in normal form are lists of names: one lies within another if its names go on from those of
the other, the ends of a path that is not the root are the ends of the list, and joining appends, so
that it does not matter which of two joins is made first. -/
theorem calls_on_components {p a b : String} (hp : normalize p false = p)
    (ha : normalize a false = a) (hb : normalize b false = b) (s : String) :
    (liesWithin p a = true ↔ components a <+: components p) ∧
      (p ≠ "" →
        ((components p).getLast? = some (lastName p) ∧
          (parent? p = none ↔ (components p).length = 1) ∧
          ∀ q, parent? p = some q → components q = (components p).dropLast) ∧
        (components p).head? = some (splitHead p).1 ∧
          ((splitHead p).2 = none ↔ (components p).length = 1) ∧
          (splitHead p).2.elim [] components = (components p).tail) ∧
      components (join a s) = components a ++ components (normalize s false) ∧
      join (join a b) s = join a (join b s) :=
  ⟨liesWithin_iff_components hp ha, fun h0 => ⟨components_snoc hp h0, components_cons hp h0⟩,
    components_join ha s, join_assoc ha hb s⟩

/-- A name keeps the blank that stands before it inside a path, and `a/ b` is no ancestor of
`a/ bc`. -/
theorem calls_on_components_blank :
    liesWithin "a/ bc" "a/ b" = false ∧
      (components "a/ bc").getLast? = some (lastName "a/ bc") ∧
      components (join "a/ b" " c// d ") = ["a", " b", "c", " d"] ∧
      join (join "a/ b" "c") " d " = join "a/ b" (join "c" " d ") := by
  have hp : normalize "a/ bc" false = "a/ bc" := by decide +kernel
  have ha : normalize "a/ b" false = "a/ b" := by decide +kernel
  have hc : normalize "c" false = "c" := by decide +kernel
  obtain ⟨hwithin, hends, -, -⟩ := calls_on_components hp ha hc ""
  obtain ⟨-, -, hjoin, -⟩ := calls_on_components hp ha hc " c// d "
  obtain ⟨-, -, -, hassoc⟩ := calls_on_components hp ha hc " d "
  refine ⟨?_, (hends (by decide)).1.1, ?_, hassoc⟩
  · refine eq_false_of_ne_true fun hin => ?_
    have hprefix := hwithin.mp hin
    revert hprefix
    decide +kernel
  · rw [hjoin]
    decide +kernel

end

end Strata.Path
