/-
# `Strata.Proofs.Indentation` — normalizing the rest of a path once more

Normalizing trims a path at its two ends only, so a name within it may begin with white
space.  Whoever takes the first name off and normalizes the rest again has such a
name at the start of the text, and loses the white space.  Done to the end this reads
other names than the path has: `unindented`.
-/
import Strata.Proofs.Path

namespace Strata.Path

/-- The text without the white space at its start. -/
def unindent (n : String) : String := String.ofList (n.toList.dropWhile Text.isBlank)

/-- The names without the white space at their starts, as far as anything is left of them. -/
def unindented (ns : List String) : List String := (ns.map unindent).filter (· ≠ "")

variable {n : String} {ns : List String}

theorem unindent_eq_self (h : ∀ c ∈ n.toList.head?, Text.isBlank c = false) : unindent n = n := by
  rw [unindent, Text.dropWhile_eq_self h, String.ofList_toList]

theorem head?_unindent : ∀ c ∈ (unindent n).toList.head?, Text.isBlank c = false := by
  intro c hc
  have := List.head?_dropWhile_not Text.isBlank n.toList
  rw [unindent, String.toList_ofList] at hc
  rw [show (n.toList.dropWhile Text.isBlank).head? = some c from hc] at this
  simpa using this

theorem unindented_cons : unindented (n :: ns) =
    if unindent n = "" then unindented ns else unindent n :: unindented ns := by
  rw [unindented, List.map_cons, List.filter_cons]
  by_cases h0 : unindent n = ""
  · rw [if_pos h0, if_neg (by simpa using h0)]
    rfl
  · rw [if_neg h0, if_pos (by simpa using h0)]
    rfl

/-- A first name without white space before it is read as it is. -/
theorem IsPath.unindented_cons (h : IsPath (n :: ns)) :
    unindented (n :: ns) = n :: unindented ns := by
  have hn : unindent n = n := unindent_eq_self (h.front n rfl)
  rw [Path.unindented_cons, hn, if_neg (h.component n (by simp)).1]

/-- Names without white space before them are read as they are. -/
theorem unindented_eq_self (h : ∀ m ∈ ns, IsComponent m)
    (hfront : ∀ m ∈ ns, ∀ c ∈ m.toList.head?, Text.isBlank c = false) : unindented ns = ns := by
  induction ns with
  | nil => rfl
  | cons n ns ih =>
      obtain ⟨hn, hns⟩ := List.forall_mem_cons.mp h
      obtain ⟨hf, hfs⟩ := List.forall_mem_cons.mp hfront
      rw [Path.unindented_cons, unindent_eq_self hf, if_neg hn.1, ih hns hfs]

/-! ## The rest of a path -/

/-- The names that are left of a path in normal form when the first ones are taken off. -/
structure IsTail (ns : List String) : Prop where
  component : ∀ n ∈ ns, IsComponent n
  back : ∀ n ∈ ns.getLast?, ∀ c ∈ n.toList.getLast?, Text.isBlank c = false

theorem IsTail.tail (h : IsTail (n :: ns)) : IsTail ns where
  component m hm := h.component m (List.mem_cons_of_mem n hm)
  back m hm := by
    apply h.back m
    cases ns with
    | nil => cases hm
    | cons k ks => rwa [List.getLast?_cons_cons]

theorem IsPath.isTail (h : IsPath (n :: ns)) : IsTail ns :=
  IsTail.tail ⟨h.component, h.back⟩

/-- White space and separators before a text do not matter. -/
theorem normalize_append {front : List Char} (h : ∀ c ∈ front, isEdge c = true)
    (rest : List Char) :
    normalize (String.ofList (front ++ rest)) false = normalize (String.ofList rest) false := by
  simp only [normalize, normalizeChars, String.toList_ofList, Text.trimBy,
    List.dropWhile_append_of_pos h]

theorem toList_ofNames_cons (hns : ns ≠ []) :
    (ofNames (n :: ns)).toList = n.toList ++ separator :: (ofNames ns).toList := by
  have := toList_ofNames_append (List.cons_ne_nil n []) hns
  rwa [List.singleton_append, ofNames_singleton] at this

theorem isEdge_of_isBlank {c : Char} (h : Text.isBlank c = true) : isEdge c = true := by
  rw [isEdge, h, Bool.true_or]

/-- What is left of the last name has the end that the name had. -/
theorem getLast?_unindent (h0 : unindent n ≠ "") :
    (unindent n).toList.getLast? = n.toList.getLast? := by
  rw [unindent, String.toList_ofList]
  obtain ⟨front, hfront⟩ := List.dropWhile_suffix Text.isBlank (l := n.toList)
  have hne : n.toList.dropWhile Text.isBlank ≠ [] := by
    intro hnil
    rw [unindent, hnil] at h0
    exact h0 rfl
  conv_rhs => rw [← hfront]
  rw [List.getLast?_append_of_ne_nil _ hne]

/-- What is left of the first name is the first name of a path in normal form. -/
theorem IsTail.isPath_unindent (h : IsTail (n :: ns)) (h0 : unindent n ≠ "") :
    IsPath (unindent n :: ns) where
  component := by
    refine List.forall_mem_cons.mpr ⟨⟨h0, ?_⟩, h.tail.component⟩
    intro hsep
    rw [unindent, String.toList_ofList] at hsep
    exact (h.component n (by simp)).2 ((List.dropWhile_sublist Text.isBlank).mem hsep)
  front := by
    intro m hm
    obtain rfl := Option.some.inj hm
    exact head?_unindent
  back := by
    cases ns with
    | nil =>
        have hlast := h.back n rfl
        rw [← getLast?_unindent h0] at hlast
        rintro m hm
        obtain rfl := Option.some.inj hm
        exact hlast
    | cons k ks =>
        rw [List.getLast?_cons_cons]
        exact h.tail.back

/-- The white space before the first name is not read. -/
theorem normalize_unindent :
    normalize (ofNames (n :: ns)) false = normalize (ofNames (unindent n :: ns)) false := by
  have hsplit : n.toList.takeWhile Text.isBlank ++ (unindent n).toList = n.toList := by
    rw [unindent, String.toList_ofList, List.takeWhile_append_dropWhile]
  have htext : (ofNames (n :: ns)).toList =
      n.toList.takeWhile Text.isBlank ++ (ofNames (unindent n :: ns)).toList := by
    by_cases hns : ns = []
    · rw [hns, ofNames_singleton, ofNames_singleton, hsplit]
    · rw [toList_ofNames_cons hns, toList_ofNames_cons hns, ← List.append_assoc, hsplit]
  have hedge : ∀ c ∈ n.toList.takeWhile Text.isBlank, isEdge c = true := by
    intro c hc
    exact isEdge_of_isBlank (List.mem_takeWhile_imp hc)
  rw [← String.ofList_toList (s := ofNames (n :: ns)), htext, normalize_append hedge,
    String.ofList_toList]

/-- A blank name before others is not read at all. -/
theorem normalize_of_blank (h0 : unindent n = "") (hns : ns ≠ []) :
    normalize (ofNames (n :: ns)) false = normalize (ofNames ns) false := by
  have htext : (ofNames ("" :: ns)).toList = [separator] ++ (ofNames ns).toList :=
    toList_ofNames_cons hns
  have hedge : ∀ c ∈ [separator], isEdge c = true := List.forall_mem_singleton.mpr rfl
  rw [normalize_unindent, h0, ← String.ofList_toList (s := ofNames ("" :: ns)), htext,
    normalize_append hedge, String.ofList_toList]

/-- The last name is not blank. -/
theorem IsTail.ne_nil_of_blank (h : IsTail (n :: ns)) (h0 : unindent n = "") : ns ≠ [] := by
  rintro rfl
  have hnil := congrArg String.toList h0
  rw [unindent, String.toList_ofList] at hnil
  obtain ⟨c, hc⟩ := Option.ne_none_iff_exists'.mp
    (mt List.getLast?_eq_none_iff.mp (h.component n (by simp)).toList_ne_nil)
  have hlast := h.back n rfl c hc
  rw [List.dropWhile_eq_nil_iff.mp hnil c (List.mem_of_getLast? hc)] at hlast
  cases hlast

/-- The rest of a path in normal form is read without the white space before its first name, and
blank names are passed over. -/
theorem IsTail.normalize_ofNames (h : IsTail ns) :
    ∃ ks, IsPath ks ∧ normalize (ofNames ns) false = ofNames ks ∧
      unindented ks = unindented ns ∧ ks.length ≤ ns.length ∧ (ns ≠ [] → ks ≠ []) := by
  induction ns with
  | nil => exact ⟨[], ⟨by simp, by simp, by simp⟩, rfl, rfl, le_rfl, id⟩
  | cons n ns ih =>
      by_cases h0 : unindent n = ""
      · have hns := h.ne_nil_of_blank h0
        obtain ⟨ks, hpath, hnorm, hread, hlen, hne⟩ := ih h.tail
        refine ⟨ks, hpath, (normalize_of_blank h0 hns).trans hnorm, ?_, ?_, fun _ => hne hns⟩
        · rw [Path.unindented_cons, if_pos h0, hread]
        · exact hlen.trans (Nat.le_succ _)
      · have hpath := h.isPath_unindent h0
        refine ⟨_, hpath, normalize_unindent.trans hpath.normalize_ofNames, ?_, le_rfl,
          fun _ => List.cons_ne_nil _ _⟩
        rw [hpath.unindented_cons, Path.unindented_cons, if_neg h0]

/-- Normalized once more, the rest of a path has names again, no more than before, and they are the
same without the white space before them. -/
theorem IsTail.components_normalize (h : IsTail ns) (hns : ns ≠ []) :
    normalize (ofNames ns) false ≠ "" ∧
      unindented (components (normalize (ofNames ns) false)) = unindented ns ∧
      (components (normalize (ofNames ns) false)).length ≤ ns.length := by
  obtain ⟨ks, hpath, hnorm, hread, hlen, hne⟩ := h.normalize_ofNames
  rw [hnorm, components_ofNames hpath.component]
  exact ⟨mt (ofNames_eq_empty hpath.component).mp (hne hns), hread, hlen⟩

theorem IsTail.unindented_ne_nil (h : IsTail ns) (hns : ns ≠ []) : unindented ns ≠ [] := by
  induction ns with
  | nil => exact absurd rfl hns
  | cons n ns ih =>
      rw [Path.unindented_cons]
      by_cases h0 : unindent n = ""
      · rw [if_pos h0]
        exact ih h.tail (h.ne_nil_of_blank h0)
      · rw [if_neg h0]
        exact List.cons_ne_nil _ _

/-- Without the white space before them the names are those of a path in normal form. -/
theorem IsTail.isPath_unindented (h : IsTail ns) : IsPath (unindented ns) := by
  induction ns with
  | nil => exact ⟨by simp [unindented], by simp [unindented], by simp [unindented]⟩
  | cons n ns ih =>
      rw [Path.unindented_cons]
      by_cases h0 : unindent n = ""
      · rw [if_pos h0]
        exact ih h.tail
      · rw [if_neg h0]
        have hrest := ih h.tail
        have hfirst := h.isPath_unindent h0
        refine ⟨List.forall_mem_cons.mpr ⟨hfirst.component _ (by simp), hrest.component⟩,
          hfirst.front, ?_⟩
        by_cases hns : ns = []
        · subst hns
          exact hfirst.back
        · obtain ⟨m, ms, hms⟩ := List.exists_cons_of_ne_nil (h.tail.unindented_ne_nil hns)
          rw [hms] at hrest ⊢
          rw [List.getLast?_cons_cons]
          exact hrest.back

/-! ## The depth of a path -/

theorem length_pieces (cs : List Char) : (pieces cs).length = cs.count separator + 1 := by
  rw [pieces]
  induction cs with
  | nil => rfl
  | cons c cs ih =>
      rw [Text.split]
      by_cases hc : c = separator
      · rw [if_pos hc, List.length_cons, ih, hc, List.count_cons_self]
      · rw [if_neg hc, List.count_cons_of_ne hc, ← ih]
        cases hs : Text.split separator cs with
        | nil => exact absurd hs (Text.split_ne_nil separator cs)
        | cons p ps => rfl

/-- A path has no more names than the text has pieces. -/
theorem length_components_normalize (path : String) :
    (components (normalize path false)).length ≤ (pieces path.toList).length := by
  have htrim : (Text.trimBy isEdge path.toList).Sublist path.toList := by
    have hfront := List.dropWhile_sublist isEdge (l := path.toList)
    have hback := List.dropWhile_sublist isEdge (l := (path.toList.dropWhile isEdge).reverse)
    rw [Text.trimBy]
    exact (List.reverse_sublist.mp (by rwa [List.reverse_reverse])).trans hfront
  calc (components (normalize path false)).length
      = (names (Text.trimBy isEdge path.toList)).length := by
        rw [components_normalize, List.length_map]
    _ ≤ (pieces (Text.trimBy isEdge path.toList)).length := List.length_filter_le _ _
    _ ≤ (pieces path.toList).length := by
        rw [length_pieces, length_pieces]
        exact Nat.succ_le_succ (htrim.count_le separator)

end Strata.Path
