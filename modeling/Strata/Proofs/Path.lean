/-
# `Strata.Proofs.Path` — paths are lists of names

`ofNames` puts names together to a path and `components` takes a path apart; the
two undo each other as long as no name is empty or holds a separator.  A name
that is trimmed besides (`IsName`) also survives `normalize`, so on a path of
such names (`Clean`) every function of `Strata.Path` is a function on lists:

    join          appends            parentOrRoot  drops the last
    lastName      is the last        liesWithin    is the prefix order
    splitHead     takes the first    rebase        exchanges a prefix

The last section does without names: what lies within a path, and what moves with it,
can be said of any texts.
-/
import Mathlib.Data.List.Infix
import Mathlib.Data.List.TakeWhile
import Strata.Path

namespace Strata.Text

/-! ## Trimming -/

variable {p : Char → Bool} {cs : List Char}

theorem dropWhile_eq_self (h : ∀ c, cs.head? = some c → p c = false) : cs.dropWhile p = cs := by
  cases cs with
  | nil => rfl
  | cons c cs => simp [h c rfl]

theorem head?_of_dropWhile_eq_self (h : cs.dropWhile p = cs) {c : Char}
    (hc : cs.head? = some c) : p c = false := by
  have := List.head?_dropWhile_not p cs
  rw [h, hc] at this
  simpa using this

theorem trimBy_eq_self (front : ∀ c, cs.head? = some c → p c = false)
    (back : ∀ c, cs.getLast? = some c → p c = false) : trimBy p cs = cs := by
  rw [trimBy, dropWhile_eq_self front, dropWhile_eq_self (by simpa using back),
    List.reverse_reverse]

theorem dropWhile_eq_self_of_trimBy (h : trimBy p cs = cs) : cs.dropWhile p = cs := by
  have hle : (trimBy p cs).length ≤ (cs.dropWhile p).length := by
    simpa [trimBy] using (List.dropWhile_sublist p (l := (cs.dropWhile p).reverse)).length_le
  exact (List.dropWhile_sublist p).eq_of_length_le (by rwa [h] at hle)

theorem head?_of_trimBy_eq_self (h : trimBy p cs = cs) {c : Char} (hc : cs.head? = some c) :
    p c = false :=
  head?_of_dropWhile_eq_self (dropWhile_eq_self_of_trimBy h) hc

theorem getLast?_of_trimBy_eq_self (h : trimBy p cs = cs) {c : Char}
    (hc : cs.getLast? = some c) : p c = false := by
  have hd := dropWhile_eq_self_of_trimBy h
  rw [trimBy, hd, List.reverse_eq_iff] at h
  exact head?_of_dropWhile_eq_self h (by simpa using hc)

theorem dropWhile_congr {q : Char → Bool} (h : ∀ c ∈ cs, p c = q c) :
    cs.dropWhile p = cs.dropWhile q := by
  induction cs with
  | nil => rfl
  | cons c cs ih =>
    obtain ⟨hc, hcs⟩ := List.forall_mem_cons.mp h
    rw [List.dropWhile_cons, List.dropWhile_cons, hc, ih hcs]

theorem trimBy_congr {q : Char → Bool} (h : ∀ c ∈ cs, p c = q c) : trimBy p cs = trimBy q cs := by
  have hsub : ∀ c ∈ (cs.dropWhile q).reverse, p c = q c := fun c hc =>
    h c ((List.dropWhile_sublist q).mem (List.mem_reverse.mp hc))
  rw [trimBy, trimBy, dropWhile_congr h, dropWhile_congr hsub]

/-- Trimming takes from the ends only. -/
theorem exists_around_trimBy (p : Char → Bool) (cs : List Char) :
    ∃ before after, cs = before ++ trimBy p cs ++ after := by
  obtain ⟨before, hbefore⟩ := List.dropWhile_suffix p (l := cs)
  obtain ⟨after, hafter⟩ := List.dropWhile_suffix p (l := (cs.dropWhile p).reverse)
  have hrest : cs.dropWhile p = trimBy p cs ++ after.reverse := by
    rw [trimBy, ← List.reverse_append, hafter, List.reverse_reverse]
  exact ⟨before, after.reverse, by rw [List.append_assoc, ← hrest, hbefore]⟩

theorem exists_around_trim (s : String) : ∃ before after, s = before ++ trim s ++ after := by
  obtain ⟨before, after, h⟩ := exists_around_trimBy isBlank s.toList
  refine ⟨String.ofList before, String.ofList after, String.toList_inj.mp ?_⟩
  simpa [trim] using h

theorem mem_of_mem_trim {s : String} {c : Char} (h : c ∈ (trim s).toList) : c ∈ s.toList := by
  obtain ⟨before, after, hs⟩ := exists_around_trim s
  rw [hs]
  simp [h]

theorem getLast?_trimBy {c : Char} (h : (trimBy p cs).getLast? = some c) : p c = false := by
  rw [trimBy, List.getLast?_reverse] at h
  have := List.head?_dropWhile_not p (cs.dropWhile p).reverse
  rw [h] at this
  simpa using this

theorem head?_trimBy {c : Char} (h : (trimBy p cs).head? = some c) : p c = false := by
  rw [trimBy, List.head?_reverse] at h
  obtain ⟨front, hfront⟩ := List.dropWhile_suffix p (l := (cs.dropWhile p).reverse)
  have hlast : (cs.dropWhile p).reverse.getLast? = some c := by
    rw [← hfront, List.getLast?_append, h, Option.some_or]
  rw [List.getLast?_reverse] at hlast
  have := List.head?_dropWhile_not p cs
  rw [hlast] at this
  simpa using this

/-! ## Splitting -/

theorem split_eq_splitOn (c : Char) (cs : List Char) : split c cs = cs.splitOn c := by
  induction cs with
  | nil => rfl
  | cons d cs ih =>
      rw [split, List.splitOn_cons_eq_if_modifyHead, ih]
      by_cases h : d = c
      · simp [h]
      · rw [if_neg h, if_neg (by simpa using h)]
        cases hs : cs.splitOn c with
        | nil => exact absurd hs (List.splitOn_ne_nil c cs)
        | cons p ps => rfl

theorem split_cons_of_ne {c d : Char} (h : d ≠ c) (cs : List Char) :
    ∃ n ns, split c (d :: cs) = (d :: n) :: ns := by
  rw [split, if_neg h]
  cases split c cs with
  | nil => exact ⟨[], [], rfl⟩
  | cons n ns => exact ⟨n, ns, rfl⟩

theorem split_snoc_of_ne {c d : Char} (h : d ≠ c) (cs : List Char) :
    ∃ ns n, split c (cs ++ [d]) = ns ++ [n ++ [d]] := by
  induction cs with
  | nil => exact ⟨[], [], by simp [split, h]⟩
  | cons e cs ih =>
      obtain ⟨ns, n, hs⟩ := ih
      rw [List.cons_append, split, hs]
      split
      · exact ⟨[] :: ns, n, rfl⟩
      · cases ns with
        | nil => exact ⟨[], e :: n, rfl⟩
        | cons m ns => exact ⟨(e :: m) :: ns, n, rfl⟩

/-- A text that holds a character can be cut where the character stands last. -/
theorem exists_last_of_mem {c : Char} {cs : List Char} (h : c ∈ cs) :
    ∃ front last, cs = front ++ c :: last ∧ c ∉ last := by
  obtain ⟨last, front, hcs, hlast⟩ := List.eq_append_cons_of_mem (List.mem_reverse.mpr h)
  refine ⟨front.reverse, last.reverse, ?_, by simpa using hlast⟩
  have := congrArg List.reverse hcs
  simpa using this

theorem not_mem_of_mem_split {c : Char} {cs n : List Char} (h : n ∈ split c cs) : c ∉ n := by
  induction cs generalizing n with
  | nil => simp_all [split]
  | cons d cs ih =>
      rw [split] at h
      split at h
      · rcases List.mem_cons.mp h with rfl | h
        · simp
        · exact ih h
      · rename_i hd
        split at h
        · simp_all [Ne.symm hd]
        · rename_i q qs hq
          rcases List.mem_cons.mp h with rfl | h
          · have := ih (n := q) (by simp [hq])
            simp [this, Ne.symm hd]
          · exact ih (by simp [hq, h])

end Strata.Text

namespace Strata.Path

/-! ## Names -/

/-- What stands between two separators of a text, if it is not empty. -/
def IsComponent (n : String) : Prop := n ≠ "" ∧ separator ∉ n.toList

/-- A component with no white space around it. -/
def IsName (n : String) : Prop := IsComponent n ∧ Text.trim n = n

instance : DecidablePred IsComponent := fun n =>
  inferInstanceAs (Decidable (n ≠ "" ∧ separator ∉ n.toList))

instance : DecidablePred IsName := fun n =>
  inferInstanceAs (Decidable (IsComponent n ∧ Text.trim n = n))

theorem forall_mem_snoc {p : String → Prop} {ns : List String} {n : String}
    (h : ∀ m ∈ ns, p m) (hn : p n) : ∀ m ∈ ns ++ [n], p m := by
  intro m hm
  rcases List.mem_append.mp hm with hm | hm
  · exact h m hm
  · exact List.mem_singleton.mp hm ▸ hn

/-- The path of these names. -/
def ofNames (ns : List String) : String := String.ofList (joinNames (ns.map String.toList))

theorem IsComponent.toList_ne_nil {n : String} (h : IsComponent n) : n.toList ≠ [] :=
  fun hn => h.1 (String.toList_inj.mp (by simpa using hn))

theorem joinNames_cons {n : List Char} {ns : List (List Char)} (h : ns ≠ []) :
    joinNames (n :: ns) = n ++ separator :: joinNames ns := by
  rw [joinNames, List.intercalate_cons_of_ne_nil h]
  simp [joinNames]

theorem joinNames_append {ns ms : List (List Char)} (hn : ns ≠ []) (hm : ms ≠ []) :
    joinNames (ns ++ ms) = joinNames ns ++ separator :: joinNames ms := by
  induction ns with
  | nil => exact absurd rfl hn
  | cons n ns ih =>
      cases ns with
      | nil => simpa [joinNames] using joinNames_cons (n := n) hm
      | cons n' ns =>
          rw [List.cons_append, joinNames_cons (by simp), ih (by simp),
            joinNames_cons (List.cons_ne_nil n' ns)]
          simp

theorem pieces_joinNames {ns : List (List Char)} (h : ∀ n ∈ ns, separator ∉ n) (hn : ns ≠ []) :
    pieces (joinNames ns) = ns := by
  rw [pieces, Text.split_eq_splitOn, joinNames, List.splitOn_intercalate _ h hn]

theorem names_joinNames {ns : List (List Char)} (h : ∀ n ∈ ns, n ≠ [] ∧ separator ∉ n) :
    names (joinNames ns) = ns := by
  by_cases hn : ns = []
  · subst hn; rfl
  · rw [names, pieces_joinNames (fun n hm => (h n hm).2) hn]
    exact List.filter_eq_self.mpr fun n hm => by simpa using (h n hm).1

theorem names_ofNames {ns : List String} (h : ∀ n ∈ ns, IsComponent n) :
    names (ofNames ns).toList = ns.map String.toList := by
  rw [ofNames, String.toList_ofList]
  refine names_joinNames fun n hn => ?_
  obtain ⟨m, hm, rfl⟩ := List.mem_map.mp hn
  exact ⟨(h m hm).toList_ne_nil, (h m hm).2⟩

theorem components_ofNames {ns : List String} (h : ∀ n ∈ ns, IsComponent n) :
    components (ofNames ns) = ns := by
  simp [components, names_ofNames h]

theorem isComponent_of_mem {n path : String} (h : n ∈ components path) : IsComponent n := by
  obtain ⟨m, hm, rfl⟩ := List.mem_map.mp h
  obtain ⟨hp, hne⟩ := List.mem_filter.mp hm
  refine ⟨fun he => ?_, by simpa using Text.not_mem_of_mem_split hp⟩
  have : m = [] := by simpa using congrArg String.toList he
  simp [this] at hne

theorem ofNames_injective {ns ms : List String} (hn : ∀ n ∈ ns, IsComponent n)
    (hm : ∀ m ∈ ms, IsComponent m) (h : ofNames ns = ofNames ms) : ns = ms := by
  rw [← components_ofNames hn, h, components_ofNames hm]

theorem ofNames_nil : ofNames [] = "" := rfl

theorem ofNames_singleton (n : String) : ofNames [n] = n := by
  simp [ofNames, joinNames]

theorem ofNames_eq_empty {ns : List String} (h : ∀ n ∈ ns, IsComponent n) :
    ofNames ns = "" ↔ ns = [] :=
  ⟨fun he => ofNames_injective h (by simp) he, fun he => by subst he; rfl⟩

theorem toList_ofNames_append {ns ms : List String} (hn : ns ≠ []) (hm : ms ≠ []) :
    (ofNames (ns ++ ms)).toList = (ofNames ns).toList ++ separator :: (ofNames ms).toList := by
  simp only [ofNames, String.toList_ofList, List.map_append]
  exact joinNames_append (by simpa using hn) (by simpa using hm)

/-! ## Normal form -/

/-- A path in normal form whose components are trimmed. -/
def Clean (path : String) : Prop :=
  normalize path false = path ∧ ∀ n ∈ components path, Text.trim n = n

instance : DecidablePred Clean := fun path =>
  inferInstanceAs (Decidable (normalize path false = path ∧
    ∀ n ∈ components path, Text.trim n = n))

theorem names_normalize (path : String) :
    names (joinNames (names (Text.trimBy isEdge path.toList)))
      = names (Text.trimBy isEdge path.toList) := by
  refine names_joinNames ?_
  intro n hn
  obtain ⟨hp, hne⟩ := List.mem_filter.mp hn
  exact ⟨by simpa using hne, Text.not_mem_of_mem_split hp⟩

theorem ofNames_components_normalize (path : String) :
    ofNames (components (normalize path false)) = normalize path false := by
  simp [ofNames, components, normalize, names_normalize, normalizeChars, Function.comp_def]

theorem components_normalize_ne_nil {path : String} (h : normalize path false ≠ "") :
    components (normalize path false) ≠ [] :=
  fun hnil => h (by rw [← ofNames_components_normalize, hnil, ofNames_nil])

theorem IsName.head {n : String} (h : IsName n) {c : Char} (hc : n.toList.head? = some c) :
    isEdge c = false := by
  have ht : Text.trimBy Text.isBlank n.toList = n.toList := by
    simpa [Text.trim] using congrArg String.toList h.2
  have hs : c ≠ separator := fun he => h.1.2 (he ▸ List.mem_of_mem_head? hc)
  simp [isEdge, Text.head?_of_trimBy_eq_self ht hc, hs]

theorem IsName.last {n : String} (h : IsName n) {c : Char} (hc : n.toList.getLast? = some c) :
    isEdge c = false := by
  have ht : Text.trimBy Text.isBlank n.toList = n.toList := by
    simpa [Text.trim] using congrArg String.toList h.2
  have hs : c ≠ separator := fun he => h.1.2 (he ▸ List.mem_of_getLast? hc)
  simp [isEdge, Text.getLast?_of_trimBy_eq_self ht hc, hs]

theorem head?_joinNames {n : List Char} {ns : List (List Char)} (h : n ≠ []) :
    (joinNames (n :: ns)).head? = n.head? := by
  cases n with
  | nil => exact absurd rfl h
  | cons c n =>
      by_cases hs : ns = []
      · subst hs; simp [joinNames]
      · simp [joinNames_cons hs]

theorem getLast?_joinNames {n : List Char} {ns : List (List Char)} (h : n ≠ []) :
    (joinNames (ns ++ [n])).getLast? = n.getLast? := by
  by_cases hs : ns = []
  · subst hs; simp [joinNames]
  · rw [joinNames_append hs (by simp)]
    simp [joinNames, List.getLast?_append, List.getLast?_cons]
    cases hl : n.getLast? with
    | none => exact absurd (List.getLast?_eq_none_iff.mp hl) h
    | some c => simp

/-- The names of a path in normal form: there is no white space before the first one and none after
the last. -/
structure IsPath (ns : List String) : Prop where
  component : ∀ n ∈ ns, IsComponent n
  front : ∀ n ∈ ns.head?, ∀ c ∈ n.toList.head?, Text.isBlank c = false
  back : ∀ n ∈ ns.getLast?, ∀ c ∈ n.toList.getLast?, Text.isBlank c = false

theorem isPath_of_isName {ns : List String} (h : ∀ n ∈ ns, IsName n) : IsPath ns where
  component n hn := (h n hn).1
  front n hn _ hc := (Bool.or_eq_false_iff.mp ((h n (List.mem_of_mem_head? hn)).head hc)).1
  back n hn _ hc := (Bool.or_eq_false_iff.mp ((h n (List.mem_of_getLast? hn)).last hc)).1

/-- A single name of a path in normal form is trimmed. -/
theorem IsPath.isName {n : String} (h : IsPath [n]) : IsName n := by
  refine ⟨h.component n (by simp), ?_⟩
  rw [Text.trim, Text.trimBy_eq_self (h.front n rfl) (h.back n rfl), String.ofList_toList]

theorem IsComponent.isEdge_eq_isBlank {n : String} (h : IsComponent n) {c : Char}
    (hc : c ∈ n.toList) : isEdge c = Text.isBlank c := by
  have hs : c ≠ separator := fun he => h.2 (he ▸ hc)
  simp [isEdge, hs]

theorem IsPath.isEdge_head {ns : List String} (h : IsPath ns) {c : Char}
    (hc : (ofNames ns).toList.head? = some c) : isEdge c = false := by
  rw [ofNames, String.toList_ofList] at hc
  cases ns with
  | nil => simp [joinNames] at hc
  | cons n ns =>
      have hn := h.component n (by simp)
      rw [List.map_cons, head?_joinNames hn.toList_ne_nil] at hc
      rw [hn.isEdge_eq_isBlank (List.mem_of_mem_head? hc)]
      exact h.front n rfl c hc

theorem IsPath.isEdge_last {ns : List String} (h : IsPath ns) {c : Char}
    (hc : (ofNames ns).toList.getLast? = some c) : isEdge c = false := by
  rw [ofNames, String.toList_ofList] at hc
  rcases List.eq_nil_or_concat' ns with rfl | ⟨ns, n, rfl⟩
  · simp [joinNames] at hc
  · have hn := h.component n (by simp)
    rw [List.map_append, List.map_singleton, getLast?_joinNames hn.toList_ne_nil] at hc
    rw [hn.isEdge_eq_isBlank (List.mem_of_getLast? hc)]
    exact h.back n (by simp) c hc

theorem IsPath.normalize_ofNames {ns : List String} (h : IsPath ns) :
    normalize (ofNames ns) false = ofNames ns := by
  have trimmed : Text.trimBy isEdge (ofNames ns).toList = (ofNames ns).toList :=
    Text.trimBy_eq_self (fun _ => h.isEdge_head) (fun _ => h.isEdge_last)
  rw [normalize, normalizeChars, trimmed, names_ofNames h.component]
  rfl

theorem normalize_ofNames {ns : List String} (h : ∀ n ∈ ns, IsName n) :
    normalize (ofNames ns) false = ofNames ns := (isPath_of_isName h).normalize_ofNames

theorem IsName.normalize_eq {n : String} (h : IsName n) : normalize n false = n := by
  have := normalize_ofNames (List.forall_mem_singleton.mpr h)
  rwa [ofNames, List.map_singleton, joinNames, List.intercalate_singleton,
    String.ofList_toList] at this

theorem components_normalize (path : String) :
    components (normalize path false)
      = (names (Text.trimBy isEdge path.toList)).map String.ofList := by
  simp [components, normalize, normalizeChars, names_normalize]

/-- What `normalize` gives is in normal form. -/
theorem isPath_components (path : String) : IsPath (components (normalize path false)) := by
  refine ⟨fun _ => isComponent_of_mem, ?_, ?_⟩
  · rw [components_normalize]
    cases hcs : Text.trimBy isEdge path.toList with
    | nil => simp [names, pieces, Text.split]
    | cons d cs =>
        have hd : isEdge d = false := Text.head?_trimBy (by rw [hcs]; rfl)
        simp only [isEdge, Bool.or_eq_false_iff, beq_eq_false_iff_ne] at hd
        obtain ⟨p, ps, hs⟩ := Text.split_cons_of_ne hd.2 cs
        intro n hn c hc
        have : n = String.ofList (d :: p) := by simpa [names, pieces, hs] using hn.symm
        subst this
        have : d = c := by simpa using hc
        exact this ▸ hd.1
  · rw [components_normalize]
    rcases List.eq_nil_or_concat' (Text.trimBy isEdge path.toList) with hcs | ⟨cs, d, hcs⟩
    · simp [hcs, names, pieces, Text.split]
    · have hd : isEdge d = false := Text.getLast?_trimBy (by rw [hcs]; simp)
      simp only [isEdge, Bool.or_eq_false_iff, beq_eq_false_iff_ne] at hd
      obtain ⟨ps, p, hs⟩ := Text.split_snoc_of_ne hd.2 cs
      intro n hn c hc
      have : n = String.ofList (p ++ [d]) := by simpa [hcs, names, pieces, hs] using hn.symm
      subst this
      have : d = c := by simpa using hc
      exact this ▸ hd.1

theorem normalize_normalize (path : String) :
    normalize (normalize path false) false = normalize path false := by
  rw [← ofNames_components_normalize path]
  exact (isPath_components path).normalize_ofNames

/-- A name that leads one step is trimmed. -/
theorem isName_of_single {name c : String} (h : components (normalize name false) = [c]) :
    IsName c := by
  have hpath := isPath_components name
  rw [h] at hpath
  exact hpath.isName

theorem normalize_of_single {name c : String} (h : components (normalize name false) = [c]) :
    normalize name false = c := by
  rw [← ofNames_components_normalize, h, ofNames, List.map_singleton, joinNames]
  simp

/-- The names of a component: it stands for itself without the white space around it, if anything is
left of it. -/
theorem components_component {c : String} (h : IsComponent c) :
    components (normalize c false) = if Text.trim c = "" then [] else [Text.trim c] := by
  have hedge : Text.trimBy isEdge c.toList = (Text.trim c).toList := by
    rw [Text.trimBy_congr fun e he => h.isEdge_eq_isBlank he, Text.trim, String.toList_ofList]
  have hsep : separator ∉ (Text.trim c).toList := fun hm => h.2 (Text.mem_of_mem_trim hm)
  rw [components_normalize, hedge]
  split
  · rename_i hempty
    rw [hempty]
    rfl
  · rename_i hne
    have hcomponent : IsComponent (Text.trim c) := ⟨hne, hsep⟩
    have := names_joinNames (List.forall_mem_singleton.mpr ⟨hcomponent.toList_ne_nil, hsep⟩)
    rw [joinNames, List.intercalate_singleton] at this
    rw [this, List.map_singleton, String.ofList_toList]

/-- A component leads one step, if it is not blank. -/
theorem components_of_component {c : String} (h : IsComponent c) :
    components (normalize c false) = [] ∨
      ∃ n, IsName n ∧ components (normalize c false) = [n] := by
  have hone := components_component h
  split at hone
  · exact .inl hone
  · exact .inr ⟨_, isName_of_single hone, hone⟩

theorem IsPath.append {ns ms : List String} (hn : IsPath ns) (hm : IsPath ms) :
    IsPath (ns ++ ms) where
  component n h := (List.mem_append.mp h).elim (hn.component n) (hm.component n)
  front n h := by
    rw [List.head?_append] at h
    exact (Option.or_eq_some_iff.mp h).elim (hn.front n) fun h => hm.front n h.2
  back n h := by
    rw [List.getLast?_append] at h
    exact (Option.or_eq_some_iff.mp h).elim (hm.back n) fun h => hn.back n h.2

/-- Another front for a path in normal form. -/
theorem IsPath.exchange {ns ms ks : List String} (h : IsPath (ns ++ ks)) (hm : IsPath ms)
    (h0 : ms ≠ []) : IsPath (ms ++ ks) where
  component n hn :=
    (List.mem_append.mp hn).elim (hm.component n) fun hk => h.component n (by simp [hk])
  front n hn := by
    rw [List.head?_append_of_ne_nil _ h0] at hn
    exact hm.front n hn
  back n hn := by
    rw [List.getLast?_append] at hn
    refine (Option.or_eq_some_iff.mp hn).elim (fun hk => h.back n ?_) fun hk => hm.back n hk.2
    rw [List.getLast?_append, hk]
    rfl

theorem exists_isPath {path : String} (h : normalize path false = path) :
    ∃ ns, IsPath ns ∧ path = ofNames ns :=
  ⟨_, isPath_components path, by rw [ofNames_components_normalize, h]⟩

theorem clean_ofNames {ns : List String} (h : ∀ n ∈ ns, IsName n) : Clean (ofNames ns) :=
  ⟨normalize_ofNames h, by
    rw [components_ofNames fun n hn => (h n hn).1]
    exact fun n hn => (h n hn).2⟩

theorem clean_empty : Clean "" :=
  ofNames_nil ▸ clean_ofNames (List.forall_mem_nil IsName)

theorem Clean.isName {path n : String} (h : Clean path) (hn : n ∈ components path) : IsName n :=
  ⟨isComponent_of_mem hn, h.2 n hn⟩

theorem Clean.ofNames_components {path : String} (h : Clean path) :
    ofNames (components path) = path := by
  have := ofNames_components_normalize path
  rwa [h.1] at this

theorem Clean.components_ne_nil {path : String} (h : Clean path) (h0 : path ≠ "") :
    components path ≠ [] :=
  fun hnil => h0 (by rw [← h.ofNames_components, hnil, ofNames_nil])

/-! ## Composing and taking apart -/

section
variable {ns ms : List String} {n : String}

theorem ofNames_append (hn : ns ≠ []) (hm : ms ≠ []) :
    ofNames (ns ++ ms) = ofNames ns ++ "/" ++ ofNames ms :=
  String.toList_inj.mp (by simp [toList_ofNames_append hn hm, separator])

/-- Joining appends the names. -/
theorem join_eq_ofNames (hn : ∀ n ∈ ns, IsComponent n) (child : String) :
    join (ofNames ns) child = ofNames (ns ++ components (normalize child false)) := by
  have hm : ∀ m ∈ components (normalize child false), IsComponent m := fun _ => isComponent_of_mem
  have hchild := ofNames_components_normalize child
  generalize components (normalize child false) = ms at hm hchild ⊢
  rw [join, ← hchild]
  by_cases h₁ : ns = []
  · subst h₁; simp [ofNames_nil]
  by_cases h₂ : ms = []
  · subst h₂; simp [ofNames_nil]
  · simp [ofNames_eq_empty hn, ofNames_eq_empty hm, h₁, h₂, ofNames_append]

theorem join_normalize_child (parent child : String) :
    join parent (normalize child false) = join parent child := by
  rw [join, join, normalize_normalize]

/-- A path in normal form stays so when a name is joined to it. -/
theorem normalize_join {parent : String} (h : normalize parent false = parent) (child : String) :
    normalize (join parent child) false = join parent child := by
  obtain ⟨ns, hns, rfl⟩ := exists_isPath h
  rw [join_eq_ofNames hns.component]
  exact (hns.append (isPath_components child)).normalize_ofNames

theorem join_ne_empty {parent child : String} (h : normalize child false ≠ "") :
    join parent child ≠ "" := by
  simp only [join, String.isEmpty_iff, if_neg h]
  split
  · exact h
  · rename_i hp
    simp [hp]

theorem join_ofNames (hn : ∀ n ∈ ns, IsComponent n) (hm : ∀ m ∈ ms, IsName m) :
    join (ofNames ns) (ofNames ms) = ofNames (ns ++ ms) := by
  rw [join_eq_ofNames hn, normalize_ofNames hm, components_ofNames fun m h => (hm m h).1]

theorem join_ofNames_name (hn : ∀ n ∈ ns, IsComponent n) (h : IsName n) :
    join (ofNames ns) n = ofNames (ns ++ [n]) := by
  have := join_ofNames hn (List.forall_mem_singleton.mpr h)
  rwa [ofNames_singleton] at this

theorem join_root {x : String} (hx : IsName x) : join "" x = x := by
  have := join_ofNames_name (List.forall_mem_nil IsComponent) hx
  rwa [List.nil_append, ofNames_nil, ofNames_singleton] at this

theorem Clean.join_eq_snoc {path name : String} (h : Clean path) (hname : IsName name) :
    join path name = ofNames (components path ++ [name]) := by
  have := join_ofNames_name (fun n hn => (h.isName hn).1) hname
  rwa [h.ofNames_components] at this

theorem splitLast_append (cs : List Char) {last : List Char} (h : separator ∉ last) :
    splitLast (cs ++ separator :: last) = (some cs, last) := by
  have clear : ∀ c ∈ last.reverse, (c != separator) = true := fun c hc => by
    simpa using fun he : c = separator => h (he ▸ List.mem_reverse.mp hc)
  simp only [splitLast, List.reverse_append, List.reverse_cons, List.append_assoc]
  rw [List.dropWhile_append_of_pos clear, List.takeWhile_append_of_pos clear]
  simp

theorem splitLast_of_notMem {cs : List Char} (h : separator ∉ cs) : splitLast cs = (none, cs) := by
  rw [splitLast, List.dropWhile_eq_nil_iff.mpr]
  simpa using fun c hc (he : c = separator) => h (he ▸ hc)

theorem splitLast_ofNames_snoc (hn : IsComponent n) :
    splitLast (ofNames (ns ++ [n])).toList
      = (if ns = [] then none else some (ofNames ns).toList, n.toList) := by
  by_cases h : ns = []
  · subst h
    rw [List.nil_append, ofNames_singleton, if_pos rfl, splitLast_of_notMem hn.2]
  · rw [toList_ofNames_append h (by simp), ofNames_singleton, splitLast_append _ hn.2, if_neg h]

theorem parent?_ofNames_snoc (hn : IsComponent n) :
    parent? (ofNames (ns ++ [n])) = if ns = [] then none else some (ofNames ns) := by
  rw [parent?, splitLast_ofNames_snoc hn]
  split <;> simp

theorem parentOrRoot_ofNames_snoc (hn : IsComponent n) :
    parentOrRoot (ofNames (ns ++ [n])) = ofNames ns := by
  rw [parentOrRoot, parent?_ofNames_snoc hn]
  split
  · rename_i h; subst h; rfl
  · rfl

theorem lastName_ofNames_snoc (hn : IsComponent n) : lastName (ofNames (ns ++ [n])) = n := by
  rw [lastName, splitLast_ofNames_snoc hn, String.ofList_toList]

theorem splitHead_ofNames_cons (hn : IsComponent n) :
    splitHead (ofNames (n :: ns)) = (n, if ns = [] then none else some (ofNames ns)) := by
  have clear : ∀ c ∈ n.toList, (c != separator) = true := fun c hc => by
    simpa using fun he : c = separator => hn.2 (he ▸ hc)
  by_cases h : ns = []
  · subst h
    rw [ofNames_singleton, splitHead, if_pos rfl]
    simp only [List.dropWhile_eq_nil_iff.mpr clear, List.takeWhile_eq_self_iff.mpr clear]
    simp
  · have : (ofNames (n :: ns)).toList = n.toList ++ separator :: (ofNames ns).toList := by
      rw [← List.singleton_append, toList_ofNames_append (by simp) h, ofNames_singleton]
    rw [splitHead, if_neg h]
    simp only [this, List.dropWhile_append_of_pos clear, List.takeWhile_append_of_pos clear]
    simp

theorem pieces_append_cons (cs ds : List Char) :
    pieces (cs ++ separator :: ds) = pieces cs ++ pieces ds := by
  simp [pieces, Text.split_eq_splitOn, List.splitOn_append_cons_self]

theorem names_append_cons (cs ds : List Char) :
    names (cs ++ separator :: ds) = names cs ++ names ds := by
  rw [names, pieces_append_cons, List.filter_append]
  rfl

theorem liesWithin_ofNames (hn : ∀ n ∈ ns, IsComponent n) (hm : ∀ m ∈ ms, IsComponent m) :
    liesWithin (ofNames ns) (ofNames ms) = true ↔ ms <+: ns := by
  simp only [liesWithin, Bool.or_eq_true, beq_iff_eq, String.isEmpty_iff, ofNames_eq_empty hm,
    List.isPrefixOf_iff_prefix]
  constructor
  · rintro ((rfl | h) | ⟨rest, h⟩)
    · exact List.nil_prefix
    · exact ofNames_injective hn hm h ▸ List.prefix_rfl
    · refine ⟨(names rest).map String.ofList, ?_⟩
      rw [← components_ofNames hn, components, ← h, List.append_assoc, List.singleton_append,
        names_append_cons, List.map_append]
      congr 1
      exact (components_ofNames hm).symm
  · rintro ⟨rest, rfl⟩
    by_cases h₁ : ms = []
    · exact Or.inl (Or.inl h₁)
    by_cases h₂ : rest = []
    · subst h₂; simp
    · exact Or.inr ⟨(ofNames rest).toList, by rw [toList_ofNames_append h₁ h₂]; simp⟩

theorem rebase_ofNames {ks : List String} (hn : ns ≠ []) (hm : ms ≠ []) :
    rebase (ofNames ns) (ofNames ms) (ofNames (ns ++ ks)) = ofNames (ms ++ ks) := by
  by_cases hk : ks = []
  · subst hk; simp [rebase]
  · rw [rebase, toList_ofNames_append hn hk, List.drop_left, ofNames_append hm hk]
    simp [separator, String.append_assoc]

/-- A path in normal form stays so when a part of it is replaced by another path. -/
theorem normalize_rebase {source target path : String} (hs : normalize source false = source)
    (ht : normalize target false = target) (hp : normalize path false = path) (h0 : source ≠ "")
    (h1 : target ≠ "") (hin : liesWithin path source = true) :
    normalize (rebase source target path) false = rebase source target path
      ∧ rebase source target path ≠ "" := by
  obtain ⟨ns, hns, rfl⟩ := exists_isPath hs
  obtain ⟨ms, hms, rfl⟩ := exists_isPath ht
  obtain ⟨ps, hps, rfl⟩ := exists_isPath hp
  obtain ⟨ks, rfl⟩ := (liesWithin_ofNames hps.component hns.component).mp hin
  have hn0 : ns ≠ [] := fun he => h0 (by rw [he, ofNames_nil])
  have hm0 : ms ≠ [] := fun he => h1 (by rw [he, ofNames_nil])
  have hpath := hps.exchange hms hm0
  rw [rebase_ofNames hn0 hm0, Ne, ofNames_eq_empty hpath.component]
  exact ⟨hpath.normalize_ofNames, by simp [hm0]⟩

theorem liesWithin_root {top : String} : liesWithin "" top = true ↔ top = "" := by
  have hcomm : "" = top ↔ top = "" := eq_comm
  simp [liesWithin, hcomm]

theorem utf8ByteSize_ofNames_append (hn : ns ≠ []) (hm : ms ≠ []) :
    (ofNames ns).utf8ByteSize < (ofNames (ns ++ ms)).utf8ByteSize := by
  rw [ofNames_append hn hm]
  simp only [String.utf8ByteSize_append]
  have : "/".utf8ByteSize = 1 := by decide
  omega

end

/-! ## Any texts as paths

A tree may hold keys that are not in normal form.  What lies within another path is then a matter
of the characters alone: the path goes on with a rest that is empty or starts with a separator. -/

section
variable {path top source target : String}

/-- What may follow a path in the text of a path that lies within it. -/
def IsRest (rest : List Char) : Prop := ∀ c ∈ rest.head?, c = separator

theorem liesWithin_iff (h0 : top ≠ "") :
    liesWithin path top = true ↔ ∃ rest, IsRest rest ∧ path.toList = top.toList ++ rest := by
  simp only [liesWithin, Bool.or_eq_true, String.isEmpty_iff, h0, false_or, beq_iff_eq,
    List.isPrefixOf_iff_prefix]
  constructor
  · rintro (rfl | ⟨rest, hrest⟩)
    · exact ⟨[], by simp [IsRest], by simp⟩
    · exact ⟨separator :: rest, by simp [IsRest], by simpa using hrest.symm⟩
  · rintro ⟨rest, hrest, htext⟩
    cases rest with
    | nil => exact .inl (String.toList_inj.mp (by simpa using htext))
    | cons c rest =>
        obtain rfl : c = separator := hrest c rfl
        exact .inr ⟨rest, by simpa using htext.symm⟩

theorem ne_empty_of_liesWithin (h0 : top ≠ "") (hin : liesWithin path top = true) : path ≠ "" := by
  rintro rfl
  exact h0 (liesWithin_root.mp hin)

theorem toList_rebase {rest : List Char} (hpath : path.toList = source.toList ++ rest) :
    (rebase source target path).toList = target.toList ++ rest := by
  rw [rebase, hpath, List.drop_left, String.toList_append, String.toList_ofList]

theorem liesWithin_rebase (h0 : source ≠ "") (h1 : target ≠ "")
    (hin : liesWithin path source = true) :
    liesWithin (rebase source target path) target = true := by
  obtain ⟨rest, hrest, hpath⟩ := (liesWithin_iff h0).mp hin
  exact (liesWithin_iff h1).mpr ⟨rest, hrest, toList_rebase hpath⟩

/-- Different paths within one that is replaced stay different. -/
theorem rebase_injective (h0 : source ≠ "") {p q : String} (hp : liesWithin p source = true)
    (hq : liesWithin q source = true) (he : rebase source target p = rebase source target q) :
    p = q := by
  obtain ⟨rest, -, hrest⟩ := (liesWithin_iff h0).mp hp
  obtain ⟨rest', -, hrest'⟩ := (liesWithin_iff h0).mp hq
  have htext := congrArg String.toList he
  rw [toList_rebase hrest, toList_rebase hrest'] at htext
  apply String.toList_inj.mp
  rw [hrest, hrest', List.append_cancel_left htext]

/-- Of two paths that one lies within, one lies within the other. -/
theorem liesWithin_or_liesWithin (h0 : source ≠ "") (h1 : target ≠ "")
    (hs : liesWithin path source = true) (ht : liesWithin path target = true) :
    liesWithin target source = true ∨ liesWithin source target = true := by
  obtain ⟨rest, hrest, hpath⟩ := (liesWithin_iff h0).mp hs
  obtain ⟨rest', hrest', hpath'⟩ := (liesWithin_iff h1).mp ht
  rcases List.append_eq_append_iff.mp (hpath.symm.trans hpath') with ⟨ks, hks, rfl⟩ | ⟨ks, hks, rfl⟩
  · exact .inl ((liesWithin_iff h0).mpr ⟨ks, fun c hc => hrest c (by simp_all), hks⟩)
  · exact .inr ((liesWithin_iff h1).mpr ⟨ks, fun c hc => hrest' c (by simp_all), hks⟩)

/-- Two paths that lie within each other are the same. -/
theorem eq_of_liesWithin (hpt : liesWithin path top = true) (htp : liesWithin top path = true) :
    path = top := by
  by_cases h0 : top = ""
  · rw [h0] at htp ⊢
    exact liesWithin_root.mp htp
  · obtain ⟨rest, -, hpath⟩ := (liesWithin_iff h0).mp hpt
    obtain ⟨rest', -, htop⟩ := (liesWithin_iff (ne_empty_of_liesWithin h0 hpt)).mp htp
    have hlen := congrArg List.length hpath
    rw [htop, List.length_append, List.length_append] at hlen
    have hrest : rest = [] := List.eq_nil_of_length_eq_zero (by omega)
    rw [hrest, List.append_nil] at hpath
    exact String.toList_inj.mp hpath

theorem liesWithin_trans (hpt : liesWithin path top = true) (hts : liesWithin top source = true) :
    liesWithin path source = true := by
  by_cases h0 : source = ""
  · rw [h0, liesWithin_empty]
  · obtain ⟨rest, hrest, hpath⟩ := (liesWithin_iff (ne_empty_of_liesWithin h0 hts)).mp hpt
    obtain ⟨rest', hrest', htop⟩ := (liesWithin_iff h0).mp hts
    refine (liesWithin_iff h0).mpr ⟨rest' ++ rest, ?_, by rw [hpath, htop, List.append_assoc]⟩
    cases rest' with
    | nil => exact hrest
    | cons c cs => exact hrest'

/-- Joining leads to what lies within the directory, whatever text is joined. -/
theorem liesWithin_join (parent child : String) : liesWithin (join parent child) parent = true := by
  rw [join]
  by_cases h0 : parent = ""
  · rw [h0, liesWithin_empty]
  by_cases hc : normalize child false = ""
  · simp only [String.isEmpty_iff, if_neg h0, if_pos hc, liesWithin_refl]
  · simp only [String.isEmpty_iff, if_neg h0, if_neg hc]
    refine (liesWithin_iff h0).mpr ⟨separator :: (normalize child false).toList, ?_, ?_⟩
    · simp [IsRest]
    · simp [separator]

theorem parentOrRoot_of_toList {front last : List Char}
    (hpath : path.toList = front ++ separator :: last) (hlast : separator ∉ last) :
    parentOrRoot path = String.ofList front := by
  rw [parentOrRoot, parent?, hpath, splitLast_append front hlast]
  rfl

/-- The directory of a path is shorter than the path. -/
theorem length_parentOrRoot (h0 : path ≠ "") :
    (parentOrRoot path).toList.length < path.toList.length := by
  by_cases hsep : separator ∈ path.toList
  · obtain ⟨front, last, hsplit, hlast⟩ := Text.exists_last_of_mem hsep
    rw [parentOrRoot_of_toList hsplit hlast, hsplit]
    simp
  · have hparent : parentOrRoot path = "" := by
      rw [parentOrRoot, parent?, splitLast_of_notMem hsep]
      rfl
    rw [hparent]
    exact List.length_pos_iff.mpr fun hnil => h0 (String.toList_inj.mp hnil)

/-- The directory of a path below another one lies within that one, too. -/
theorem liesWithin_parentOrRoot (h0 : top ≠ "") (hin : liesWithin path top = true)
    (hne : path ≠ top) : liesWithin (parentOrRoot path) top = true := by
  obtain ⟨rest, hrest, hpath⟩ := (liesWithin_iff h0).mp hin
  cases rest with
  | nil => exact absurd (String.toList_inj.mp (by simpa using hpath)) hne
  | cons c rest =>
      obtain rfl : c = separator := hrest c rfl
      obtain ⟨front, last, hsplit, hlast⟩ := Text.exists_last_of_mem (List.mem_cons_self (l := rest))
      rw [hsplit, ← List.append_assoc] at hpath
      rw [parentOrRoot_of_toList hpath hlast]
      refine (liesWithin_iff h0).mpr ⟨front, ?_, String.toList_ofList⟩
      cases front with
      | nil => simp [IsRest]
      | cons d front =>
          obtain rfl : separator = d := (List.cons.inj hsplit).1
          simp [IsRest]

end

end Strata.Path
