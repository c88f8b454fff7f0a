/-
# `Strata.Proofs.Folding` — lower case, name by name

A word never reaches across a separator, so a path is lower-cased by lower-casing
its names (`components_normalize_fold`): each is still a name, and there are as many
of them as before.  What is in lower case stays as it is (`lowercase_lowercase`): no
lower-case form is a letter that has another one, and none is a capital sigma.  A
letter that has a lower-case form is cased (`isCased_of_lowerChar_ne`): a sigma after
it stands in a word.
-/
import Strata.Proofs.Path

namespace Strata.Text

open Strata.Path

/-! ## Words and separators -/

theorem casedAhead_cons (c : Char) (cs : List Char) :
    casedAhead (c :: cs) = if isCaseIgnorable c then casedAhead cs else isCased c := by
  by_cases h : isCaseIgnorable c = true
  · rw [if_pos h, casedAhead, List.dropWhile_cons_of_pos h]
    rfl
  · rw [if_neg h, casedAhead, List.dropWhile_cons_of_neg h]

/-- What stands beyond a separator takes no part in finding a word's end. -/
theorem casedAhead_append_separator (xs ys : List Char) :
    casedAhead (xs ++ separator :: ys) = casedAhead xs := by
  induction xs with
  | nil =>
      have h : isCaseIgnorable separator = false ∧ isCased separator = false := by decide +kernel
      rw [List.nil_append, casedAhead_cons, h.1, h.2]
      rfl
  | cons c xs ih => rw [List.cons_append, casedAhead_cons, casedAhead_cons, ih]

theorem lowercaseAfter_append_separator (xs ys cs : List Char) :
    lowercaseAfter (xs ++ separator :: ys) cs = lowercaseAfter xs cs := by
  induction cs generalizing xs with
  | nil => rfl
  | cons c cs ih =>
      have hrest := ih (c :: xs)
      rw [List.cons_append] at hrest
      rw [lowercaseAfter, lowercaseAfter, hrest, lowerSigma, lowerSigma,
        casedAhead_append_separator]

theorem lowerChar_separator : lowerChar separator = [separator] := by decide +kernel

/-- Two texts with a separator between them are lower-cased one by one. -/
theorem lowercase_append_separator (xs ys : List Char) :
    lowercase (xs ++ separator :: ys) = lowercase xs ++ separator :: lowercase ys := by
  have after (before : List Char) : lowercaseAfter before (xs ++ separator :: ys)
      = lowercaseAfter before xs ++ separator :: lowercase ys := by
    induction xs generalizing before with
    | nil =>
        have hne : separator ≠ 'Σ' := by decide
        have hrest : lowercaseAfter (separator :: before) ys = lowercase ys :=
          lowercaseAfter_append_separator [] before ys
        rw [List.nil_append, lowercaseAfter, lowercaseAfter, if_neg hne, lowerChar_separator, hrest]
        rfl
    | cons c xs ih =>
        rw [List.cons_append, lowercaseAfter, lowercaseAfter, ih, lowerSigma, lowerSigma,
          casedAhead_append_separator, List.append_assoc]
  exact after []

/-- A letter of no run stays as it is; one of a run becomes a letter of the run's lower-case
forms. -/
theorem lowerInRun_cases (n : Nat) (runs : List (Nat × Nat × Nat × Nat)) :
    lowerInRun n runs = n ∨ ∃ r ∈ runs, ∃ k ≤ r.2.1 - r.1, k % r.2.2.1 = 0 ∧
      lowerInRun n runs = r.2.2.2 + k := by
  induction runs with
  | nil => exact .inl rfl
  | cons r runs ih =>
      obtain ⟨first, last, step, target⟩ := r
      by_cases hin : first ≤ n ∧ n ≤ last ∧ (n - first) % step = 0
      · rw [lowerInRun, if_pos hin]
        exact .inr ⟨_, List.mem_cons_self, n - first, Nat.sub_le_sub_right hin.2.1 first, hin.2.2,
          rfl⟩
      · rw [lowerInRun, if_neg hin]
        rcases ih with h | ⟨r', hr', h⟩
        · exact .inl h
        · exact .inr ⟨r', List.mem_cons_of_mem _ hr', h⟩

/-- A character other than the null character is the one of its number alone. -/
theorem eq_toNat_of_ofNat {n : Nat} {c : Char} (hc : 0 < c.toNat) (h : c = Char.ofNat n) :
    n = c.toNat := by
  subst h
  by_cases hn : n.isValidChar
  · rw [Char.ofNat, dif_pos hn]
    rfl
  · rw [Char.ofNat, dif_neg hn] at hc
    cases hc

/-- A lower-case form is of the character itself, or of a letter that has another form. -/
theorem mem_lowerChar_cases {c d : Char} (h : d ∈ lowerChar c) (hd : 0 < d.toNat) :
    d = c ∨ d ∈ ['i', '\u0307'] ∨ ∃ r ∈ lowercaseRuns, ∃ k ≤ r.2.1 - r.1, k % r.2.2.1 = 0 ∧
      d.toNat = r.2.2.2 + k := by
  rw [lowerChar] at h
  split at h
  · exact .inr (.inl h)
  · have hn := eq_toNat_of_ofNat hd (List.mem_singleton.mp h)
    rcases lowerInRun_cases c.toNat lowercaseRuns with hsame | ⟨r, hr, k, hk, hstep, hform⟩
    · exact .inl (Char.toNat_inj.mp (hn.symm.trans hsame))
    · exact .inr (.inr ⟨r, hr, k, hk, hstep, hn.symm.trans hform⟩)

/-- Lower-casing makes no separators. -/
theorem separator_not_mem_lowerChar {c : Char} (h : c ≠ separator) : separator ∉ lowerChar c := by
  intro hm
  have hruns : ∀ r ∈ lowercaseRuns, separator.toNat < r.2.2.2 := by decide +kernel
  rcases mem_lowerChar_cases hm (by decide) with rfl | hdot | ⟨r, hr, k, -, -, hform⟩
  · exact h rfl
  · revert hdot
    decide
  · have := hruns r hr
    omega

/-- Lower-casing makes no white space. -/
theorem isBlank_of_mem_lowerChar {c d : Char} (h : isBlank c = false) (hd : d ∈ lowerChar c) :
    isBlank d = false := by
  have hapart : ∀ r ∈ lowercaseRuns, ∀ b ∈ blankRanges,
      r.2.2.2 + (r.2.1 - r.1) < b.1 ∨ b.2 < r.2.2.2 := by decide +kernel
  by_contra hblank
  obtain ⟨b, hb, hlow, hhigh⟩ := inRanges_iff.mp (eq_true_of_ne_false hblank)
  have hpos : ∀ b ∈ blankRanges, 0 < b.1 := by decide
  rcases mem_lowerChar_cases hd ((hpos b hb).trans_le hlow) with
    rfl | hdot | ⟨r, hr, k, hk, -, hform⟩
  · exact hblank h
  · revert hdot hblank
    simp only [List.mem_cons, List.not_mem_nil, or_false]
    rintro hblank (rfl | rfl)
    · exact hblank (by decide)
    · exact hblank (by decide)
  · have := hapart r hr b hb
    omega

/-- A character of a text in lower case is a small sigma, or the lower-case form of a character of
the text that is no capital sigma. -/
theorem mem_lowercase_cases {cs : List Char} {d : Char} (hd : d ∈ lowercase cs) :
    d ∈ ['σ', 'ς'] ∨ ∃ c ∈ cs, c ≠ 'Σ' ∧ d ∈ lowerChar c := by
  have after (cs before : List Char) (h : d ∈ lowercaseAfter before cs) :
      d ∈ ['σ', 'ς'] ∨ ∃ c ∈ cs, c ≠ 'Σ' ∧ d ∈ lowerChar c := by
    induction cs generalizing before with
    | nil => cases h
    | cons c cs ih =>
        rcases List.mem_append.mp h with hfirst | hrest
        · split at hfirst
          · rw [List.mem_singleton.mp hfirst, lowerSigma]
            split <;> simp
          · exact .inr ⟨c, List.mem_cons_self, ‹_›, hfirst⟩
        · rcases ih _ hrest with hsigma | ⟨b, hb, hform⟩
          · exact .inl hsigma
          · exact .inr ⟨b, List.mem_cons_of_mem c hb, hform⟩
  exact after cs [] hd

theorem separator_not_mem_lowercase {cs : List Char} (h : separator ∉ cs) :
    separator ∉ lowercase cs := by
  intro hm
  rcases mem_lowercase_cases hm with hsigma | ⟨c, hc, -, hform⟩
  · revert hsigma
    decide
  · exact separator_not_mem_lowerChar (fun he => h (he ▸ hc)) hform

theorem lowered_ne_nil (before cs : List Char) (c : Char) :
    (if c = 'Σ' then [lowerSigma before cs] else lowerChar c) ≠ [] := by
  split
  · exact List.cons_ne_nil _ _
  · rw [lowerChar]
    split <;> exact List.cons_ne_nil _ _

theorem lowercaseAfter_ne_nil (before : List Char) {cs : List Char} (h : cs ≠ []) :
    lowercaseAfter before cs ≠ [] := by
  obtain ⟨c, cs, rfl⟩ := List.exists_cons_of_ne_nil h
  exact List.append_ne_nil_of_left_ne_nil (lowered_ne_nil before cs c) _

theorem lowercase_ne_nil {cs : List Char} (h : cs ≠ []) : lowercase cs ≠ [] :=
  lowercaseAfter_ne_nil [] h

/-! ## The ends of a text -/

/-- Where a character is not white space, its lower-case form there has none. -/
theorem isBlank_of_mem_lowered {before cs : List Char} {c d : Char} (h : isBlank c = false)
    (hd : d ∈ if c = 'Σ' then [lowerSigma before cs] else lowerChar c) : isBlank d = false := by
  split at hd
  · rw [List.mem_singleton.mp hd, lowerSigma]
    split <;> decide
  · exact isBlank_of_mem_lowerChar h hd

theorem isBlank_head?_lowercase {cs : List Char} (h : ∀ c ∈ cs.head?, isBlank c = false) :
    ∀ d ∈ (lowercase cs).head?, isBlank d = false := by
  intro d hd
  cases cs with
  | nil => cases hd
  | cons c cs =>
      have hfirst : lowercase (c :: cs)
          = (if c = 'Σ' then [lowerSigma [] cs] else lowerChar c) ++ lowercaseAfter [c] cs := rfl
      rw [hfirst, List.head?_append_of_ne_nil _ (lowered_ne_nil [] cs c)] at hd
      exact isBlank_of_mem_lowered (h c rfl) (List.mem_of_mem_head? hd)

theorem isBlank_getLast?_lowercase {cs : List Char} (h : ∀ c ∈ cs.getLast?, isBlank c = false) :
    ∀ d ∈ (lowercase cs).getLast?, isBlank d = false := by
  have after (before : List Char) :
      ∀ d ∈ (lowercaseAfter before cs).getLast?, isBlank d = false := by
    induction cs generalizing before with
    | nil => exact fun d hd => (by cases hd)
    | cons c cs ih =>
        intro d hd
        rw [lowercaseAfter] at hd
        by_cases h0 : cs = []
        · subst h0
          rw [lowercaseAfter, List.append_nil] at hd
          exact isBlank_of_mem_lowered (h c rfl) (List.mem_of_getLast? hd)
        · rw [List.getLast?_append_of_ne_nil _ (lowercaseAfter_ne_nil _ h0)] at hd
          refine ih ?_ (c :: before) d hd
          rwa [List.getLast?_cons_of_ne_nil h0] at h
  exact after []

/-! ## Lower-case letters -/

theorem lowerInRun_eq_self {n : Nat} {runs : List (Nat × Nat × Nat × Nat)}
    (h : ∀ r ∈ runs, ¬(r.1 ≤ n ∧ n ≤ r.2.1 ∧ (n - r.1) % r.2.2.1 = 0)) :
    lowerInRun n runs = n := by
  induction runs with
  | nil => rfl
  | cons r runs ih =>
      obtain ⟨hr, hruns⟩ := List.forall_mem_cons.mp h
      rw [lowerInRun, if_neg hr, ih hruns]

/-- Whether no lower-case form of the first run is a letter of the second: they lie apart, or they
alternate. -/
def formsMiss (r q : Nat × Nat × Nat × Nat) : Bool :=
  Nat.blt (r.2.2.2 + (r.2.1 - r.1)) q.1 || Nat.blt q.2.1 r.2.2.2 ||
    ((r.2.2.1 == 2 || r.1 == r.2.1) && q.2.2.1 == 2 && (r.2.2.2 + q.1) % 2 == 1)

theorem formsMiss_runs : ∀ r ∈ lowercaseRuns, lowercaseRuns.all (formsMiss r) = true := by
  decide +kernel

/-- The lower-case forms of a run stay as they are. -/
theorem lowerInRun_form {r : Nat × Nat × Nat × Nat} (hr : r ∈ lowercaseRuns) {k : Nat}
    (hk : k ≤ r.2.1 - r.1) (hstep : k % r.2.2.1 = 0) :
    lowerInRun (r.2.2.2 + k) lowercaseRuns = r.2.2.2 + k := by
  refine lowerInRun_eq_self ?_
  rintro q hq ⟨hlow, hhigh, hletter⟩
  have hmiss := List.all_eq_true.mp (formsMiss_runs r hr) q hq
  simp only [formsMiss, Bool.or_eq_true, Bool.and_eq_true, Nat.blt_eq, beq_iff_eq] at hmiss
  rcases hmiss with (hbelow | habove) | ⟨⟨hsteps, htwo⟩, hodd⟩
  · omega
  · omega
  · have heven : k % 2 = 0 := by
      rcases hsteps with h2 | hone
      · rwa [h2] at hstep
      · omega
    rw [htwo] at hletter
    omega

/-- A character that lower-casing leaves alone, whatever stands around it. -/
def IsSettled (c : Char) : Prop := c ≠ 'Σ' ∧ lowerChar c = [c]

instance : DecidablePred IsSettled := fun c =>
  inferInstanceAs (Decidable (c ≠ 'Σ' ∧ lowerChar c = [c]))

theorem isSettled_of_form {d : Char} {r : Nat × Nat × Nat × Nat} (hr : r ∈ lowercaseRuns) {k : Nat}
    (hk : k ≤ r.2.1 - r.1) (hstep : k % r.2.2.1 = 0) (hform : d.toNat = r.2.2.2 + k) :
    IsSettled d := by
  have hkept : lowerInRun d.toNat lowercaseRuns = d.toNat := by
    rw [hform]
    exact lowerInRun_form hr hk hstep
  have hsigma : d ≠ 'Σ' := by
    rintro rfl
    revert hkept
    decide +kernel
  have hdotted : d ≠ 'İ' := by
    have hruns : ∀ r ∈ lowercaseRuns,
        r.2.2.2 + (r.2.1 - r.1) < 'İ'.toNat ∨ 'İ'.toNat < r.2.2.2 := by decide +kernel
    rintro rfl
    have := hruns r hr
    omega
  refine ⟨hsigma, ?_⟩
  rw [lowerChar, if_neg hdotted, hkept, Char.ofNat_toNat]

theorem isSettled_of_mem_self {c : Char} (hc : c ≠ 'Σ') (h : c ∈ lowerChar c) : IsSettled c := by
  refine ⟨hc, ?_⟩
  by_cases hdotted : c = 'İ'
  · subst hdotted
    revert h
    decide
  · rw [lowerChar, if_neg hdotted] at h ⊢
    rw [← List.mem_singleton.mp h]

theorem isSettled_of_mem_lowerChar {c d : Char} (hc : c ≠ 'Σ') (hd : d ∈ lowerChar c) :
    IsSettled d := by
  rcases Nat.eq_zero_or_pos d.toNat with hzero | hpos
  · obtain rfl : d = '\x00' := Char.toNat_inj.mp hzero
    decide +kernel
  rcases mem_lowerChar_cases hd hpos with rfl | hdot | ⟨r, hr, k, hk, hstep, hform⟩
  · exact isSettled_of_mem_self hc hd
  · simp only [List.mem_cons, List.not_mem_nil, or_false] at hdot
    rcases hdot with rfl | rfl <;> decide +kernel
  · exact isSettled_of_form hr hk hstep hform

theorem isSettled_of_mem_lowercase {cs : List Char} {d : Char} (hd : d ∈ lowercase cs) :
    IsSettled d := by
  rcases mem_lowercase_cases hd with hsigma | ⟨c, -, hc, hform⟩
  · simp only [List.mem_cons, List.not_mem_nil, or_false] at hsigma
    rcases hsigma with rfl | rfl <;> decide +kernel
  · exact isSettled_of_mem_lowerChar hc hform

/-- Where there is no capital sigma no letter asks for its neighbours. -/
theorem lowercase_eq_self {cs : List Char} (h : ∀ c ∈ cs, IsSettled c) : lowercase cs = cs := by
  have after (before : List Char) : lowercaseAfter before cs = cs := by
    induction cs generalizing before with
    | nil => rfl
    | cons c cs ih =>
        obtain ⟨⟨hsigma, hc⟩, hcs⟩ := List.forall_mem_cons.mp h
        rw [lowercaseAfter, if_neg hsigma, hc, ih hcs, List.singleton_append]
  exact after []

/-- Lower-casing a text again changes nothing. -/
theorem lowercase_lowercase (cs : List Char) : lowercase (lowercase cs) = lowercase cs :=
  lowercase_eq_self fun _ => isSettled_of_mem_lowercase

/-- Whether one range of cased characters has all from the first to the last. -/
def casedOver (first last : Nat) : Bool :=
  casedRanges.any fun q => Nat.ble q.1 first && Nat.ble last q.2

theorem isCased_of_casedOver {first last : Nat} {c : Char} (h : casedOver first last = true)
    (hlow : first ≤ c.toNat) (hhigh : c.toNat ≤ last) : isCased c = true := by
  obtain ⟨q, hq, hover⟩ := List.any_eq_true.mp h
  simp only [Bool.and_eq_true, Nat.ble_eq] at hover
  exact inRanges_iff.mpr ⟨q, hq, hover.1.trans hlow, hhigh.trans hover.2⟩

/-- The letters of a run are cased, all in one range or each in its own. -/
theorem casedOver_runs : ∀ r ∈ lowercaseRuns, casedOver r.1 r.2.1 = true ∨
    ∀ k ≤ r.2.1 - r.1, k % r.2.2.1 = 0 → casedOver (r.1 + k) (r.1 + k) = true := by
  decide +kernel

/-- A letter that has a lower-case form is cased. -/
theorem isCased_of_lowerChar_ne {c : Char} (h : lowerChar c ≠ [c]) : isCased c = true := by
  by_cases hdotted : c = 'İ'
  · subst hdotted
    decide +kernel
  have hform : lowerInRun c.toNat lowercaseRuns ≠ c.toNat := by
    intro hself
    rw [lowerChar, if_neg hdotted, hself, Char.ofNat_toNat] at h
    exact h rfl
  obtain ⟨r, hr, hlow, hhigh, hletter⟩ :
      ∃ r ∈ lowercaseRuns, r.1 ≤ c.toNat ∧ c.toNat ≤ r.2.1 ∧ (c.toNat - r.1) % r.2.2.1 = 0 := by
    by_contra hnone
    exact hform (lowerInRun_eq_self fun r hr hin => hnone ⟨r, hr, hin⟩)
  rcases casedOver_runs r hr with hall | heach
  · exact isCased_of_casedOver hall hlow hhigh
  · have hown := heach _ (Nat.sub_le_sub_right hhigh r.1) hletter
    rw [Nat.add_sub_cancel' hlow] at hown
    exact isCased_of_casedOver hown le_rfl le_rfl

/-- A capital sigma at the end is final where a cased letter stands before it. -/
theorem exists_lowercase_sigma (cs : List Char) :
    ∃ front, lowercase (cs ++ ['Σ']) = front ++ [lowerSigma cs.reverse []] := by
  have after (before : List Char) : ∃ front,
      lowercaseAfter before (cs ++ ['Σ']) = front ++ [lowerSigma (cs.reverse ++ before) []] := by
    induction cs generalizing before with
    | nil => exact ⟨[], rfl⟩
    | cons c cs ih =>
        obtain ⟨front, hfront⟩ := ih (c :: before)
        refine ⟨(if c = 'Σ' then [lowerSigma before (cs ++ ['Σ'])] else lowerChar c) ++ front, ?_⟩
        rw [List.cons_append, lowercaseAfter, hfront, List.reverse_cons, List.append_assoc,
          List.append_assoc, List.singleton_append]
  obtain ⟨front, hfront⟩ := after []
  rw [List.append_nil] at hfront
  exact ⟨front, hfront⟩

-- the letter before the sigma is in Unicode since version 16
example : lowercase ['\u1c89', 'Σ'] = ['\u1c8a', 'ς'] := by decide +kernel

end Strata.Text

namespace Strata.Path

/-- A name in lower case. -/
def lower (name : String) : String := String.ofList (Text.lowercase name.toList)

theorem IsComponent.lower {n : String} (h : IsComponent n) : IsComponent (lower n) := by
  refine ⟨fun he => ?_, by simpa [Path.lower] using Text.separator_not_mem_lowercase h.2⟩
  refine Text.lowercase_ne_nil h.toList_ne_nil ?_
  simpa [Path.lower] using congrArg String.toList he

/-- The names of a path in normal form, each in lower case, are those of a path in normal form. -/
theorem IsPath.lower {ns : List String} (h : IsPath ns) : IsPath (ns.map lower) where
  component n hn := by
    obtain ⟨m, hm, rfl⟩ := List.mem_map.mp hn
    exact (h.component m hm).lower
  front n hn c hc := by
    rw [List.head?_map] at hn
    obtain ⟨m, hm, rfl⟩ := Option.map_eq_some_iff.mp hn
    exact Text.isBlank_head?_lowercase (h.front m hm) c (by simpa [Path.lower] using hc)
  back n hn c hc := by
    rw [List.getLast?_map] at hn
    obtain ⟨m, hm, rfl⟩ := Option.map_eq_some_iff.mp hn
    exact Text.isBlank_getLast?_lowercase (h.back m hm) c (by simpa [Path.lower] using hc)

/-- A name in lower case is a name. -/
theorem IsName.lower {n : String} (h : IsName n) : IsName (lower n) :=
  (isPath_of_isName (List.forall_mem_singleton.mpr h)).lower.isName

theorem lower_lower (name : String) : lower (lower name) = lower name := by
  simp [lower, Text.lowercase_lowercase]

/-- To fold a path is to bring it into normal form and lower-case it. -/
theorem normalize_fold (path : String) : normalize path true = lower (normalize path false) := by
  simp [normalize, normalizeChars, lower]

/-- The names of a path are lower-cased one by one. -/
theorem lower_ofNames (ns : List String) : lower (ofNames ns) = ofNames (ns.map lower) := by
  induction ns with
  | nil => rfl
  | cons n ns ih =>
      by_cases h0 : ns = []
      · subst h0
        rw [List.map_singleton, ofNames_singleton, ofNames_singleton]
      · have hmap : ns.map lower ≠ [] := by simpa using h0
        refine String.toList_inj.mp ?_
        have hfront := toList_ofNames_append (List.cons_ne_nil (lower n) []) hmap
        have hback := toList_ofNames_append (List.cons_ne_nil n []) h0
        rw [ofNames_singleton, List.singleton_append] at hfront hback
        rw [List.map_cons, hfront, ← ih, lower, hback, Text.lowercase_append_separator]
        simp [lower]

/-- The names of a folded path are those of the path, each in lower case. -/
theorem components_normalize_fold (path : String) :
    components (normalize path true) = (components (normalize path false)).map lower := by
  rw [normalize_fold, ← ofNames_components_normalize, lower_ofNames, components_ofNames,
    components_ofNames fun _ => isComponent_of_mem]
  intro n hn
  obtain ⟨m, hm, rfl⟩ := List.mem_map.mp hn
  exact (isComponent_of_mem hm).lower

theorem ofNames_components_normalize_fold (path : String) :
    ofNames (components (normalize path true)) = normalize path true := by
  rw [components_normalize_fold, ← lower_ofNames, ofNames_components_normalize, normalize_fold]

theorem components_normalize_fold_ne_nil {path : String} (h : normalize path true ≠ "") :
    components (normalize path true) ≠ [] :=
  fun hnil => h (by rw [← ofNames_components_normalize_fold, hnil, ofNames_nil])

theorem ofNames_components_normalize_key (fold : Bool) (path : String) :
    ofNames (components (normalize path fold)) = normalize path fold := by
  cases fold with
  | true => exact ofNames_components_normalize_fold path
  | false => exact ofNames_components_normalize path

theorem components_normalize_key_ne_nil {path : String} {fold : Bool}
    (h : normalize path fold ≠ "") : components (normalize path fold) ≠ [] :=
  fun hnil => h (by rw [← ofNames_components_normalize_key, hnil, ofNames_nil])

/-- A clean path folds as another text does if its names, in lower case, are those of the text. -/
theorem Clean.normalize_fold_eq_iff {path : String} (h : Clean path) (other : String) :
    normalize path true = normalize other true ↔
      (components path).map lower = components (normalize other true) := by
  constructor
  · intro he
    rw [← he, components_normalize_fold, h.1]
  · intro he
    rw [normalize_fold, h.1, ← h.ofNames_components, lower_ofNames, he,
      ofNames_components_normalize_fold]

/-- The names of a clean path whose folded names end in a name. -/
theorem Clean.exists_snoc_of_fold {path other c : String} {names : List String} (h : Clean path)
    (hfold : normalize path true = normalize other true)
    (hnames : components (normalize other true) = names ++ [c]) :
    ∃ ns x, path = ofNames (ns ++ [x]) ∧ (∀ n ∈ ns ++ [x], IsName n) ∧ ns.map lower = names ∧
      lower x = c := by
  rw [h.normalize_fold_eq_iff, hnames] at hfold
  obtain ⟨ns, xs, hpath, hns, hxs⟩ := List.map_eq_append_iff.mp hfold
  obtain ⟨x, rfl, hx⟩ := List.map_eq_singleton_iff.mp hxs
  exact ⟨ns, x, by rw [← hpath, h.ofNames_components], hpath ▸ fun n hn => h.isName hn, hns, hx⟩

/-- Paths of names that are the same in lower case fold to the same. -/
theorem normalize_fold_ofNames {ns ms : List String} (hn : ∀ n ∈ ns, IsName n)
    (hm : ∀ m ∈ ms, IsName m) (h : ns.map lower = ms.map lower) :
    normalize (ofNames ns) true = normalize (ofNames ms) true := by
  rw [normalize_fold, normalize_fold, normalize_ofNames hn, normalize_ofNames hm, lower_ofNames,
    lower_ofNames, h]

end Strata.Path
