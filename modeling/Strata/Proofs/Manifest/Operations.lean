/-
# `Strata.Proofs.Manifest.Operations` — operations by name, and layers in one line

A token is understood if it is the name of an operation or a run of letters of operations, in
either case of the letters (`IsToken`); no name is such a run.  A list of tokens is read as the set
of all that its tokens denote, or the first token that is not understood is the problem.

A layer in one line is cut at its last colon, if there is something before it.  What is read from a
line can be written as a line again and is read from that as the same layer.
-/
import Strata.Manifest.Build
import Strata.Proofs.Action
import Strata.Proofs.Path

namespace Strata.Manifest

open Strata.Text

variable {t p : String} {op op' : Operation} {ops : List Operation} {cs root : List Char}

/-! ## What a token denotes -/

/-- The characters of a text, its ASCII letters in lower case. -/
def lowered (t : String) : List Char := t.toList.map Char.toLower

/-- The text is the name of the operation. -/
def Names (t : String) (op : Operation) : Prop := lowered t = op.name.toList

/-- The text is a run of letters of operations, perhaps an empty one. -/
def IsRun (t : String) : Prop := ∀ c ∈ lowered t, ∃ op : Operation, c = op.letter

/-- The text is understood as a token. -/
def IsToken (t : String) : Prop := (∃ op, Names t op) ∨ IsRun t

/-- The operation is the one that the token names, or one of those that its letters stand for. -/
def Denotes (t : String) (op : Operation) : Prop :=
  Names t op ∨ IsRun t ∧ op.letter ∈ lowered t

theorem letter_injective (h : op.letter = op'.letter) : op = op' := by
  cases op <;> cases op' <;> simp_all [Operation.letter]

theorem name_injective (h : op.name.toList = op'.name.toList) : op = op' := by
  cases op <;> cases op' <;> simp_all [Operation.name]

/-- Every name has a letter that stands for no operation. -/
theorem Names.not_isRun (h : Names t op) : ¬IsRun t := by
  intro hrun
  rw [Names] at h
  rw [IsRun, h] at hrun
  cases op
  · obtain ⟨op', he⟩ := hrun 'e' (by decide)
    cases op' <;> cases he
  · obtain ⟨op', he⟩ := hrun 'i' (by decide)
    cases op' <;> cases he
  · obtain ⟨op', he⟩ := hrun 'e' (by decide)
    cases op' <;> cases he
  · obtain ⟨op', he⟩ := hrun 'e' (by decide)
    cases op' <;> cases he

theorem Names.denotes_iff (h : Names t op) : Denotes t op' ↔ op' = op := by
  constructor
  · rintro (h' | ⟨hrun, -⟩)
    · exact name_injective (h'.symm.trans h)
    · exact absurd hrun h.not_isRun
  · rintro rfl
    exact .inl h

theorem IsRun.denotes_iff (h : IsRun t) : Denotes t op ↔ op.letter ∈ lowered t :=
  ⟨fun hd => hd.elim (fun hn => absurd h hn.not_isRun) And.right, fun hl => .inr ⟨h, hl⟩⟩

/-! ## Reading a token -/

theorem ofName?_eq_some :
    Operation.ofName? t = some op ↔ Names t op ∨ lowered t = [op.letter] := by
  rw [Operation.ofName?, ← lowered]
  constructor
  · intro h
    simpa [Names] using List.find?_some h
  · rintro (h | h)
    · rw [Names] at h
      rw [h]
      cases op <;> rfl
    · rw [h]
      cases op <;> rfl

theorem ofName?_letter {c : Char} :
    Operation.ofName? (String.ofList [c]) = some op ↔ c.toLower = op.letter := by
  have hone : lowered (String.ofList [c]) = [c.toLower] := by simp [lowered]
  rw [ofName?_eq_some, Names, hone, List.singleton_inj]
  refine or_iff_right ?_
  cases op <;> simp [Operation.name]

theorem operationsOfLetters_eq_some (h : operationsOfLetters cs = some ops) :
    (∀ c ∈ cs.map Char.toLower, ∃ op : Operation, c = op.letter) ∧
      ∀ op, op ∈ ops ↔ op.letter ∈ cs.map Char.toLower := by
  induction cs generalizing ops with
  | nil =>
    obtain rfl : [] = ops := Option.some.inj h
    simp
  | cons c cs ih =>
    obtain ⟨op, hop, h⟩ := Option.bind_eq_some_iff.mp h
    obtain ⟨ops', hops, h⟩ := Option.bind_eq_some_iff.mp h
    obtain rfl : op :: ops' = ops := Option.some.inj h
    obtain ⟨hall, hmem⟩ := ih hops
    have hc := ofName?_letter.mp hop
    refine ⟨List.forall_mem_cons.mpr ⟨⟨op, hc⟩, hall⟩, fun op' => ?_⟩
    rw [List.map_cons, List.mem_cons, List.mem_cons, hmem, hc]
    exact or_congr_left ⟨congrArg _, letter_injective⟩

theorem operationsOfLetters_isSome
    (h : ∀ c ∈ cs.map Char.toLower, ∃ op : Operation, c = op.letter) :
    ∃ ops, operationsOfLetters cs = some ops := by
  induction cs with
  | nil => exact ⟨[], rfl⟩
  | cons c cs ih =>
    obtain ⟨⟨op, hop⟩, hcs⟩ := List.forall_mem_cons.mp h
    obtain ⟨ops, hops⟩ := ih hcs
    exact ⟨op :: ops, by rw [operationsOfLetters, ofName?_letter.mpr hop, hops]; rfl⟩

theorem operationsOfToken_eq_some (h : operationsOfToken t = some ops) :
    IsToken t ∧ ∀ op, op ∈ ops ↔ Denotes t op := by
  rw [operationsOfToken] at h
  split at h
  · rename_i op hop
    obtain rfl : [op] = ops := Option.some.inj h
    rcases ofName?_eq_some.mp hop with hname | hone
    · exact ⟨.inl ⟨op, hname⟩, fun op' => List.mem_singleton.trans hname.denotes_iff.symm⟩
    · have hrun : IsRun t := by
        rw [IsRun, hone]
        exact List.forall_mem_singleton.mpr ⟨op, rfl⟩
      refine ⟨.inr hrun, fun op' => ?_⟩
      rw [hrun.denotes_iff, hone, List.mem_singleton, List.mem_singleton]
      exact ⟨congrArg _, letter_injective⟩
  · obtain ⟨hrun, hmem⟩ := operationsOfLetters_eq_some h
    exact ⟨.inr hrun, fun op => (hmem op).trans (IsRun.denotes_iff hrun).symm⟩

theorem exists_operationsOfToken (h : IsToken t) : ∃ ops, operationsOfToken t = some ops := by
  rw [operationsOfToken]
  rcases h with ⟨op, hname⟩ | hrun
  · rw [ofName?_eq_some.mpr (.inl hname)]
    exact ⟨[op], rfl⟩
  · split
    · exact ⟨_, rfl⟩
    · exact operationsOfLetters_isSome hrun

theorem operationsOfToken_eq_none : operationsOfToken t = none ↔ ¬IsToken t := by
  constructor
  · intro h htoken
    obtain ⟨ops, hops⟩ := exists_operationsOfToken htoken
    rw [h] at hops
    cases hops
  · intro h
    cases hops : operationsOfToken t with
    | none => rfl
    | some ops => exact absurd (operationsOfToken_eq_some hops).1 h

/-! ## Reading tokens -/

theorem mem_ofList : op ∈ Operations.ofList ops ↔ op ∈ ops := by
  suffices h : ∀ acc : Operations, op ∈ ops.foldl (fun acc op => acc ∪ Operations.only op) acc ↔
      op ∈ acc ∨ op ∈ ops by
    refine (h Operations.none).trans (or_iff_right ?_)
    cases op <;> decide
  induction ops with
  | nil => simp
  | cons op' ops ih =>
    intro acc
    rw [List.foldl_cons, ih, Operations.mem_union, Operations.mem_only, List.mem_cons, or_assoc]

/-- Tokens that are all understood are read as all that they denote. -/
theorem operationsOfTokens_ok {tokens : List String} (h : ∀ t ∈ tokens, IsToken (trim t)) :
    ∃ set, operationsOfTokens tokens = .ok set ∧
      ∀ op, op ∈ set ↔ ∃ t ∈ tokens, Denotes (trim t) op := by
  induction tokens with
  | nil =>
    refine ⟨.none, rfl, fun op => iff_of_false ?_ (by simp)⟩
    cases op <;> decide
  | cons t tokens ih =>
    obtain ⟨ht, htokens⟩ := List.forall_mem_cons.mp h
    obtain ⟨ops, hops⟩ := exists_operationsOfToken ht
    obtain ⟨set, hset, hmem⟩ := ih htokens
    refine ⟨.ofList ops ∪ set, by simp only [operationsOfTokens, hops, hset]; rfl, fun op => ?_⟩
    rw [Operations.mem_union, mem_ofList, (operationsOfToken_eq_some hops).2, hmem,
      List.exists_mem_cons_iff]

/-- The first token that is not understood is the problem, whatever comes after it. -/
theorem operationsOfTokens_error {front back : List String} (h : ∀ t ∈ front, IsToken (trim t))
    (ht : ¬IsToken (trim t)) :
    operationsOfTokens (front ++ t :: back) = .error (.unknownOperation (trim t)) := by
  induction front with
  | nil => simp only [List.nil_append, operationsOfTokens, operationsOfToken_eq_none.mpr ht]
  | cons u front ih =>
    obtain ⟨hu, hfront⟩ := List.forall_mem_cons.mp h
    obtain ⟨ops, hops⟩ := exists_operationsOfToken hu
    simp only [List.cons_append, operationsOfTokens, hops, ih hfront]
    rfl

/-- All tokens are understood, or there is a first one that is not. -/
theorem isToken_or_exists_first (tokens : List String) :
    (∀ t ∈ tokens, IsToken (trim t)) ∨ ∃ front t back, tokens = front ++ t :: back ∧
      (∀ u ∈ front, IsToken (trim u)) ∧ ¬IsToken (trim t) := by
  induction tokens with
  | nil => exact .inl (by simp)
  | cons t tokens ih =>
    by_cases ht : IsToken (trim t)
    · rcases ih with hall | ⟨front, u, back, rfl, hfront, hu⟩
      · exact .inl (List.forall_mem_cons.mpr ⟨ht, hall⟩)
      · exact .inr ⟨t :: front, u, back, rfl, List.forall_mem_cons.mpr ⟨ht, hfront⟩, hu⟩
    · exact .inr ⟨[], t, tokens, rfl, by simp, ht⟩

theorem operationsOfTokens_eq_ok {tokens : List String} {set : Operations} :
    operationsOfTokens tokens = .ok set ↔
      (∀ t ∈ tokens, IsToken (trim t)) ∧ ∀ op, op ∈ set ↔ ∃ t ∈ tokens, Denotes (trim t) op := by
  rcases isToken_or_exists_first tokens with hall | ⟨front, t, back, rfl, hfront, ht⟩
  · obtain ⟨set', hset, hmem⟩ := operationsOfTokens_ok hall
    rw [hset, Except.ok.injEq]
    constructor
    · rintro rfl
      exact ⟨hall, hmem⟩
    · rintro ⟨-, h⟩
      exact Operations.ext_mem fun op => (hmem op).trans (h op).symm
  · rw [operationsOfTokens_error hfront ht]
    exact iff_of_false (by simp) fun h => ht (h.1 t (by simp))

theorem operationsOfTokens_eq_error {tokens : List String} {problem : Problem} :
    operationsOfTokens tokens = .error problem ↔
      ∃ front t back, tokens = front ++ t :: back ∧ (∀ u ∈ front, IsToken (trim u)) ∧
        ¬IsToken (trim t) ∧ problem = .unknownOperation (trim t) := by
  constructor
  · intro h
    rcases isToken_or_exists_first tokens with hall | ⟨front, t, back, rfl, hfront, ht⟩
    · obtain ⟨set, hset, -⟩ := operationsOfTokens_ok hall
      rw [hset] at h
      cases h
    · rw [operationsOfTokens_error hfront ht] at h
      exact ⟨front, t, back, rfl, hfront, ht, (Except.error.inj h).symm⟩
  · rintro ⟨front, t, back, rfl, hfront, ht, rfl⟩
    exact operationsOfTokens_error hfront ht

/-! ## Layers in one line -/

/-- The line of a directory layer: its root, and its operations after a colon if it has any. -/
def specText (root : String) : Option (List String) → String
  | none => root
  | some tokens => root ++ ":" ++ ",".intercalate tokens

/-- A line whose last colon is not at its start is cut there. -/
theorem ofSpec_of_colon (hroot : root ≠ []) (h : ':' ∉ cs) :
    Layer.ofSpec (String.ofList (root ++ ':' :: cs)) = do
      let _ ← operationsOfTokens (tokensOf cs)
      return .directory (String.ofList root) (some (tokensOf cs)) := by
  obtain ⟨front, c, rfl⟩ := (List.eq_nil_or_concat' root).resolve_left hroot
  have hclear : ∀ x ∈ cs.reverse, (x != ':') = true := fun x hx => by
    simpa using fun he : x = ':' => h (he ▸ List.mem_reverse.mp hx)
  have hback : (String.ofList (front ++ [c] ++ ':' :: cs)).toList.reverse
      = cs.reverse ++ ':' :: c :: front.reverse := by simp
  have hdrop : (cs.reverse ++ ':' :: c :: front.reverse).dropWhile (· != ':')
      = ':' :: c :: front.reverse := by
    rw [List.dropWhile_append_of_pos hclear]
    rfl
  have htake : (cs.reverse ++ ':' :: c :: front.reverse).takeWhile (· != ':') = cs.reverse := by
    rw [List.takeWhile_append_of_pos hclear]
    simp
  rw [Layer.ofSpec, hback, hdrop, htake, List.reverse_reverse]
  simp

/-- Any other line is the name of a directory. -/
theorem ofSpec_of_no_colon {line : String}
    (h : ∀ root cs, line.toList = root ++ ':' :: cs → ':' ∉ cs → root = []) :
    Layer.ofSpec line = .ok (.directory line none) := by
  have hdrop : line.toList.reverse.dropWhile (· != ':') = [] ∨
      line.toList.reverse.dropWhile (· != ':') = [':'] := by
    by_cases hcolon : ':' ∈ line.toList
    · obtain ⟨root, cs, hline, hcs⟩ := exists_last_of_mem hcolon
      obtain rfl := h root cs hline hcs
      have hclear : ∀ x ∈ cs.reverse, (x != ':') = true := fun x hx => by
        simpa using fun he : x = ':' => hcs (he ▸ List.mem_reverse.mp hx)
      refine .inr ?_
      rw [hline, List.nil_append, List.reverse_cons, List.dropWhile_append_of_pos hclear]
      rfl
    · refine .inl (List.dropWhile_eq_nil_iff.mpr fun x hx => ?_)
      simpa using fun he : x = ':' => hcolon (he ▸ List.mem_reverse.mp hx)
  rcases hdrop with hdrop | hdrop <;> simp [Layer.ofSpec, hdrop]

/-- Each line is one or the other. -/
theorem colon_or_no_colon (line : String) :
    (∃ root cs, line = String.ofList (root ++ ':' :: cs) ∧ root ≠ [] ∧ ':' ∉ cs) ∨
      ∀ root cs, line.toList = root ++ ':' :: cs → ':' ∉ cs → root = [] := by
  by_cases h : ∃ root cs, line.toList = root ++ ':' :: cs ∧ ':' ∉ cs ∧ root ≠ []
  · obtain ⟨root, cs, hline, hcs, hroot⟩ := h
    exact .inl ⟨root, cs, by rw [← hline, String.ofList_toList], hroot, hcs⟩
  · refine .inr fun root cs hline hcs => ?_
    by_contra hroot
    exact h ⟨root, cs, hline, hcs, hroot⟩

/-! ## Tokens between commas -/

theorem mem_intercalate_of_mem {x c : Char} {piece : List Char} {pieces : List (List Char)}
    (hpiece : piece ∈ pieces) (hc : c ∈ piece) : c ∈ [x].intercalate pieces := by
  induction pieces with
  | nil => cases hpiece
  | cons first rest ih =>
    cases rest with
    | nil =>
      obtain rfl := List.mem_singleton.mp hpiece
      simpa [List.intercalate] using hc
    | cons next rest =>
      rw [List.intercalate_cons_cons]
      rcases List.mem_cons.mp hpiece with rfl | hpiece
      · simp [hc]
      · simp [ih hpiece]

theorem mem_of_mem_intercalate {x c : Char} {pieces : List (List Char)}
    (h : c ∈ [x].intercalate pieces) : c = x ∨ ∃ piece ∈ pieces, c ∈ piece := by
  induction pieces with
  | nil => cases h
  | cons first rest ih =>
    cases rest with
    | nil => exact .inr ⟨first, List.mem_cons_self, by simpa [List.intercalate] using h⟩
    | cons next rest =>
      rw [List.intercalate_cons_cons, List.mem_append, List.mem_append, List.mem_singleton] at h
      rcases h with (h | h) | h
      · exact .inr ⟨first, List.mem_cons_self, h⟩
      · exact .inl h
      · refine (ih h).imp_right ?_
        rintro ⟨piece, hpiece, hc⟩
        exact ⟨piece, List.mem_cons_of_mem _ hpiece, hc⟩

theorem mem_tokensOf : t ∈ tokensOf cs ↔ t ≠ "" ∧ t.toList ∈ split ',' cs := by
  rw [tokensOf, List.mem_map]
  constructor
  · rintro ⟨piece, hpiece, rfl⟩
    obtain ⟨hmem, hne⟩ := List.mem_filter.mp hpiece
    exact ⟨by simpa using hne, by rwa [String.toList_ofList]⟩
  · rintro ⟨hne, hmem⟩
    exact ⟨t.toList, List.mem_filter.mpr ⟨hmem, by simpa using hne⟩, String.ofList_toList⟩

/-- What stands between commas is a token everywhere, if it is one where it is not empty. -/
theorem forall_mem_tokensOf :
    (∀ t ∈ tokensOf cs, IsToken (trim t)) ↔
      ∀ piece ∈ split ',' cs, IsToken (trim (String.ofList piece)) := by
  constructor
  · intro h piece hpiece
    by_cases hne : String.ofList piece = ""
    · have hnone : lowered (trim "") = [] := by decide
      rw [hne]
      exact .inr (by simp [IsRun, hnone])
    · exact h _ (mem_tokensOf.mpr ⟨hne, by rwa [String.toList_ofList]⟩)
  · intro h t ht
    have := h _ (mem_tokensOf.mp ht).2
    rwa [String.ofList_toList] at this

/-- Tokens that are written between commas are read again. -/
theorem tokensOf_intercalate {tokens : List String} (h : ∀ t ∈ tokens, t ≠ "" ∧ ',' ∉ t.toList) :
    tokensOf (",".intercalate tokens).toList = tokens := by
  by_cases hnil : tokens = []
  · subst hnil
    decide
  · have hpieces : split ',' (",".intercalate tokens).toList = tokens.map String.toList := by
      rw [String.toList_intercalate, split_eq_splitOn]
      refine List.splitOn_intercalate _ ?_ (by simpa using hnil)
      exact List.forall_mem_map.mpr fun t ht => (h t ht).2
    have hfull : (tokens.map String.toList).filter (!·.isEmpty) = tokens.map String.toList :=
      List.filter_eq_self.mpr (List.forall_mem_map.mpr fun t ht => by simpa using (h t ht).1)
    rw [tokensOf, hpieces, hfull, List.map_map]
    simp

/-! ## Reading back what was read -/

theorem operationsOf_some {tokens : List String} {set : Operations}
    (h : operationsOfTokens tokens = .ok set) : operationsOf (some tokens) = .ok (some set) := by
  rw [operationsOf, h]
  rfl

/-- A layer that was read from a line has operations that are understood, and written as a line it
is read as itself. -/
theorem ofSpec_specText {line : String} {layer : Layer} (h : Layer.ofSpec line = .ok layer) :
    ∃ root names set, layer = .directory root names ∧ operationsOf names = .ok set ∧
      Layer.ofSpec (specText root names) = .ok layer := by
  rcases colon_or_no_colon line with ⟨root, cs, rfl, hroot, hcs⟩ | hwhole
  · rw [ofSpec_of_colon hroot hcs] at h
    obtain ⟨set, hset, h⟩ := bind_eq_ok.mp h
    obtain rfl := Except.ok.inj h
    refine ⟨_, _, _, rfl, operationsOf_some hset, ?_⟩
    have hplain : ∀ t ∈ tokensOf cs, t ≠ "" ∧ ',' ∉ t.toList := fun t ht =>
      ⟨(mem_tokensOf.mp ht).1, not_mem_of_mem_split (mem_tokensOf.mp ht).2⟩
    have hcolon : ':' ∉ (",".intercalate (tokensOf cs)).toList := by
      rw [String.toList_intercalate]
      intro hmem
      rcases mem_of_mem_intercalate hmem with he | ⟨piece, hpiece, hin⟩
      · exact absurd he (by decide)
      · obtain ⟨t, ht, rfl⟩ := List.mem_map.mp hpiece
        have hline := mem_intercalate_of_mem (x := ',') (mem_tokensOf.mp ht).2 hin
        rw [intercalate_split] at hline
        exact hcs hline
    have htext : specText (String.ofList root) (some (tokensOf cs))
        = String.ofList (root ++ ':' :: (",".intercalate (tokensOf cs)).toList) :=
      String.toList_inj.mp (by simp [specText])
    rw [htext, ofSpec_of_colon hroot hcolon, tokensOf_intercalate hplain, hset]
    rfl
  · rw [ofSpec_of_no_colon hwhole] at h
    obtain rfl := Except.ok.inj h
    exact ⟨line, none, none, rfl, rfl, ofSpec_of_no_colon hwhole⟩

/-- Tokens are read as the set of all that they denote if each of them is understood, and else the
first one that is not is the problem.  A line with a colon after its start is accepted if what
stands between the commas after its last colon is understood; a layer that is read from a line has
operations, and written as a line it is read as the same layer. -/
theorem tokens_read_and_lines_read_back :
    (∀ tokens set, operationsOfTokens tokens = .ok set ↔
      (∀ t ∈ tokens, IsToken (trim t)) ∧
        ∀ op, op ∈ set ↔ ∃ t ∈ tokens, Denotes (trim t) op) ∧
    (∀ tokens problem, operationsOfTokens tokens = .error problem ↔
      ∃ front t back, tokens = front ++ t :: back ∧ (∀ u ∈ front, IsToken (trim u)) ∧
        ¬IsToken (trim t) ∧ problem = .unknownOperation (trim t)) ∧
    (∀ root cs, root ≠ [] → ':' ∉ cs →
      ((∃ layer, Layer.ofSpec (String.ofList (root ++ ':' :: cs)) = .ok layer) ↔
        ∀ piece ∈ split ',' cs, IsToken (trim (String.ofList piece)))) ∧
    ∀ line layer, Layer.ofSpec line = .ok layer →
      ∃ root names set, layer = .directory root names ∧ operationsOf names = .ok set ∧
        Layer.ofSpec (specText root names) = .ok layer := by
  refine ⟨fun _ _ => operationsOfTokens_eq_ok, fun _ _ => operationsOfTokens_eq_error, ?_,
    fun _ _ => ofSpec_specText⟩
  intro root cs hroot hcs
  rw [ofSpec_of_colon hroot hcs, ← forall_mem_tokensOf]
  constructor
  · rintro ⟨layer, h⟩
    obtain ⟨set, hset, -⟩ := bind_eq_ok.mp h
    exact (operationsOfTokens_eq_ok.mp hset).1
  · intro h
    obtain ⟨set, hset, -⟩ := operationsOfTokens_ok h
    exact ⟨_, bind_eq_ok.mpr ⟨set, hset, rfl⟩⟩

/-- A name with a colon in it, a blank before a token, an empty token and capitals. -/
theorem lines_read_back_two_colons :
    Layer.ofSpec "C:/mods: r,,Write,CD" = .ok (.directory "C:/mods" (some [" r", "Write", "CD"])) ∧
    ∃ root names set, Layer.directory "C:/mods" (some [" r", "Write", "CD"]) = .directory root names ∧
      operationsOf names = .ok set ∧
      Layer.ofSpec (specText root names)
        = .ok (.directory "C:/mods" (some [" r", "Write", "CD"])) := by
  have hread : Layer.ofSpec "C:/mods: r,,Write,CD"
      = .ok (.directory "C:/mods" (some [" r", "Write", "CD"])) := by
    rfl
  exact ⟨hread, tokens_read_and_lines_read_back.2.2.2 _ _ hread⟩

end Strata.Manifest
