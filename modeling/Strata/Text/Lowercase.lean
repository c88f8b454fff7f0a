/-
# `Strata.Text.Lowercase` — full lower-casing

A letter goes to its lower-case form, whatever stands around it, with two
exceptions.  The dotted capital `İ` has two characters for its lower case.  The
capital sigma has two forms: the final one where a word ends, that is, where a
cased letter stands before it and none after it.  Characters that Unicode calls
case-ignorable (apostrophes, full stops, combining marks) are passed over when
the neighbours are looked for; the separator `/` and the blanks are not, so a
word never reaches across them.
-/
import Strata.Text.CaseTable

namespace Strata.Text

/-- Whether the character has a case and takes part in finding a word's end. -/
def isCased (c : Char) : Bool := inRanges casedRanges c

/-- Whether the character is passed over when a word's end is looked for. -/
def isCaseIgnorable (c : Char) : Bool := inRanges caseIgnorableRanges c

/-- The lower-case form of one letter of a run, counted from the run's start. -/
def lowerInRun (n : Nat) : List (Nat × Nat × Nat × Nat) → Nat
  | [] => n
  | (first, last, step, target) :: rest =>
    if first ≤ n ∧ n ≤ last ∧ (n - first) % step = 0 then target + (n - first)
    else lowerInRun n rest

/-- The lower-case form of a character that does not depend on its neighbours. -/
def lowerChar (c : Char) : List Char :=
  if c = 'İ' then ['i', '\u0307'] else [Char.ofNat (lowerInRun c.toNat lowercaseRuns)]

/-- Whether a cased letter comes first once the case-ignorable characters are passed over. -/
def casedAhead (cs : List Char) : Bool :=
  match cs.dropWhile isCaseIgnorable with
  | [] => false
  | c :: _ => isCased c

/-- The lower-case form of a capital sigma between what stands before it, nearest
character first, and what follows. -/
def lowerSigma (before after : List Char) : Char :=
  if casedAhead before && !casedAhead after then 'ς' else 'σ'

/-- Lower-cases what follows `before`, which holds the nearest character first. -/
def lowercaseAfter (before : List Char) : List Char → List Char
  | [] => []
  | c :: cs =>
    (if c = 'Σ' then [lowerSigma before cs] else lowerChar c) ++ lowercaseAfter (c :: before) cs

/-- The text in lower case. -/
def lowercase (cs : List Char) : List Char := lowercaseAfter [] cs

theorem lowercase_nil : lowercase [] = [] := rfl

end Strata.Text
