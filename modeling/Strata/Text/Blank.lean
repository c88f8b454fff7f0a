/-
# `Strata.Text.Blank` — white space and trimming

A character is blank when Unicode gives it the property `White_Space`: the
25 characters below.  Zero-width characters (the joiners, the word joiner, the
byte-order mark) are not blank, so names that hold them stay as they are.
-/
import Strata.Text.Ranges

namespace Strata.Text

/-- The white space of Unicode. -/
def blankRanges : List (Nat × Nat) :=
  [(0x9, 0xd), (0x20, 0x20), (0x85, 0x85), (0xa0, 0xa0), (0x1680, 0x1680), (0x2000, 0x200a),
   (0x2028, 0x2029), (0x202f, 0x202f), (0x205f, 0x205f), (0x3000, 0x3000)]

/-- Whether the character is white space. -/
def isBlank (c : Char) : Bool := inRanges blankRanges c

theorem isBlank_space : isBlank ' ' = true := by decide

/-- Every character that the ASCII class of blanks holds is blank. -/
theorem isBlank_of_isWhitespace {c : Char} (h : c.isWhitespace = true) : isBlank c = true := by
  simp only [Char.isWhitespace, Bool.or_eq_true, decide_eq_true_eq] at h
  rcases h with ((rfl | rfl) | rfl) | rfl <;> decide

/-- The list without its longest front and its longest back in `p`. -/
def trimBy (p : Char → Bool) (cs : List Char) : List Char :=
  ((cs.dropWhile p).reverse.dropWhile p).reverse

/-- The text without the white space around it. -/
def trim (s : String) : String := String.ofList (trimBy isBlank s.toList)

end Strata.Text
