/-
# `Strata.Text.Split` — cutting a text at a character
-/

namespace Strata.Text

/-- The pieces of a text between its separators, empty ones included: one more
than there are separators. -/
def split (separator : Char) : List Char → List (List Char)
  | [] => [[]]
  | c :: cs =>
    if c = separator then [] :: split separator cs
    else
      match split separator cs with
      | [] => [[c]]
      | p :: ps => (c :: p) :: ps

theorem split_ne_nil (separator : Char) (cs : List Char) : split separator cs ≠ [] := by
  cases cs with
  | nil => simp [split]
  | cons c cs =>
    rw [split]
    split
    · simp
    · split <;> simp

/-- The pieces put together again, with the separator between them, are the text. -/
theorem intercalate_split (separator : Char) (cs : List Char) :
    [separator].intercalate (split separator cs) = cs := by
  induction cs with
  | nil => rfl
  | cons c cs ih =>
    rw [split]
    split
    · rename_i h
      subst h
      cases hs : split c cs with
      | nil => exact absurd hs (split_ne_nil c cs)
      | cons p ps =>
        rw [hs] at ih
        simpa [List.intercalate, List.intersperse] using ih
    · cases hs : split separator cs with
      | nil => exact absurd hs (split_ne_nil separator cs)
      | cons p ps =>
        rw [hs] at ih
        cases ps with
        | nil => simpa [List.intercalate] using ih
        | cons q qs => simpa [List.intercalate, List.intersperse] using ih

end Strata.Text
