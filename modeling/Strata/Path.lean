/-
# `Strata.Path` — normalized paths

A path is a text relative to the root of the filesystem that owns it: its
components joined by single separators, nothing before the first one and
nothing after the last.  The empty text is the root.  `normalize` brings any
text into this form; it trims separators and white space at the two ends of
the whole text only, so a component may still begin or end with a blank
when a separator stands next to it.

`components` is the other view of a path: the list of its names.
-/
import Strata.Text.Blank
import Strata.Text.Lowercase
import Strata.Text.Split

namespace Strata.Path

/-- The character between two components. -/
def separator : Char := '/'

/-! ## A path as a list of names -/

/-- The pieces of a text between its separators, empty ones included. -/
def pieces (cs : List Char) : List (List Char) := Text.split separator cs

/-- The pieces that are not empty. -/
def names (cs : List Char) : List (List Char) := (pieces cs).filter (!·.isEmpty)

/-- Names with one separator between neighbours. -/
def joinNames (ns : List (List Char)) : List Char := [separator].intercalate ns

/-- The components of a path, first to last. -/
def components (path : String) : List String := (names path.toList).map String.ofList

/-! ## Normal form -/

/-- What is trimmed off the two ends of a text that names a path. -/
def isEdge (c : Char) : Bool := Text.isBlank c || c == separator

/-- The normal form of a text, over its characters. -/
def normalizeChars (fold : Bool) (cs : List Char) : List Char :=
  let path := joinNames (names (Text.trimBy isEdge cs))
  if fold then Text.lowercase path else path

/-- The normal form of a text; with `fold` the whole path is lower-cased, which makes
spellings that differ in case alone the same path. -/
def normalize (path : String) (fold : Bool) : String :=
  String.ofList (normalizeChars fold path.toList)

/-! ## Composing and taking apart -/

/-- The path of `child`, which need not be normalized, below `parent`, which is. -/
def join (parent child : String) : String :=
  let child := normalize child false
  if parent.isEmpty then child
  else if child.isEmpty then parent
  else parent ++ "/" ++ child

/-- Splits at the last separator; without one there is no front. -/
def splitLast (cs : List Char) : Option (List Char) × List Char :=
  match cs.reverse.dropWhile (· != separator) with
  | [] => (none, cs)
  | _ :: front => (some front.reverse, (cs.reverse.takeWhile (· != separator)).reverse)

/-- The path of the directory that holds the path; none for a path of one component. -/
def parent? (path : String) : Option String := (splitLast path.toList).1.map String.ofList

/-- The directory that holds the path, the root where the path has one component. -/
def parentOrRoot (path : String) : String := (parent? path).getD ""

/-- The last component. -/
def lastName (path : String) : String := String.ofList (splitLast path.toList).2

/-- Splits at the first separator; without one there is no rest. -/
def splitHead (path : String) : String × Option String :=
  let cs := path.toList
  (String.ofList (cs.takeWhile (· != separator)),
    match cs.dropWhile (· != separator) with
    | [] => none
    | _ :: rest => some (String.ofList rest))

/-- Whether the path is the ancestor or lies below it; all paths lie below the root. -/
def liesWithin (path ancestor : String) : Bool :=
  ancestor.isEmpty || path == ancestor ||
    (ancestor.toList ++ [separator]).isPrefixOf path.toList

/-- The path as it is when its part up to `source` is replaced by `target`. -/
def rebase (source target path : String) : String :=
  target ++ String.ofList (path.toList.drop source.toList.length)

/-! ## First facts -/

theorem names_nil : names [] = [] := rfl

theorem components_empty : components "" = [] := rfl

theorem liesWithin_empty (path : String) : liesWithin path "" = true := by
  simp [liesWithin]

theorem liesWithin_refl (path : String) : liesWithin path path = true := by
  simp [liesWithin]

end Strata.Path
