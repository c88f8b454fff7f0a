/-
# `Strata.Ron.Value` — compound values of RON

Sequences stand in brackets, maps in braces, structures and tuples in
parentheses; elements have commas between them, and one may follow the last.
Values may nest so many levels deep and no deeper: the number of levels left is
an argument of every reader here, and each step into a value takes one off.

`anyValue` passes over a value of any shape.
-/
import Strata.Ron.Number

namespace Strata.Ron

/-- The number of levels that a document may nest. -/
def levelLimit : Nat := 128

/-- Reads one level further in. -/
def deeper {α : Type} (levels : Nat) (reader : Nat → Reader α) : Reader α :=
  match levels with
  | 0 => Reader.fail
  | n + 1 => reader n

/-- Whether another element follows: after a comma if the list does not end there, and without
a comma never. -/
def anotherElement (hadComma : Bool) (close : Char) : Reader Bool := do
  blanks
  let ends := (← peek) == some close
  if hadComma then return !ends
  if ends then return false
  Reader.fail

/-- Takes elements up to the end of their list, so many at most, and hands each to `step` with what
was collected so far. -/
def elementsFrom {α : Type} (close : Char) (step : α → Reader α) :
    Nat → Bool → α → Reader α
  | 0, _, _ => Reader.fail
  | left + 1, hadComma, acc => do
    if ← anotherElement hadComma close then
      let acc ← step acc
      let hadComma ← comma
      elementsFrom close step left hadComma acc
    else return acc

/-- Takes all elements up to the end of their list. -/
def elements {α : Type} (close : Char) (step : α → Reader α) (start : α) : Reader α := do
  elementsFrom close step ((← get).length + 1) true start

/-- Takes a list of elements between two brackets. -/
def enclosed {α : Type} (opening close : Char) (step : α → Reader α) (start : α) :
    Reader α := do
  expect opening
  let result ← elements close step start
  blanks
  expect close
  return result

/-- Takes the colon after a key, with the blanks around it. -/
def colon : Reader Unit := do
  blanks
  expect ':'
  blanks

/-- A sequence of values, each read one level further in. -/
def sequence {α : Type} (levels : Nat) (item : Nat → Reader α) : Reader (List α) :=
  deeper levels fun levels =>
    enclosed '[' ']' (fun acc => return acc ++ [← deeper levels item]) []

/-- A map, as the pairs in the order in which they stand. -/
def mapOf {κ α : Type} (levels : Nat) (key : Nat → Reader κ) (value : Nat → Reader α) :
    Reader (List (κ × α)) :=
  deeper levels fun levels =>
    enclosed '\x7b' '\x7d' (fun acc => do
      let k ← deeper levels key
      colon
      return acc ++ [(k, ← deeper levels value)]) []

/-- The fields of a structure up to its closing parenthesis, which stays; `field` reads the value
of a field by the field's name. -/
def fields {α : Type} (levels : Nat) (field : Nat → String → α → Reader α) (start : α) :
    Reader α :=
  deeper levels fun levels =>
    elements ')' (fun acc => do
      let name ← deeper levels fun _ => identifier
      colon
      deeper levels fun levels => field levels name acc) start

/-- The fields of a structure between parentheses. -/
def structure_ {α : Type} (levels : Nat) (field : Nat → String → α → Reader α) (start : α) :
    Reader α := do
  expect '('
  let result ← fields levels field start
  blanks
  expect ')'
  return result

/-- A value that may be left out: `None`, a value inside `Some`, or the value alone. -/
def optional {α : Type} (levels : Nat) (value : Nat → Reader α) : Reader (Option α) := do
  if ← acceptWord "None" then return none
  if ← acceptWord "Some" then
    blanks
    if ← accept '(' then
      blanks
      let v ← deeper levels value
      let _ ← comma
      expect ')'
      return some v
  return some (← deeper levels value)

/-- Whether what stands in the next parentheses has named fields. -/
def fieldsAreNamed : Reader Bool := do
  let cs ← get
  expect '('
  blanks
  let named ←
    match ← identifier? with
    | some _ => do
      blanks
      pure ((← peek) == some ':')
    | none => pure false
  set cs
  return named

/-- The words that are values by themselves. -/
def valueWords : List String :=
  ["true", "false", "None", "inf", "inff32", "inff64", "NaN", "NaNf32", "NaNf64"]

/-- Passes over a value that is not compound. -/
def simpleValue : Reader Unit := do
  match ← peek with
  | some '"' => let _ ← string
  | some 'r' => let _ ← string
  | some 'b' => if ← startsWith ["b'"] then anyNumber else byteString
  | some '\'' => let _ ← character
  | some c =>
    if c.isDigit || c == '+' || c == '-' || c == '.' then anyNumber else Reader.fail
  | none => Reader.fail

/-- Passes over what stands between brackets, braces or parentheses, each value in it with
`item`. -/
def compoundValue (opening : Char) (item : Reader Unit) : Reader Unit :=
  match opening with
  | '[' => enclosed '[' ']' (fun _ => item) ()
  | '(' => do
    if ← fieldsAreNamed then
      enclosed '(' ')' (fun _ => do
        let _ ← identifier
        colon
        item) ()
    else enclosed '(' ')' (fun _ => item) ()
  | _ =>
    enclosed '\x7b' '\x7d' (fun _ => do
      item
      colon
      item) ()

/-- Passes over a value of any shape. -/
def anyValue (levels : Nat) : Reader Unit := do
  if ← acceptOneOf valueWords then return ()
  let inner : Reader Unit × Reader Unit :=
    match levels with
    | 0 => (Reader.fail, Reader.fail)
    | 1 => (anyValue 0, Reader.fail)
    | n + 2 => (anyValue (n + 1), anyValue n)
  if ← wordIsNext "Some" then
    let _ ← optional levels fun _ => inner.1
  else
    let name ← identifier?
    if name.isSome then blanks
    match name, ← peek with
    | _, some '(' => deeper levels fun _ => compoundValue '(' inner.2
    | some _, _ => return ()
    | none, some '[' => deeper levels fun _ => compoundValue '[' inner.2
    | none, some '\x7b' => deeper levels fun _ => compoundValue '\x7b' inner.2
    | none, _ => simpleValue

/-! ## Documents -/

/-- What a document may ask for in its head. -/
structure Settings where
  namesRequired : Bool := false
  deriving DecidableEq, Repr

/-- The settings that a document may ask for by name. -/
def enable (s : Settings) (name : String) : Option Settings :=
  if name = "explicit_struct_names" then some { s with namesRequired := true }
  else if ["unwrap_newtypes", "implicit_some", "unwrap_variant_newtypes"].contains name then some s
  else none

/-- Takes the names of settings up to the parenthesis that closes them, so many at most. -/
def settingNames : Nat → Settings → Reader Settings
  | 0, _ => Reader.fail
  | left + 1, s => do
    let some s := enable s (← identifier) | Reader.fail
    let hadComma ← comma
    let ends := (← peek) == some ')'
    if ends then return s
    if hadComma then settingNames left s else Reader.fail

/-- Takes texts one after the other, with blanks after each. -/
def expectAll : List String → Reader Unit
  | [] => return ()
  | s :: ss => do
    unless ← acceptText s do Reader.fail
    blanks
    expectAll ss

/-- Takes the attributes at the head of a document, so many at most. -/
def attributes : Nat → Settings → Reader Settings
  | 0, _ => Reader.fail
  | left + 1, s => do
    if (← peek) == some '#' then
      expectAll ["#", "!", "[", "enable", "("]
      let s ← settingNames (← get).length s
      blanks
      expectAll [")", "]"]
      attributes left s
    else return s

/-- A whole document: its head, one value, and blanks. -/
def document {α : Type} (value : Settings → Nat → Reader α) (text : String) : Option α := do
  let cs := text.toList
  let reader : Reader α := do
    blanks
    let settings ← attributes (cs.length + 1) {}
    let v ← value settings levelLimit
    blanks
    if (← get).isEmpty then return v else Reader.fail
  return (← reader.run cs).1

end Strata.Ron
