/-
# `Strata.Ron.Text` — strings and characters of RON

A string stands between double quotes, with escapes, or is raw: `r`, then any
number of `#` around the quotes, and nothing inside is an escape.  The escape
`\x` gives one byte; above 127 it takes as many of them in a row as the UTF-8 form
of one character needs.  The escape `\u` gives a character by one to six digits
between braces.
-/
import Strata.Bytes
import Strata.Ron.Lexical

namespace Strata.Ron

/-- The value of a hexadecimal digit. -/
def hexValue? (c : Char) : Option Nat :=
  if '0' ≤ c && c ≤ '9' then some (c.toNat - '0'.toNat)
  else if 'a' ≤ c && c ≤ 'f' then some (c.toNat - 'a'.toNat + 10)
  else if 'A' ≤ c && c ≤ 'F' then some (c.toNat - 'A'.toNat + 10)
  else none

/-- Takes one hexadecimal digit. -/
def hexDigit : Reader Nat := do
  match hexValue? (← next) with
  | some v => return v
  | none => Reader.fail

/-- Takes the two digits of a byte. -/
def hexByte : Reader Nat := return 16 * (← hexDigit) + (← hexDigit)

/-- What kind of literal an escape stands in. -/
inductive Quote where
  | string
  | char
  | bytes
  | byte
  deriving DecidableEq, Repr

/-- The character whose UTF-8 form the bytes are. -/
def charOfBytes? (bytes : List Nat) : Option Char := do
  match (← Bytes.toText? (bytes.map UInt8.ofNat)).toList with
  | [c] => some c
  | _ => none

/-- Takes up to so many more bytes until they make a character. -/
def moreBytes : Nat → List Nat → Reader Char
  | 0, _ => Reader.fail
  | left + 1, bytes => do
    unless ← acceptText "\\x" do Reader.fail
    let bytes := bytes ++ [← hexByte]
    match charOfBytes? bytes with
    | some c => return c
    | none => moreBytes left bytes

/-- Takes up to so many digits, until a brace closes, onto a value. -/
def unicodeDigits : Nat → Nat → Reader Nat
  | 0, v => return v
  | left + 1, v => do
    match ← peek with
    | some '\x7d' => return v
    | some _ => unicodeDigits left (16 * v + (← hexDigit))
    | none => Reader.fail

/-- Takes what follows the backslash of an escape. -/
def escape (quote : Quote) : Reader Char := do
  match ← next with
  | '\'' => return '\''
  | '"' => return '"'
  | '\\' => return '\\'
  | 'n' => return '\n'
  | 'r' => return '\r'
  | 't' => return '\t'
  | '0' => return '\x00'
  | 'x' =>
    let b ← hexByte
    if b < 128 || quote = .bytes || quote = .byte then return Char.ofNat b
    if quote = .char then Reader.fail
    moreBytes 3 [b]
  | 'u' =>
    if quote = .byte then Reader.fail
    expect '\x7b'
    if (← peek) == some '\x7d' then Reader.fail
    let v ← unicodeDigits 6 0
    expect '\x7d'
    if v.isValidChar then return Char.ofNat v else Reader.fail
  | _ => Reader.fail

/-- Takes characters up to the quote that ends the string, so many at most. -/
def quotedRest (quote : Quote) : Nat → Reader (List Char)
  | 0 => Reader.fail
  | left + 1 => do
    match ← next with
    | '"' => return []
    | '\\' => do
      let c ← escape quote
      return c :: (← quotedRest quote left)
    | c => return c :: (← quotedRest quote left)

/-- Takes characters up to a text that ends the string, so many at most. -/
def rawRest (ending : String) : Nat → Reader (List Char)
  | 0 => Reader.fail
  | left + 1 => do
    if ← acceptText ending then return []
    let c ← next
    return c :: (← rawRest ending left)

/-- Takes a raw string from the signs before its quote on. -/
def rawString : Reader String := do
  let hashes ← takeIn (· == '#')
  expect '"'
  return String.ofList (← rawRest (String.ofList ('"' :: hashes)) ((← get).length + 1))

/-- Takes the rest of a string after its opening quote. -/
def quotedString (quote : Quote) : Reader String := do
  return String.ofList (← quotedRest quote (← get).length)

/-- Takes a string. -/
def string : Reader String := do
  if ← accept '"' then quotedString .string
  else if ← accept 'r' then rawString
  else Reader.fail

/-- Takes a string of bytes. -/
def byteString : Reader Unit := do
  if ← acceptText "b\"" then let _ ← quotedString .bytes
  else if ← acceptText "br" then let _ ← rawString
  else Reader.fail

/-- Takes a character between single quotes. -/
def character : Reader Char := do
  expect '\''
  let c ← next
  let c ← if c = '\\' then escape .char else pure c
  expect '\''
  return c

end Strata.Ron
