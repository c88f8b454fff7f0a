/-
# `Strata.Ron.Number` — numbers of RON

An integer has a sign, a base by `0x`, `0o` or `0b`, digits with underscores
between them, and after decimal or binary digits perhaps the name of its type,
which bounds it.  A byte between quotes is an integer too.  Where a value is only passed over,
an integer of any size and a number with a fraction or an exponent will do.
-/
import Strata.Ron.Text

namespace Strata.Ron

/-- Whether the character may stand among the digits of an integer. -/
def isDigitOrGap (c : Char) : Bool := (hexValue? c).isSome || c == '_'

/-- The value of digits in a base, with the gaps left out; none if one of them is no digit of
the base. -/
def digitsValue? (base : Nat) : Nat → List Char → Option Nat
  | v, [] => some v
  | v, c :: cs =>
    if c = '_' then digitsValue? base v cs
    else
      match hexValue? c with
      | some d => if d < base then digitsValue? base (base * v + d) cs else none
      | none => none

/-- Takes the mark of a base. -/
def baseMark : Reader Nat := do
  if ← acceptText "0b" then return 2
  if ← acceptText "0o" then return 8
  if ← acceptText "0x" then return 16
  return 10

/-- Takes an integer without its sign; answers its base as well. -/
def magnitude : Reader (Nat × Nat) := do
  let base ← baseMark
  let digits ← takeIn isDigitOrGap
  if digits.isEmpty || digits.head? == some '_' then Reader.fail
  match digitsValue? base 0 digits with
  | some v => return (base, v)
  | none => Reader.fail

/-- The names of the integer types, with the smallest and the largest value of each. -/
def integerTypes : List (String × Int × Int) :=
  [("i8", -0x80, 0x7f), ("i16", -0x8000, 0x7fff), ("i32", -0x80000000, 0x7fffffff),
   ("i64", -0x8000000000000000, 0x7fffffffffffffff), ("u8", 0, 0xff), ("u16", 0, 0xffff),
   ("u32", 0, 0xffffffff), ("u64", 0, 0xffffffffffffffff)]

/-- Takes the name of an integer type, and answers its bounds. -/
def integerType? : List (String × Int × Int) → Reader (Option (Int × Int))
  | [] => return none
  | (name, bounds) :: rest => do
    if ← acceptWord name then return some bounds else integerType? rest

/-- Takes a byte between single quotes after its `b'`: an ASCII character or an escape. -/
def byteLiteral : Reader Int := do
  let c ← next
  let byte ←
    if c = '\\' then escape .byte
    else if c.toNat < 128 then pure c
    else Reader.fail
  expect '\''
  return byte.toNat

/-- Takes an integer; without the name of a type these bounds count. -/
def integerIn (least greatest : Int) : Reader Int := do
  if ← acceptText "b'" then byteLiteral
  else
    let negative ←
      if ← accept '+' then pure false
      else accept '-'
    let (base, size) ← magnitude
    let value : Int := if negative then -size else size
    let named ← integerType? (if base = 10 || base = 2 then integerTypes else [])
    let (lo, hi) := named.getD (least, greatest)
    if lo ≤ value ∧ value ≤ hi then return value else Reader.fail

/-- Takes an integer of 64 bits without a sign. -/
def natural : Reader Nat := do
  let v ← integerIn 0 0xffffffffffffffff
  if 0 ≤ v then return v.toNat else Reader.fail

/-! ## Numbers that are passed over -/

/-- Whether the character may stand in a number with a fraction or an exponent. -/
def isFloatChar (c : Char) : Bool :=
  c.isDigit || c == 'e' || c == 'E' || c == '.' || c == '+' || c == '-' || c == '_'

/-- The list without its leading sign. -/
def withoutSign : List Char → List Char
  | '+' :: cs => cs
  | '-' :: cs => cs
  | cs => cs

/-- Whether the characters are an exponent, or nothing. -/
def isExponent : List Char → Bool
  | [] => true
  | c :: cs =>
    let digits := withoutSign cs
    (c == 'e' || c == 'E') && !digits.isEmpty && digits.all Char.isDigit

/-- Whether the characters, without gaps, are a decimal number. -/
def isDecimal (cs : List Char) : Bool :=
  let cs := withoutSign cs
  let whole := cs.takeWhile Char.isDigit
  match cs.dropWhile Char.isDigit with
  | '.' :: rest =>
    !(whole.isEmpty && (rest.takeWhile Char.isDigit).isEmpty) &&
      isExponent (rest.dropWhile Char.isDigit)
  | rest => !whole.isEmpty && isExponent rest

/-- Whether each gap stands after a digit or an exponent mark. -/
def gapsAllowed : Bool → List Char → Bool
  | _, [] => true
  | allowed, c :: cs =>
    if c = '_' then allowed && gapsAllowed allowed cs
    else if c = '.' then gapsAllowed false cs
    else if c.isDigit || c == 'e' || c == 'E' then gapsAllowed true cs
    else gapsAllowed allowed cs

/-- Takes a number with a fraction or an exponent, and perhaps the name of its type. -/
def float : Reader Unit := do
  if ← acceptOneOf ["inf", "+inf", "-inf", "NaN", "+NaN", "-NaN"] then return ()
  let cs ← takeIn isFloatChar
  if gapsAllowed false cs && isDecimal (cs.filter (· != '_')) then
    let _ ← acceptOneOf ["f32", "f64"]
  else Reader.fail

/-- Takes any number. -/
def anyNumber : Reader Unit := do
  let cs ← get
  let body := withoutSign cs
  if (body.takeWhile isDigitOrGap).length < (body.takeWhile isFloatChar).length then float
  else
    match (integerIn (-0x8000000000000000) 0xffffffffffffffff).run cs with
    | some (_, rest) => set rest
    | none => float

end Strata.Ron
