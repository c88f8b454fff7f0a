/-
# `Strata.Ron.Lexical` — blanks, comments and identifiers of RON

RON is the notation that manifests are written in.  A `Reader` takes what it
reads off the front of a list of characters; without a result the text is not
well formed, and it does not matter where.

Blanks are the pattern white space of Unicode and comments: to the end of a
line after `//`, and between `/*` and `*/`, which nest.  An identifier is a letter
or an underscore with letters, digits and underscores after it; `r#` before it
admits dots, signs and leading digits as well.
-/
import Strata.Text.NameTable

namespace Strata.Ron

/-- Reads something off the front of a text. -/
abbrev Reader := StateT (List Char) Option

/-- The text is not well formed. -/
def Reader.fail {α : Type} : Reader α := fun _ => none

/-! ## Single characters -/

/-- The next character, which stays where it is. -/
def peek : Reader (Option Char) := return (← get).head?

/-- Takes the next character. -/
def next : Reader Char
  | [] => none
  | c :: cs => some (c, cs)

/-- Takes the character if it is next. -/
def accept (c : Char) : Reader Bool
  | [] => some (false, [])
  | d :: cs => if c = d then some (true, cs) else some (false, d :: cs)

/-- Takes the character, which must be next. -/
def expect (c : Char) : Reader Unit := do
  unless ← accept c do Reader.fail

/-- Takes the text if it is next. -/
def acceptText (s : String) : Reader Bool := do
  let cs ← get
  if s.toList.isPrefixOf cs then
    set (cs.drop s.length)
    return true
  else return false

/-- Whether one of the texts is next. -/
def startsWith (ss : List String) : Reader Bool := do
  let cs ← get
  return ss.any fun s => s.toList.isPrefixOf cs

/-- Takes characters as long as they are in a class. -/
def takeIn (p : Char → Bool) : Reader (List Char) := do
  let cs ← get
  set (cs.dropWhile p)
  return cs.takeWhile p

/-! ## Blanks -/

/-- Whether the character is pattern white space. -/
def isBlank (c : Char) : Bool :=
  Text.inRanges [(0x9, 0xd), (0x20, 0x20), (0x85, 0x85), (0x200e, 0x200f), (0x2028, 0x2029)] c

/-- What follows a comment between `/*` and `*/`, inside so many of them. -/
def afterComment : Nat → List Char → Option (List Char)
  | 0, cs => some cs
  | _ + 1, [] => none
  | level + 1, '/' :: '*' :: cs => afterComment (level + 2) cs
  | level + 1, '*' :: '/' :: cs => afterComment level cs
  | level + 1, _ :: cs => afterComment (level + 1) cs

/-- What follows the blanks, after at most so many comments. -/
def afterBlanks : Nat → List Char → Option (List Char)
  | 0, cs => some cs
  | comments + 1, cs =>
    match cs.dropWhile isBlank with
    | '/' :: '/' :: rest => afterBlanks comments (rest.dropWhile (· != '\n'))
    | '/' :: '*' :: rest => do afterBlanks comments (← afterComment 1 rest)
    | '/' :: _ => none
    | rest => some rest

/-- Takes blanks and comments. -/
def blanks : Reader Unit := fun cs => do
  return ((), ← afterBlanks (cs.length + 1) cs)

/-- Takes a comma with the blanks around it, if there is one. -/
def comma : Reader Bool := do
  blanks
  if ← accept ',' then
    blanks
    return true
  else return false

/-! ## Identifiers -/

/-- Whether the character may stand in an identifier after `r#`. -/
def isRawName (c : Char) : Bool :=
  c == '.' || c == '+' || c == '-' || Text.isNameContinue c

/-- The texts that begin a literal although a letter comes first. -/
def literalOpenings : List String := ["b\"", "b'", "br#", "br\"", "r\"", "r#\"", "r##"]

/-- Whether the word is next and ends there. -/
def wordIsNext (word : String) : Reader Bool := do
  let cs ← get
  let rest := cs.drop word.length
  return word.toList.isPrefixOf cs && !(rest.head?.any Text.isNameContinue)

/-- Takes the word if it is next and ends there. -/
def acceptWord (word : String) : Reader Bool := do
  if ← wordIsNext word then acceptText word else return false

/-- Takes one of the words if it is next and ends there. -/
def acceptOneOf : List String → Reader Bool
  | [] => return false
  | w :: ws => do if ← acceptWord w then return true else acceptOneOf ws

/-- Takes an identifier. -/
def identifier : Reader String := do
  let some first ← peek | Reader.fail
  unless Text.isNameStart first do Reader.fail
  if ← startsWith literalOpenings then Reader.fail
  if ← acceptText "r#" then
    let name ← takeIn isRawName
    if name.isEmpty then Reader.fail
    return String.ofList name
  else
    let cs ← get
    if (cs.takeWhile Text.isNameContinue).length < (cs.takeWhile isRawName).length then
      Reader.fail
    return String.ofList (← takeIn Text.isNameContinue)

/-- Takes an identifier if one is next. -/
def identifier? : Reader (Option String) := do
  if ← startsWith literalOpenings then return none
  let cs ← get
  if ← acceptText "r#" then
    let name ← takeIn isRawName
    if name.isEmpty then
      set cs
      return none
    return some (String.ofList name)
  match cs with
  | c :: rest =>
    if Text.isNameStart c then
      set (rest.dropWhile Text.isNameContinue)
      return some (String.ofList (c :: rest.takeWhile Text.isNameContinue))
    else return none
  | [] => return none

end Strata.Ron
