/-
# `Strata.Shell.Arguments` — reading a command line

First come the options that say which union is meant, then a command with its
own options and operands.  An option takes its value from the next argument,
which may not look like an option, or from the rest of its own.  No option
may be given twice, but for layers.  After `--` everything is an operand.
-/
import Strata.Manifest.Operations

namespace Strata.Shell

/-- What is to be done with the union. -/
inductive Command where
  | ls (path : String) (long : Bool)
  | tree (path : String) (depth : Nat)
  | cat (path : String)
  | write (path : String)
  | mkdir (path : String)
  | touch (path : String)
  | rm (path : String)
  | mv (source target : String)
  | caps
  deriving DecidableEq, Repr

/-- Which union is meant, and what is to be done with it. -/
structure Invocation where
  manifest : Option String
  layers : List Manifest.Layer
  fold : Bool
  command : Command

/-- Why a command line gives no invocation: it asks for help, or it is not well formed. -/
inductive Usage where
  | help
  | wrong
  deriving DecidableEq, Repr

/-- The form of an option: its letter, its long name, whether it has a value, whether it may come
again, and which values it takes. -/
structure OptionForm where
  letter : Char
  long : String
  takesValue : Bool := false
  repeats : Bool := false
  accepts : String → Bool := fun _ => true

/-- The options and operands of a command line, options in the order given.  An option whose value
was an argument of its own waits: it is looked at when the next one comes, or at the end. -/
structure Parsed where
  options : List (Char × String) := []
  operands : List String := []
  waiting : Option (OptionForm × String) := none

/-- Whether the argument looks like an option: a dash and something after it. -/
def looksLikeOption (arg : String) : Bool :=
  match arg.toList with
  | '-' :: _ :: _ => true
  | _ => false

/-- Adds an option; only some may come again. -/
def Parsed.add (p : Parsed) (o : OptionForm) (value : String) : Except Usage Parsed :=
  if !o.accepts value || !o.repeats && p.options.any (fun e => e.1 == o.letter) then .error .wrong
  else .ok { p with options := p.options ++ [(o.letter, value)] }

/-- Looks at the option that waits. -/
def Parsed.settle (p : Parsed) : Except Usage Parsed :=
  match p.waiting with
  | some (o, value) => { p with waiting := none }.add o value
  | none => .ok p

/-- Adds an option whose value, if it has one, was in the same argument. -/
def Parsed.note (p : Parsed) (o : OptionForm) (value : String) : Except Usage Parsed := do
  (← p.settle).add o value

/-- Lets an option wait whose value is the first of the arguments that follow it. -/
def Parsed.await (p : Parsed) (o : OptionForm) (args : List String) :
    Except Usage (Parsed × List String) := do
  let p ← p.settle
  match args with
  | [] => throw .wrong
  | arg :: rest =>
    if looksLikeOption arg then throw .wrong
    return ({ p with waiting := some (o, arg) }, rest)

/-- Asks for help, if the options before that are well formed. -/
def Parsed.help {α : Type} (p : Parsed) : Except Usage α := do
  let _ ← p.settle
  throw .help

/-- Reads letters after one dash; `rest` are the arguments that follow. -/
def readLetters (known : List OptionForm) (p : Parsed) (rest : List String) :
    List Char → Except Usage (Parsed × List String)
  | [] => .ok (p, rest)
  | c :: cs =>
    match known.find? (·.letter == c) with
    | none => if c = 'h' then p.help else .error .wrong
    | some o => do
      if o.takesValue then
        match cs with
        | [] => p.await o rest
        | '=' :: value => return (← p.note o (String.ofList value), rest)
        | value => return (← p.note o (String.ofList value), rest)
      else readLetters known (← p.note o "") rest cs

/-- Reads what stands after two dashes; `rest` are the arguments that follow. -/
def readLong (known : List OptionForm) (p : Parsed) (rest : List String) (text : List Char) :
    Except Usage (Parsed × List String) := do
  let name := String.ofList (text.takeWhile (· != '='))
  let value := (text.dropWhile (· != '=')).tail?
  match known.find? (·.long == name) with
  | none => if name = "help" && value.isNone then p.help else throw .wrong
  | some o =>
    match o.takesValue, value with
    | true, some value => return (← p.note o (String.ofList value), rest)
    | true, none => p.await o rest
    | false, some _ => throw .wrong
    | false, none => return (← p.note o "", rest)

/-- Reads options up to the first operand, at most so many; answers the rest with that operand in
front. -/
def readOptions (known : List OptionForm) :
    Nat → Parsed → List String → Except Usage (Parsed × List String)
  | 0, p, args => .ok (p, args)
  | _, p, [] => .ok (p, [])
  | left + 1, p, arg :: rest =>
    match arg.toList with
    | '-' :: '-' :: [] => .ok (p, arg :: rest)
    | '-' :: '-' :: text => do
      let (p, rest) ← readLong known p rest text
      readOptions known left p rest
    | '-' :: c :: cs => do
      let (p, rest) ← readLetters known p rest (c :: cs)
      readOptions known left p rest
    | _ => .ok (p, arg :: rest)

/-- Reads options and operands, in any order, at most so many operands. -/
def readAll (known : List OptionForm) : Nat → Parsed → List String → Except Usage Parsed
  | 0, p, args => do
    let (p, rest) ← readOptions known args.length p args
    if rest.isEmpty || rest == ["--"] then p.settle else throw .wrong
  | operands + 1, p, args => do
    let (p, rest) ← readOptions known args.length p args
    let p ← p.settle
    match rest with
    | [] => return p
    | "--" :: rest =>
      if rest.length ≤ operands + 1 then return { p with operands := p.operands ++ rest }
      else throw .wrong
    | operand :: rest => readAll known operands { p with operands := p.operands ++ [operand] } rest

/-- The value of an option, if it was given. -/
def Parsed.value? (p : Parsed) (letter : Char) : Option String := p.options.lookup letter

/-- The value of a decimal number below 2^64, with or without a plus sign. -/
def number? (text : String) : Option Nat :=
  let digits := match text.toList with
    | '+' :: cs => cs
    | cs => cs
  if digits.isEmpty || !digits.all Char.isDigit then none
  else
    let v := digits.foldl (fun v c => 10 * v + (c.toNat - '0'.toNat)) 0
    if v ≤ 0xffffffffffffffff then some v else none

/-- The names of the commands. -/
def commandNames : List String :=
  ["ls", "tree", "cat", "write", "mkdir", "touch", "rm", "mv", "caps"]

/-- Reads a command of one operand. -/
def readUnary (make : String → Command) (args : List String) : Except Usage Command := do
  match (← readAll [] 1 {} args).operands with
  | [path] => return make path
  | _ => throw .wrong

/-- The options of `ls`. -/
def listOptions : List OptionForm := [{ letter := 'l', long := "long" }]

/-- The options of `tree`. -/
def treeOptions : List OptionForm :=
  [{ letter := 'd', long := "depth", takesValue := true, accepts := fun v => (number? v).isSome }]

/-- Reads a command by its name. -/
def readCommand (name : String) (args : List String) : Except Usage Command :=
  match name with
  | "ls" => do
    let p ← readAll listOptions 1 {} args
    return .ls (p.operands.headD "") (p.value? 'l').isSome
  | "tree" => do
    let p ← readAll treeOptions 1 {} args
    match number? ((p.value? 'd').getD "2") with
    | some depth => return .tree (p.operands.headD "") depth
    | none => throw .wrong
  | "cat" => readUnary .cat args
  | "write" => readUnary .write args
  | "mkdir" => readUnary .mkdir args
  | "touch" => readUnary .touch args
  | "rm" => readUnary .rm args
  | "mv" => do
    match (← readAll [] 2 {} args).operands with
    | [source, target] => return .mv source target
    | _ => throw .wrong
  | "caps" => do
    let _ ← readAll [] 0 {} args
    return .caps
  | "help" =>
    match args with
    | [] => throw .help
    | [name] => throw (if name = "help" || commandNames.contains name then .help else .wrong)
    | _ => throw .wrong
  | _ => throw .wrong

/-- Whether the text is the spec of a layer. -/
def isSpec (text : String) : Bool := (Manifest.Layer.ofSpec text).toOption.isSome

/-- The options that say which union is meant. -/
def unionOptions : List OptionForm :=
  [{ letter := 'm', long := "manifest", takesValue := true, accepts := fun v => !v.isEmpty },
   { letter := 'l', long := "layer", takesValue := true, repeats := true, accepts := isSpec },
   { letter := 'i', long := "case-insensitive" }]

/-- The layers that are given by their specs. -/
def layersOf (p : Parsed) : List Manifest.Layer :=
  (p.options.filter (·.1 == 'l')).filterMap fun (_, spec) => (Manifest.Layer.ofSpec spec).toOption

/-- Reads a command line, without the name of the program. -/
def readCommandLine (args : List String) : Except Usage Invocation := do
  let (p, rest) ← readOptions unionOptions args.length {} args
  match rest with
  | [] => throw .wrong
  | name :: args =>
    let command ← readCommand name args
    let p ← p.settle
    let manifest := p.value? 'm'
    let layers := layersOf p
    if manifest.isSome && !layers.isEmpty then throw .wrong
    return { manifest, layers, fold := (p.value? 'i').isSome, command }

end Strata.Shell
