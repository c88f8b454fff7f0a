/-
# `Strata.Manifest.Operations` — operations by name

A set of operations is written as a list of tokens.  A token is the name of an
operation, or a run of one-letter names; blanks around it do not count, and an
empty one adds nothing.
-/
import Strata.Manifest.Basic
import Strata.Text.Split

namespace Strata.Manifest

/-- The operations that a run of letters stands for. -/
def operationsOfLetters : List Char → Option (List Operation)
  | [] => some []
  | c :: cs => do return (← Operation.ofName? (String.ofList [c])) :: (← operationsOfLetters cs)

/-- The operations of a trimmed token. -/
def operationsOfToken (token : String) : Option (List Operation) :=
  match Operation.ofName? token with
  | some op => some [op]
  | none => operationsOfLetters token.toList

/-- The operations of a list of tokens; the first token that is none of the names ends it. -/
def operationsOfTokens : List String → Except Problem Operations
  | [] => .ok .none
  | token :: rest =>
    let token := Text.trim token
    match operationsOfToken token with
    | none => .error (.unknownOperation token)
    | some ops => do return .ofList ops ∪ (← operationsOfTokens rest)

/-! ## Layers in one line -/

/-- The tokens between commas, empty ones left out. -/
def tokensOf (cs : List Char) : List String :=
  ((Text.split ',' cs).filter (!·.isEmpty)).map String.ofList

/-- A directory with its operations after the last colon.  A colon at the very start is part of
the directory's name. -/
def Layer.ofSpec (spec : String) : Except Problem Layer :=
  let back := spec.toList.reverse
  match back.dropWhile (· != ':') with
  | ':' :: c :: front => do
    let tokens := tokensOf (back.takeWhile (· != ':')).reverse
    let _ ← operationsOfTokens tokens
    return .directory (String.ofList (c :: front).reverse) (some tokens)
  | _ => .ok (.directory spec none)

end Strata.Manifest
