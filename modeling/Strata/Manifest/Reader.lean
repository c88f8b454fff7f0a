/-
# `Strata.Manifest.Reader` — reading a manifest

A manifest is a structure of four fields, of which only the layers must be
there.  Fields of other names are passed over; a field that is given twice makes
the manifest malformed.  Names of operations are not looked at here.
-/
import Strata.Manifest.Basic
import Strata.Ron.Value

namespace Strata.Manifest

open Ron

/-- Takes the name of a structure, which may be left out unless the document asks for it. -/
def structureName (s : Ron.Settings) (name : String) : Reader Unit := do
  if (← peek).any Text.isNameContinue then
    unless (← identifier) = name do Reader.fail
  else if s.namesRequired then Reader.fail
  blanks

/-- `true` or `false`. -/
def boolean : Reader Bool := do
  if ← acceptWord "true" then return true
  if ← acceptWord "false" then return false
  Reader.fail

/-- The name of a policy. -/
def policy (levels : Nat) : Reader Overlay.Policy :=
  deeper levels fun levels => do
    match ← deeper levels fun _ => identifier with
    | "Lazy" => return .onDemand
    | "Eager" => return .eager
    | _ => Reader.fail

/-- A value for a field that was not given before. -/
def once {α : Type} (before : Option α) (value : Reader α) : Reader (Option α) := do
  if before.isSome then Reader.fail
  return some (← value)

/-- The names of operations, which may be left out. -/
def operationNames (levels : Nat) : Reader (Option (List String)) :=
  optional levels fun levels => sequence levels fun _ => string

/-- The root of a directory layer, from the structure's opening on. -/
def directoryRoot (levels : Nat) : Reader String := do
  let root ← structure_ levels (fun levels name (root : Option String) => do
    if name = "root" then once root string
    else
      anyValue levels
      return root) none
  match root with
  | some root => return root
  | none => Reader.fail

/-- The files of a memory layer, from the structure's opening on. -/
def memoryFiles (levels : Nat) : Reader (Table String) := do
  let files ← structure_ levels (fun levels name (files : Option (Table String)) => do
    if name = "files" then
      once files do return .ofList (← mapOf levels (fun _ => string) (fun _ => string))
    else
      anyValue levels
      return files) none
  return files.getD .empty

/-- The fields of a manifest that were given. -/
structure Fields where
  fold : Option Bool := none
  policy : Option Overlay.Policy := none
  populateDepth : Option (Option Nat) := none
  layers : Option (List Layer) := none

/-- The manifest of the fields; the layers must be there. -/
def Fields.toManifest (f : Fields) : Reader Manifest := do
  match f.layers with
  | none => Reader.fail
  | some layers =>
    return {
      settings := {
        fold := f.fold.getD false
        policy := f.policy.getD .onDemand
        populateDepth := f.populateDepth.getD none }
      layers }

/-- The fields of a manifest, each layer with `layer`. -/
def manifestFields (layer : Nat → Reader Layer) (levels : Nat) : Reader Manifest := do
  let given ← fields levels (fun levels name (f : Fields) => do
    match name with
    | "case_insensitive" => return { f with fold := ← once f.fold boolean }
    | "invalidation" => return { f with policy := ← once f.policy (policy levels) }
    | "populate_depth" =>
      return { f with
        populateDepth := ← once f.populateDepth (optional levels fun _ => natural) }
    | "backends" => return { f with layers := ← once f.layers (sequence levels layer) }
    | _ =>
      anyValue levels
      return f) {}
  given.toManifest

/-- What a layer is made of, before its operations are known. -/
abbrev Source := Option (List String) → Layer

/-- The kind of a layer; a union in it is read with `manifest`, its fields without parentheses of
their own. -/
def source (manifest : Nat → Reader Manifest) (levels : Nat) : Reader Source :=
  deeper levels fun levels => do
    blanks
    match ← deeper levels fun _ => identifier with
    | "Local" => do
      blanks
      let root ← directoryRoot levels
      return .directory root
    | "Memory" => do
      blanks
      let files ← memoryFiles levels
      return .files files
    | "Union" => do
      blanks
      expect '('
      blanks
      let m ← deeper levels manifest
      blanks
      let _ ← comma
      expect ')'
      return .union m.settings m.layers
    | _ => Reader.fail

/-- A layer, a union in it read with `manifest`. -/
def layer (s : Ron.Settings) (manifest : Nat → Reader Manifest) (levels : Nat) :
    Reader Layer := do
  structureName s "BackendSpec"
  let (made, operations) ← structure_ levels
    (fun levels name (f : Option Source × Option (Option (List String))) => do
      match name with
      | "kind" => return (← once f.1 (source manifest levels), f.2)
      | "operations" => return (f.1, ← once f.2 (operationNames levels))
      | _ =>
        anyValue levels
        return f) (none, none)
  match made with
  | some make => return make (operations.getD none)
  | none => Reader.fail

/-- The fields of a manifest whose unions are nested at most so deep. -/
def nested (s : Ron.Settings) : Nat → Nat → Reader Manifest
  | 0, _ => Reader.fail
  | depth + 1, levels => manifestFields (layer s (nested s depth)) levels

/-- A manifest with its parentheses. -/
def whole (s : Ron.Settings) (levels : Nat) : Reader Manifest := do
  structureName s "UnionManifest"
  expect '('
  let m ← nested s levelLimit levels
  blanks
  expect ')'
  return m

/-- The manifest that a text describes. -/
def ofText? (text : String) : Option Manifest := document whole text

end Strata.Manifest
