/-
# `Strata.Manifest.Basic` — descriptions of unions

A manifest says which filesystems make up a union, first to last, what each of
them may do, and how the union looks names up and keeps its listings.  A layer
of a union may be described in place as a union of its own.
-/
import Strata.Access
import Strata.Failure
import Strata.Overlay.Basic
import Strata.Table

namespace Strata

namespace Manifest

/-- How a union looks names up and keeps its listings, and the directory that relative roots in it
count from, if it names one itself. -/
structure Settings where
  fold : Bool := false
  policy : Overlay.Policy := .onDemand
  populateDepth : Option Nat := none
  base : Option String := none
  deriving DecidableEq, Repr

/-- The base directory in a union: its own, or else the one around it. -/
def Settings.baseIn (settings : Settings) (base : Option String) : Option String :=
  settings.base.or base

/-- One layer: a directory of the disk, files with their texts, or a union.  Each may name the
operations that the layer allows. -/
inductive Layer where
  | directory (root : String) (operations : Option (List String))
  | files (files : Table String) (operations : Option (List String))
  | union (settings : Settings) (layers : List Layer) (operations : Option (List String))

/-- The names of the operations that the layer allows, if it says so. -/
def Layer.operations : Layer → Option (List String)
  | .directory _ operations => operations
  | .files _ operations => operations
  | .union _ _ operations => operations

/-- Why a manifest does not give a union. -/
inductive Problem where
  | io (error : IoError)
  | malformed
  | unknownOperation (token : String)
  | missingRoot (root : String)
  | noLayers
  | failure (failure : Failure)
  deriving DecidableEq, Repr

/-- The text of the problem. -/
def Problem.message : Problem → String
  | .io e => "IO error: " ++ e.message
  | .malformed => "RON parse error: the text is not a manifest"
  | .unknownOperation token =>
    "unknown operation " ++ Text.quoted token ++
      " (expected read, write, delete, create or r, w, d, c)"
  | .missingRoot root => "backend root does not exist: " ++ root
  | .noLayers => "manifest lists no backends"
  | .failure f => f.message

/-- The text of the problem, then the text of what caused it, and so on. -/
def Problem.causes (p : Problem) : List String :=
  match p with
  | .io e => [p.message, e.message]
  | .failure f => f.causes
  | _ => [p.message]

end Manifest

/-- A description of a union. -/
structure Manifest where
  settings : Manifest.Settings := {}
  layers : List Manifest.Layer

end Strata
