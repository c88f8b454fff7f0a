/-
# `Strata.Lookup` — looking a name up in a tree

Trees differ in where they keep their nodes; the walk along the components of a
name is the same for all.  Each directory on the way must be one: a file there
is an error that names it, a missing one ends the walk without a result.
-/
import Strata.Failure
import Strata.Kind
import Strata.Path

namespace Strata.Lookup

/-- The path reached from `here` along the components, if something is there. -/
def descend (kindOf : String → Except Failure Kind) :
    String → List String → Except Failure (Option String)
  | here, [] => do return if (← kindOf here).exists? then some here else none
  | here, c :: cs => do
    match ← kindOf here with
    | .directory => descend kindOf (Path.join here c) cs
    | .file => throw (.notADirectory here)
    | .unknown => return none

/-- The path that a name leads to from `here`, if something is there.  A name without
components leads nowhere. -/
def child (kindOf : String → Except Failure Kind) (here name : String) :
    Except Failure (Option String) :=
  let relative := Path.normalize name false
  if relative.isEmpty then .ok none else descend kindOf here (Path.components relative)

end Strata.Lookup
