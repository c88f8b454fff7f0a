/-
# `Strata.Disk.Listing` — what is on a disk, without following links
-/
import Strata.Disk.Calls

namespace Strata.Disk

/-- One item below a directory. -/
inductive Found where
  | directory (path : String)
  | file (path : String) (contents : Bytes)
  | link (path : String)

/-- What is below a location, each directory followed by its contents, names in order; `path` is
what stands before the names.  It goes at most so many levels down. -/
def listBelow (d : Disk) : Nat → Location → List String → List Found
  | 0, _, _ => []
  | levels + 1, loc, path =>
    ((d.namesIn loc).mergeSort fun a b => a ≤ b).flatMap fun name =>
      let text := "/".intercalate (path ++ [name])
      match d.item? (loc ++ [name]) with
      | some .directory =>
        .directory text :: listBelow d levels (loc ++ [name]) (path ++ [name])
      | some (.file number) => [.file text (d.contentsOf number)]
      | some (.link _) => [.link text]
      | none => []

/-- What is below a path. -/
def listing (d : Disk) (text : String) : List Found :=
  match d.locate true text with
  | .ok loc => d.listBelow (d.items.length + 1) loc []
  | .error _ => []

end Strata.Disk
