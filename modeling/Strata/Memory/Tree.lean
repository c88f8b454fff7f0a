/-
# `Strata.Memory.Tree` — the nodes of a memory filesystem

A tree is a table from paths to nodes.  Nothing
ties a path to its parent here: `ensure` is what makes the directories on the
way to a new node.
-/
import Strata.Action
import Strata.Bytes
import Strata.Kind
import Strata.Path
import Strata.Table
import Strata.Timestamp

namespace Strata.Memory

/-- A directory or a file, with the time of its last change. -/
inductive Node where
  | directory (modified : Timestamp)
  | file (data : Bytes) (modified : Timestamp)
  deriving DecidableEq, Repr

namespace Node

/-- What the node is. -/
def kind : Node → Kind
  | .directory _ => .directory
  | .file _ _ => .file

/-- When the node was last changed. -/
def modified : Node → Timestamp
  | .directory t => t
  | .file _ t => t

/-- A new node: an empty file if a file is wanted, else a directory. -/
def empty (kind : Kind) (now : Timestamp) : Node :=
  match kind with
  | .file => .file [] now
  | _ => .directory now

end Node

/-- A table of nodes by path. -/
structure Tree where
  nodes : Table Node
  deriving DecidableEq, Repr

namespace Tree

/-- The tree of one directory, the root. -/
def root : Tree := ⟨Table.empty.put "" (.directory .epoch)⟩

/-- The node at a path. -/
def find? (t : Tree) (path : String) : Option Node := t.nodes.find? path

/-- What is at a path. -/
def kind (t : Tree) (path : String) : Kind :=
  match t.find? path with
  | some node => node.kind
  | none => .unknown

/-- The paths that hold a node, in order. -/
def paths (t : Tree) : List String := t.nodes.keys

/-- The tree with this node at this path. -/
def put (t : Tree) (path : String) (node : Node) : Tree := ⟨t.nodes.put path node⟩

/-- The tree without the path. -/
def erase (t : Tree) (path : String) : Tree := ⟨t.nodes.erase path⟩

/-- The tree without the path and without what lies below it. -/
def removeWithin (t : Tree) (top : String) : Tree :=
  ⟨t.nodes.keep fun p => !Path.liesWithin p top⟩

/-- The paths of the nodes directly below a directory, in order. -/
def childPaths (t : Tree) (path : String) : List String :=
  t.paths.filter fun p => !p.isEmpty && Path.parentOrRoot p == path

/-- Moves one node. -/
def move (t : Tree) (source target : String) : Tree :=
  match t.find? source with
  | some node => (t.erase source).put target node
  | none => t

/-- Moves a node and all that lies below it, in the order of the paths. -/
def moveWithin (t : Tree) (source target : String) : Tree :=
  (t.paths.filter fun p => Path.liesWithin p source).foldl
    (fun t p => t.move p (Path.rebase source target p)) t

/-- Goes along the components from `here` and makes the nodes that are missing: `kind` at the
target, which is told by its length, and directories on the way.  A node of another kind on the
way is in conflict. -/
def ensureFrom (now : Timestamp) (target : String) (kind : Kind) :
    String → List String → Action Tree Unit
  | _, [] => pure ()
  | here, c :: cs => do
    let here := Path.join here c
    let wanted := if here.utf8ByteSize = target.utf8ByteSize then kind else .directory
    match (← get).find? here with
    | some node => unless node.kind == wanted do throw (.conflict here)
    | none => modify (·.put here (.empty wanted now))
    ensureFrom now target kind here cs

/-- Makes a node of a kind at a path, and the directories on the way to it. -/
def ensure (now : Timestamp) (target : String) (kind : Kind) : Action Tree Unit :=
  ensureFrom now target kind "" (Path.components target)

/-! ## The tree as a function of the path -/

theorem find?_put (t : Tree) (path q : String) (node : Node) :
    (t.put path node).find? q = if q = path then some node else t.find? q :=
  Table.find?_put t.nodes path q node

theorem find?_erase (t : Tree) (path q : String) :
    (t.erase path).find? q = if q = path then none else t.find? q :=
  Table.find?_erase t.nodes path q

theorem find?_removeWithin (t : Tree) (top q : String) :
    (t.removeWithin top).find? q = if Path.liesWithin q top then none else t.find? q := by
  rw [removeWithin, find?, Table.find?_keep]
  by_cases h : Path.liesWithin q top <;> simp [h, find?]

end Tree

end Strata.Memory
