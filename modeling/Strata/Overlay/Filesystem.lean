/-
# `Strata.Overlay.Filesystem` — a union as a filesystem

A union answers what every filesystem answers, in the world of its layers
together with itself, so unions can be layers of unions and can be checked
against the same contracts as any other filesystem.
-/
import Strata.Overlay.Calls

namespace Strata

variable {σ τ S : Type}

/-- The calls on streams in a larger world. -/
def StreamCalls.zoom (view : σ → τ) (update : τ → σ → σ) (calls : StreamCalls τ S) :
    StreamCalls σ S :=
  let lift {α : Type} (x : StateM τ α) : StateM σ α := fun s =>
    let (a, t) := x.run (view s)
    (a, update t s)
  { read := fun s n => lift (calls.read s n)
    readAll := fun s => lift (calls.readAll s)
    write := fun s data => lift (calls.write s data)
    writeAll := fun s data => lift (calls.writeAll s data)
    seek := fun s goal => lift (calls.seek s goal)
    flush := fun s => lift (calls.flush s)
    close := fun s => lift (calls.close s) }

namespace Overlay

variable {F E : Type}

/-- What a union is called, after the names of its layers. -/
def nameOf (names : List String) : String := "union[" ++ ", ".intercalate names ++ "]"

/-- A union over the layers of a provider, as a provider of one filesystem. -/
def provider (P : Provider σ F E S) : Provider (σ × Overlay F E) Unit (Node E) S where
  root _ := .root
  operations _ w := operations P w.2 w.1
  name _ w := nameOf (w.2.layers.map fun f => P.name f w.1)
  path := Node.path
  kind node w := kind P node w.1
  modified node w := modified P node w.1
  child := child P
  children := children P
  count := count P
  openStream := openStream P
  delete := delete P
  create := create P
  rename := rename P
  streams := P.streams.zoom (·.1) fun s w => (s, w.2)

/-- An entry of a union with its parts named. -/
def inspectNode (o : Overlay F E) (node : Node E) : String :=
  let layer := match node.layer? with
    | some i => "Some(" ++ toString i ++ ")"
    | none => "None"
  "UnionEntry \x7b path: " ++ Text.quoted node.path ++ ", backend_index: " ++ layer ++
    ", dirty: " ++ toString (o.listing node.slot).dirty ++ " \x7d"

/-- A union with its parts named, over layers of these names. -/
def inspect (o : Overlay F E) (names : List String) : String :=
  "UnionFileSystem \x7b backends: " ++ Text.quotedList names ++
    ", settings: UnionSettings \x7b case_insensitive: " ++ toString o.fold ++
    ", invalidation: " ++ o.policy.label ++ " \x7d \x7d"

end Overlay

end Strata
