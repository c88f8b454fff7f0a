/-
# `Strata.Shell.Program` — the program from its arguments to its exit code

The union is made from a manifest or from layers, then the command is carried
out.  The exit code is 0 after success, 1 after a failure, which is told on the
error output, and 2 for a command line that cannot be read.
-/
import Strata.Manifest.Build
import Strata.Shell.Commands

namespace Strata.Shell

/-- How a run of the program ended: its exit code, what its command printed, and what else it has
to say, which goes to the output if it is help and to the error output if not. -/
structure Outcome where
  code : Nat
  output : Bytes := []
  help : String := ""
  errors : String := ""

/-- What is printed for help. -/
def helpText : String :=
  "Inspect and edit a union of filesystems\n\n" ++
  "Usage: kasane [--manifest FILE | --layer DIR[:OPS]...] [--case-insensitive] COMMAND\n\n" ++
  "Commands: ls [PATH] [--long], tree [PATH] [--depth N], cat PATH, write PATH, mkdir PATH,\n" ++
  "          touch PATH, rm PATH, mv FROM TO, caps\n"

/-- What is printed when the command line cannot be read. -/
def usageText : String := "kasane: the command line cannot be read; --help shows its form\n"

/-- The line for a failure and what caused it. -/
def failureText (causes : List String) : String := "kasane: " ++ ": ".intercalate causes ++ "\n"

/-- The manifest that is meant, and where its relative roots count from. -/
def manifestOf (d : Disk) (i : Invocation) : Except (List String) (Manifest × Option String) := do
  let (m, base) ←
    match i.manifest with
    | some file =>
      match Manifest.load d file with
      | .ok m => .ok (m, some (Manifest.directoryOf file))
      | .error p => .error (s!"loading manifest {file}" :: p.causes)
    | none =>
      if i.layers.isEmpty then .error ["give --manifest or at least one --layer"]
      else .ok ({ layers := i.layers }, none)
  return (if i.fold then { m with settings := { m.settings with fold := true } } else m, base)

/-- Runs an invocation on the filesystems of a store. -/
def runInvocation (i : Invocation) (input : Bytes) (s : Store) : Outcome × Store :=
  match manifestOf s.disk i with
  | .error causes => ({ code := 1, errors := failureText causes }, s)
  | .ok (m, base) =>
    match ((m.build base).run.run s : Except Manifest.Problem Filesystem × Store) with
    | (.error p, s) => ({ code := 1, errors := failureText ("building union" :: p.causes) }, s)
    | (.ok f, s) =>
      let id := f.overlayId?.getD 0
      let (result, ((s, o), output)) :=
        (execute s.layerCalls input i.command).run.run ((s, s.overlay id), [])
      let s := s.setOverlay id o
      match result with
      | .ok () => ({ code := 0, output }, s)
      | .error causes => ({ code := 1, output, errors := failureText causes }, s)

/-- Runs the program on a disk. -/
def run (args : List String) (input : Bytes) (d : Disk) : Outcome × Disk :=
  match readCommandLine args with
  | .error .help => ({ code := 0, help := helpText }, d)
  | .error .wrong => ({ code := 2, errors := usageText }, d)
  | .ok i =>
    let (outcome, s) := runInvocation i input { disk := d, clock := d.clock }
    (outcome, s.disk)

end Strata.Shell
