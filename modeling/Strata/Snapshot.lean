/-
# `Strata.Snapshot` — everything below an entry

A snapshot goes through a tree depth first, by the listings of its directories,
and notes what it finds: files with their contents, directories followed by what
is in them.  Where a call fails, the failure is noted and the rest goes on.
-/
import Strata.Provider

namespace Strata.Snapshot

/-- One thing that was found. -/
inductive Line where
  | file (path : String) (contents : Except Failure Bytes)
  | other (path : String) (kind : Kind)
  | unreadable (path : String) (failure : Failure)

variable {σ F E S : Type} (P : Provider σ F E S)

/-- What is below an entry, at most so many levels down. -/
def below : Nat → E → StateM σ (List Line)
  | 0, _ => return []
  | levels + 1, e => do
    match ← (P.children e).run with
    | .error f => return [.unreadable (P.path e) f]
    | .ok entries =>
      let found ← entries.mapM fun c => do
        match P.kind c (← get) with
        | .file => return [.file (P.path c) (← (P.readContents c).run)]
        | .directory => return .other (P.path c) .directory :: (← below levels c)
        | .unknown => return [.other (P.path c) .unknown]
      return found.flatten

end Strata.Snapshot
