/-
# `Strata.Action` — calls that may fail and may change a world

An `Action σ` runs in a world `σ`.  What it changed stays changed when it fails:
a call that fails halfway leaves behind what it did before.
-/
import Strata.Failure

namespace Strata

/-- A call in the world `σ`. -/
abbrev Action (σ : Type) := ExceptT Failure (StateM σ)

namespace Action

variable {σ τ α : Type}

/-- Runs a call and hands its failure over as a value. -/
def attempt (x : Action σ α) : Action σ (Except Failure α) :=
  ExceptT.mk do return .ok (← x.run)

/-- A call that only looks at the world. -/
def look (f : σ → α) : Action σ α := do return f (← get)

/-- A result that needs no world. -/
def ofExcept (r : Except Failure α) : Action σ α := ExceptT.mk (pure r)

/-- The result of a stream step, with its failure counted as a failure of the call. -/
def ofIo (r : Except IoError α) : Action σ α :=
  ofExcept (match r with | .ok a => .ok a | .error e => .error (.io e))

/-- Runs a call in a part of a larger world. -/
def zoom (view : σ → τ) (update : τ → σ → σ) (x : Action τ α) : Action σ α :=
  ExceptT.mk fun s =>
    let (r, t) := x.run.run (view s)
    (r, update t s)

theorem run_attempt (x : Action σ α) (s : σ) :
    (attempt x).run.run s = (.ok (x.run.run s).1, (x.run.run s).2) := rfl

theorem run_look (f : σ → α) (s : σ) : (look f).run.run s = (.ok (f s), s) := rfl

theorem run_ofExcept (r : Except Failure α) (s : σ) : (ofExcept r).run.run s = (r, s) := rfl

end Action

end Strata
