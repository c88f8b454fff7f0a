/-
# `Strata.Proofs.Shell.Runs` — what a command answers, prints and leaves behind

A command is a call on a union that also prints.  `Run.exec` runs it and gives its
answer beside the world after it and what was printed by then; the facts below
compute it for all that commands are made of.
-/
import Strata.Proofs.Action
import Strata.Proofs.Overlay.Rendering
import Strata.Shell.Commands

namespace Strata.Shell

open Strata.Action

variable {σ F E S α β : Type}

namespace Run

/-- What the command answers, and the world and the output that it leaves behind. -/
def exec (x : Run σ F E α) (w : σ × Overlay F E) (out : Bytes) :
    Except (List String) α × ((σ × Overlay F E) × Bytes) := x.run.run (w, out)

variable (w : σ × Overlay F E) (out : Bytes)

@[simp] theorem exec_pure (a : α) : (pure a : Run σ F E α).exec w out = (.ok a, (w, out)) := rfl

@[simp] theorem exec_throw (causes : List String) :
    (throw causes : Run σ F E α).exec w out = (.error causes, (w, out)) := rfl

@[simp] theorem exec_bind (x : Run σ F E α) (f : α → Run σ F E β) :
    Run.exec (x >>= f) w out =
      match x.exec w out with
      | (.ok a, (w', out')) => (f a).exec w' out'
      | (.error causes, rest) => (.error causes, rest) := by
  simp only [exec, ExceptT.run_bind, StateT.run_bind]
  rcases x.run.run (w, out) with ⟨_ | _, _⟩ <;> rfl

@[simp] theorem exec_call (x : Overlay.Call σ F E α) :
    (call x).exec w out = ((x.exec w).1.mapError Failure.causes, ((x.exec w).2, out)) := by
  show (match x.exec w with
    | (.ok a, w) => _
    | (.error f, w) => _ : Except (List String) α × ((σ × Overlay F E) × Bytes)) = _
  rcases x.exec w with ⟨_ | _, _⟩ <;> rfl

@[simp] theorem exec_stream (x : StateM σ α) :
    Run.exec (stream x : Run σ F E α) w out
      = (.ok (x.run w.1).1, (((x.run w.1).2, w.2), out)) := rfl

@[simp] theorem exec_print (data : Bytes) :
    (print data : Run σ F E Unit).exec w out = (.ok (), (w, out ++ data)) := rfl

end Run

variable (P : Provider σ F E S) (input : Bytes) (w : σ × Overlay F E) (out : Bytes)

/-- Touching a path creates a file there, from the root. -/
theorem exec_touch (path : String) :
    (execute P input (.touch path)).exec w out =
      (((Overlay.create P .root .file path).exec w).1.map (fun _ => ()) |>.mapError Failure.causes,
        (((Overlay.create P .root .file path).exec w).2, out)) := by
  rw [execute]
  simp only [Run.exec_bind, Run.exec_call]
  rcases (Overlay.create P .root .file path).exec w with ⟨_ | _, _⟩ <;> rfl

section
variable {P w} {path : String}

/-- Where bytes are read there is an entry, and they are what is in it. -/
theorem exists_of_bytesAt {data : Bytes}
    (h : ((Overlay.bytesAt P path).exec w).1 = .ok (some data)) :
    ∃ node w' w'', (Overlay.entry P path).exec w = (.ok (some node), w') ∧
      ((union P).readContents node).exec w' = (.ok data, w'') := by
  rw [Overlay.bytesAt, exec_bind] at h
  rcases he : (Overlay.entry P path).exec w with ⟨e | _ | node, w'⟩
  · simp [he] at h
  · simp [he] at h
  · rcases hread : ((union P).readContents node).exec w' with ⟨e | data', w''⟩
    · simp [he, hread] at h
    · obtain rfl : data' = data := by simpa [he, hread] using h
      exact ⟨node, w', w'', rfl, hread⟩

theorem missing_of_bytesAt (h : ((Overlay.bytesAt P path).exec w).1 = .ok none) :
    ∃ w', (Overlay.entry P path).exec w = (.ok none, w') := by
  rw [Overlay.bytesAt, exec_bind] at h
  rcases he : (Overlay.entry P path).exec w with ⟨e | _ | node, w'⟩
  · simp [he] at h
  · exact ⟨w', rfl⟩
  · rcases hread : ((union P).readContents node).exec w' with ⟨e | data', w''⟩
    all_goals simp [he, hread] at h

/-- What is printed of a file is what is read from it. -/
theorem exec_cat_of_bytes {data : Bytes}
    (h : ((Overlay.bytesAt P path).exec w).1 = .ok (some data)) :
    ∃ w', (execute P input (.cat path)).exec w out = (.ok (), (w', out ++ data)) := by
  obtain ⟨node, w', w'', he, hread⟩ := exists_of_bytesAt h
  exact ⟨w'', by simp [execute, entryAt, he, hread, Except.mapError]⟩

theorem exec_cat_of_none (h : ((Overlay.bytesAt P path).exec w).1 = .ok none) :
    ∃ w', (execute P input (.cat path)).exec w out
      = (.error [s!"{path}: no such file or directory"], (w', out)) := by
  obtain ⟨w', he⟩ := missing_of_bytesAt h
  exact ⟨w', by simp [execute, entryAt, he, Except.mapError]⟩

end

end Strata.Shell
