/-
# `Strata.Proofs.Store.Streams` — what a stream of the store does to its file

A stream that was opened for writing commits to a file of a memory filesystem.
Where the file is still there, a flush of what was written puts it into the file,
with the time of the clock, and changes nothing else.
-/
import Strata.Proofs.Buffer.Commits
import Strata.Proofs.Memory.Runs
import Strata.Proofs.Store.Changes

namespace Strata

/-- A stream for writing buffers all that it is handed first. -/
theorem Buffer.writeAll_writer {data : Bytes} (h0 : data ≠ []) :
    (Buffer.writer []).writeAll data = (.ok (),
      { contents := data, position := data.length, writable := true, dirty := true }) := by
  rw [Buffer.writeAll, if_neg (by simpa using h0), Buffer.write_of_writable rfl]
  simp [Buffer.writer, Bytes.overwrite, Bytes.padTo]

namespace Store

variable {s : Store} {id : Nat} {path : String} {old : Bytes} {mtime : Timestamp}

/-- What a stream for writing is handed changes nothing yet. -/
theorem run_writeAll_writer {data : Bytes} (h0 : data ≠ []) (sink : Option (Nat × String))
    (s : Store) :
    (Store.streams.writeAll (.buffer (.writer []) sink) data).run s = ((.ok (), .buffer
      { contents := data, position := data.length, writable := true, dirty := true } sink), s) := by
  show ((((Buffer.writer []).writeAll data).1,
    Stream.buffer ((Buffer.writer []).writeAll data).2 sink), s) = _
  rw [Buffer.writeAll_writer h0]

/-- A commit of a stream of the store puts its contents into the file. -/
theorem run_commit (hf : (s.memory id).tree.find? path = some (.file old mtime)) (data : Bytes) :
    (Store.commit (some (id, path)) data).run s = (.ok (), s.setMemory id
      { s.memory id with tree := (s.memory id).tree.put path (.file data s.clock) }) := by
  obtain ⟨hno, -⟩ | ⟨_, _, -, he⟩ := Memory.commit_cases (s.memory id) s.clock path data
  · exact absurd (Memory.kind_of_file hf) hno
  · show (((Memory.commit s.clock path data).run (s.memory id)).1,
      s.setMemory id ((Memory.commit s.clock path data).run (s.memory id)).2) = _
    rw [he]

/-- A flush of a stream of the store puts what it has buffered into the file. -/
theorem run_flush (hf : (s.memory id).tree.find? path = some (.file old mtime)) {b : Buffer}
    (hdirty : b.dirty = true) :
    (Store.streams.flush (.buffer b (some (id, path)))).run s
      = ((.ok (), .buffer { b with dirty := false } (some (id, path))), s.setMemory id
        { s.memory id with tree := (s.memory id).tree.put path (.file b.contents s.clock) }) := by
  have hcommit := run_commit hf b.contents
  have hb : (b.flush (Store.commit (some (id, path)))).run s
      = ((.ok (), { b with dirty := false }), s.setMemory id
        { s.memory id with tree := (s.memory id).tree.put path (.file b.contents s.clock) }) := by
    obtain ⟨hclean, -⟩ | ⟨-, _, hok, hrun⟩ | ⟨-, _, _, hno, -⟩ :=
      Buffer.flush_cases (Store.commit (some (id, path))) b s
    · cases hdirty.symm.trans hclean
    · obtain ⟨-, rfl⟩ := Prod.mk.inj (hcommit.symm.trans hok)
      exact hrun
    · cases hcommit.symm.trans hno
  rw [Store.streams, StateT.run_bind, hb]
  rfl

end Store

end Strata
