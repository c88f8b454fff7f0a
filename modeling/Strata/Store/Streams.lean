/-
# `Strata.Store.Streams` — byte streams in the store

A buffer commits to the file of a memory filesystem; a stream without such a
file only reads, and its commits go nowhere.  A stream on a file of the disk
reads and writes the disk.
-/
import Strata.Store.Basic

namespace Strata.Store

/-- Hands the contents of a buffer back to where its stream was opened. -/
def commit (sink : Option (Nat × String)) (data : Bytes) :
    StateM Store (Except IoError Unit) := fun s =>
  match sink with
  | none => (.ok (), s)
  | some (id, path) =>
    let (r, m) := (Memory.commit s.clock path data).run (s.memory id)
    (r, { s with memories := s.memories.setIfInBounds id m })

/-- The calls on the streams of the store. -/
def streams : StreamCalls Store Stream where
  read
    | .buffer b sink, n => let (data, b) := b.read n; return (.ok data, .buffer b sink)
    | .file f, n => do let (r, f) := f.read n (← get).disk; return (r, .file f)
  readAll
    | .buffer b sink => let (data, b) := b.readAll; return (.ok data, .buffer b sink)
    | .file f => do let (r, f) := f.readAll (← get).disk; return (r, .file f)
  write
    | .buffer b sink, data => let (r, b) := b.write data; return (r, .buffer b sink)
    | .file f, data => fun s =>
      let (r, f, d) := f.write data s.disk
      ((r, .file f), { s with disk := d })
  writeAll
    | .buffer b sink, data => let (r, b) := b.writeAll data; return (r, .buffer b sink)
    | .file f, data => fun s =>
      if data.isEmpty then ((.ok (), .file f), s)
      else
        let (r, f, d) := f.write data s.disk
        ((r.map fun _ => (), .file f), { s with disk := d })
  seek
    | .buffer b sink, goal => let (r, b) := b.seek goal; return (r, .buffer b sink)
    | .file f, goal => do let (r, f) := f.seek goal (← get).disk; return (r, .file f)
  flush
    | .buffer b sink => do let (r, b) ← b.flush (commit sink); return (r, .buffer b sink)
    | .file f => return (.ok (), .file f)
  close
    | .buffer b sink => b.close (commit sink)
    | .file _ => return ()

end Strata.Store
