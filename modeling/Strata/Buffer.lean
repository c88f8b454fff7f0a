/-
# `Strata.Buffer` — byte streams over a buffer in memory

A buffer holds the whole contents of a file, a position, and whether something
was written since the contents were last handed back.  Handing back is a commit:
a step in the world `σ` of whoever opened the stream, which may be refused.
`flush` commits a buffer that is dirty and no other; a refused commit leaves it
dirty, so the next flush, or `close` at the stream's end, tries again.

The position may stand past the end.  Reading there gives nothing; writing there
fills the gap with zeros, even when no byte is written.
-/
import Strata.Bytes
import Strata.Failure

namespace Strata

/-- A byte stream over a buffer. -/
structure Buffer where
  contents : Bytes
  position : Nat := 0
  writable : Bool := false
  dirty : Bool := false
  deriving DecidableEq, Repr

/-- Where a seek counts from, and how far it goes. -/
inductive SeekTarget where
  | start (offset : Nat)
  | here (offset : Int)
  | finish (offset : Int)
  deriving DecidableEq, Repr

namespace Buffer

/-- A stream that only reads. -/
def reader (contents : Bytes) : Buffer := { contents }

/-- A stream that also writes. -/
def writer (contents : Bytes) : Buffer := { contents, writable := true }

/-- One read of at most `n` bytes. -/
def read (b : Buffer) (n : Nat) : Bytes × Buffer :=
  let got := (b.contents.drop b.position).take n
  (got, { b with position := b.position + got.length })

/-- Reads up to the end. -/
def readAll (b : Buffer) : Bytes × Buffer :=
  let got := b.contents.drop b.position
  (got, { b with position := b.position + got.length })

/-- The refusal of a write to a stream that only reads. -/
def readOnly : IoError := .stated .permissionDenied "stream was opened read-only"

/-- One write; it takes all the bytes. -/
def write (b : Buffer) (data : Bytes) : Except IoError Nat × Buffer :=
  if b.writable then
    (.ok data.length,
      { b with
        contents := b.contents.overwrite b.position data
        position := b.position + data.length
        dirty := true })
  else (.error readOnly, b)

/-- Writes all the bytes; of no bytes it makes no write at all. -/
def writeAll (b : Buffer) (data : Bytes) : Except IoError Unit × Buffer :=
  if data.isEmpty then (.ok (), b)
  else
    match b.write data with
    | (.ok _, b) => (.ok (), b)
    | (.error e, b) => (.error e, b)

/-- One past the largest position. -/
def positionLimit : Nat := 0x10000000000000000

/-- The refusal of a seek that has no position to go to. -/
def badSeek : IoError :=
  .stated .invalidInput "invalid seek to a negative or overflowing position"

/-- The place that a seek goes to, which may be no position at all. -/
def target (b : Buffer) : SeekTarget → Int
  | .start n => n
  | .here k => b.position + k
  | .finish k => b.contents.length + k

/-- Moves the position; a seek that fails moves nothing. -/
def seek (b : Buffer) (goal : SeekTarget) : Except IoError Nat × Buffer :=
  let place := b.target goal
  if 0 ≤ place ∧ place < positionLimit then
    (.ok place.toNat, { b with position := place.toNat })
  else (.error badSeek, b)

/-- Commits the contents if they are dirty. -/
def flush {σ : Type} (b : Buffer) (commit : Bytes → StateM σ (Except IoError Unit)) :
    StateM σ (Except IoError Unit × Buffer) := do
  if b.dirty then
    match ← commit b.contents with
    | .ok () => return (.ok (), { b with dirty := false })
    | .error e => return (.error e, b)
  else return (.ok (), b)

/-- Ends the stream: a last flush, whose failure nobody hears of. -/
def close {σ : Type} (b : Buffer) (commit : Bytes → StateM σ (Except IoError Unit)) :
    StateM σ Unit := do
  let _ ← b.flush commit

/-- The stream with its parts named. -/
def inspect (b : Buffer) : String :=
  "BufferStream \x7b len: " ++ toString b.contents.length ++ ", position: " ++
    toString b.position ++ ", writable: " ++ toString b.writable ++ ", dirty: " ++
    toString b.dirty ++ " \x7d"

/-! ## First facts -/

theorem read_contents (b : Buffer) (n : Nat) : (b.read n).2.contents = b.contents := rfl

theorem seek_contents (b : Buffer) (goal : SeekTarget) : (b.seek goal).2.contents = b.contents := by
  unfold seek; dsimp only; split <;> rfl

theorem write_of_not_writable {b : Buffer} (h : b.writable = false) (data : Bytes) :
    b.write data = (.error readOnly, b) := by
  simp [write, h]

end Buffer

end Strata
