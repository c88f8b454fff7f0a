/-
# `Strata.Disk.OpenFile` — byte streams on files of a disk

A stream on a disk's file works on the file itself: what it writes can be read
at once, and there is nothing to flush.  The disk refuses a read on a stream
that only writes, a write on one that only reads, and a seek to no position.
-/
import Strata.Buffer
import Strata.Disk.Calls

namespace Strata.Disk

/-- A byte stream on a file, known by its number. -/
structure OpenFile where
  number : Nat
  position : Nat := 0
  readable : Bool
  writable : Bool
  deriving DecidableEq, Repr

namespace OpenFile

/-- The largest position in a file. -/
def positionLimit : Nat := 0x7fffffffffffffff

/-- What is left from the position on. -/
def remaining (f : OpenFile) (d : Disk) : Bytes := (d.contentsOf f.number).drop f.position

/-- One read of at most `n` bytes. -/
def read (f : OpenFile) (n : Nat) (d : Disk) : Except IoError Bytes × OpenFile :=
  if f.readable then
    let got := (f.remaining d).take n
    (.ok got, { f with position := f.position + got.length })
  else (.error (.system .badDescriptor), f)

/-- Reads up to the end. -/
def readAll (f : OpenFile) (d : Disk) : Except IoError Bytes × OpenFile :=
  if f.readable then
    let got := f.remaining d
    (.ok got, { f with position := f.position + got.length })
  else (.error (.system .badDescriptor), f)

/-- One write; it takes all the bytes, and of no bytes it changes nothing. -/
def write (f : OpenFile) (data : Bytes) (d : Disk) : Except IoError Nat × OpenFile × Disk :=
  if !f.writable then (.error (.system .badDescriptor), f, d)
  else if data.isEmpty then (.ok 0, f, d)
  else if positionLimit < f.position + data.length then (.error (.system .fileTooLarge), f, d)
  else
    (.ok data.length, { f with position := f.position + data.length },
      d.setContents f.number ((d.contentsOf f.number).overwrite f.position data))

/-- Moves the position; a seek that fails moves nothing. -/
def seek (f : OpenFile) (goal : SeekTarget) (d : Disk) : Except IoError Nat × OpenFile :=
  let place : Int :=
    match goal with
    | .start n => n
    | .here k => f.position + k
    | .finish k => (d.contentsOf f.number).length + k
  if 0 ≤ place ∧ place ≤ positionLimit then (.ok place.toNat, { f with position := place.toNat })
  else (.error (.system .invalid), f)

end OpenFile

end Strata.Disk
