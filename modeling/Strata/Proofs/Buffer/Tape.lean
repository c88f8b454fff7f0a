/-
# `Strata.Proofs.Buffer.Tape` — the bytes of a stream, place by place

A tape is an array of bytes with a position: it says how many bytes there are and
which one stands at each place.  Reading, writing and seeking on a tape are said place
by place, and nothing is cut or joined.  A buffer cuts and joins lists of bytes; it
gives the same bytes and goes to the same places as the tape that it `Plays`.
-/
import Mathlib.Data.List.Basic
import Strata.Buffer

namespace Strata

/-- An array of bytes with a position, which may stand past the end. -/
structure Tape where
  size : Nat
  byte : Nat → UInt8
  position : Nat

namespace Tape

/-- The bytes of so many places, from one place on. -/
def slice (t : Tape) (start count : Nat) : Bytes := (List.range' start count).map t.byte

/-- All the bytes. -/
def bytes (t : Tape) : Bytes := t.slice 0 t.size

/-- The tape of these bytes, at its start. -/
def ofBytes (data : Bytes) : Tape := ⟨data.length, fun i => data.getD i 0, 0⟩

/-- How many of `n` bytes are left to read. -/
def available (t : Tape) (n : Nat) : Nat := min n (t.size - t.position)

/-- The tape at another position. -/
def moveTo (t : Tape) (position : Nat) : Tape := { t with position }

/-- The data stands from the position on; elsewhere stands what stood there, and a place that was
past the end and got no data holds zero. -/
def write (t : Tape) (data : Bytes) : Tape where
  size := max t.size (t.position + data.length)
  byte i :=
    if t.position ≤ i ∧ i < t.position + data.length then data.getD (i - t.position) 0
    else if i < t.size then t.byte i
    else 0
  position := t.position + data.length

/-- The place that a seek asks for, counted from the start, from the position or from the end. -/
def goal (t : Tape) : SeekTarget → Int
  | .start n => n
  | .here k => t.position + k
  | .finish k => t.size + k

/-- Where a seek goes: to the place that it asks for, if that is a position. -/
def place? (t : Tape) (goal : SeekTarget) : Option Nat :=
  if 0 ≤ t.goal goal ∧ t.goal goal < Buffer.positionLimit then some (t.goal goal).toNat else none

variable (t : Tape)

@[simp] theorem length_slice (start count : Nat) : (t.slice start count).length = count := by
  simp [slice]

@[simp] theorem length_bytes : t.bytes.length = t.size := t.length_slice 0 t.size

theorem getElem?_slice {start count i : Nat} (h : i < count) :
    (t.slice start count)[i]? = some (t.byte (start + i)) := by
  simp [slice, h]

theorem getElem?_bytes {i : Nat} (h : i < t.size) : t.bytes[i]? = some (t.byte i) := by
  rw [bytes, getElem?_slice t h, Nat.zero_add]

/-- Two lists of bytes are the same if they are as long as each other and agree at each place. -/
theorem bytes_eq {t : Tape} {data : Bytes} (hlen : data.length = t.size)
    (h : ∀ i, i < t.size → data[i]? = some (t.byte i)) : data = t.bytes := by
  refine List.ext_getElem? fun i => ?_
  by_cases hi : i < t.size
  · rw [h i hi, t.getElem?_bytes hi]
  · rw [List.getElem?_eq_none (by omega), List.getElem?_eq_none (by rw [length_bytes]; omega)]

theorem bytes_ofBytes (data : Bytes) : (ofBytes data).bytes = data := by
  refine (bytes_eq rfl fun i hi => ?_).symm
  have hi : i < data.length := hi
  simp [ofBytes, hi]

theorem take_drop_bytes (start n : Nat) :
    (t.bytes.drop start).take n = t.slice start (min n (t.size - start)) := by
  refine List.ext_getElem? fun i => ?_
  by_cases hi : i < min n (t.size - start)
  · have hin : i < n := by omega
    have hsize : start + i < t.size := by omega
    rw [getElem?_slice t hi, List.getElem?_take_of_lt hin, List.getElem?_drop,
      t.getElem?_bytes hsize]
  · rw [List.getElem?_eq_none (by simp; omega), List.getElem?_eq_none (by simp; omega)]

/-- Data written over a list of bytes stands at its places; everything else stays, with zeros in
the gap. -/
theorem overwrite_bytes (data : Bytes) :
    t.bytes.overwrite t.position data = (t.write data).bytes := by
  have hpad : ((Bytes.padTo t.position t.bytes).take t.position).length = t.position := by
    rw [List.length_take, Bytes.length_padTo, length_bytes]
    omega
  refine bytes_eq (by rw [Bytes.length_overwrite, length_bytes]; rfl) fun i hi => ?_
  have hi : i < max t.size (t.position + data.length) := hi
  show _ = some (if _ then _ else _)
  rw [Bytes.overwrite, List.append_assoc]
  by_cases hbefore : i < t.position
  · rw [List.getElem?_append_left (by omega), List.getElem?_take_of_lt hbefore,
      if_neg (by omega), Bytes.padTo]
    by_cases hsize : i < t.size
    · rw [List.getElem?_append_left (by simpa using hsize), t.getElem?_bytes hsize, if_pos hsize]
    · rw [List.getElem?_append_right (by simpa using hsize), if_neg hsize,
        List.getElem?_replicate_of_lt (by rw [length_bytes]; omega)]
  · rw [List.getElem?_append_right (by omega), hpad]
    by_cases hdata : i - t.position < data.length
    · rw [List.getElem?_append_left hdata, if_pos (by omega), List.getD_eq_getElem?_getD,
        List.getElem?_eq_getElem hdata]
      rfl
    · rw [List.getElem?_append_right (by omega), if_neg (by omega), List.getElem?_drop,
        show t.position + data.length + (i - t.position - data.length) = i by omega,
        t.getElem?_bytes (by omega), if_pos (by omega)]

end Tape

namespace Buffer

/-- The buffer holds the bytes of the tape and stands where the tape stands. -/
structure Plays (b : Buffer) (t : Tape) : Prop where
  contents : b.contents = t.bytes
  position : b.position = t.position

variable {b : Buffer} {t : Tape}

theorem Plays.read (h : b.Plays t) (n : Nat) :
    (b.read n).1 = t.slice t.position (t.available n) ∧
      (b.read n).2.Plays (t.moveTo (t.position + t.available n)) := by
  have hgot : (b.read n).1 = t.slice t.position (t.available n) := by
    show (b.contents.drop b.position).take n = _
    rw [h.contents, h.position, t.take_drop_bytes, Tape.available]
  refine ⟨hgot, h.contents, ?_⟩
  show b.position + (b.read n).1.length = _
  rw [hgot, t.length_slice, h.position]
  rfl

theorem write_of_writable (hw : b.writable = true) (data : Bytes) :
    b.write data = (.ok data.length,
      { b with
        contents := b.contents.overwrite b.position data
        position := b.position + data.length
        dirty := true }) := by
  rw [Buffer.write, if_pos hw]

theorem Plays.write (h : b.Plays t) (hw : b.writable = true) (data : Bytes) :
    (b.write data).2.Plays (t.write data) := by
  rw [write_of_writable hw]
  refine ⟨?_, ?_⟩
  · show b.contents.overwrite b.position data = _
    rw [h.contents, h.position, t.overwrite_bytes]
  · show b.position + data.length = t.position + data.length
    rw [h.position]

theorem Plays.target (h : b.Plays t) (goal : SeekTarget) : b.target goal = t.goal goal := by
  cases goal with
  | start n => rfl
  | here k => rw [Buffer.target, Tape.goal, h.position]
  | finish k => rw [Buffer.target, Tape.goal, h.contents, t.length_bytes]

/-- A seek goes to its place if that is a position; else it fails and nothing has moved. -/
theorem Plays.seek (h : b.Plays t) (goal : SeekTarget) :
    (∃ p, t.place? goal = some p ∧ b.seek goal = (.ok p, { b with position := p })) ∨
      (t.place? goal = none ∧ b.seek goal = (.error badSeek, b)) := by
  rw [Buffer.seek, h.target goal, Tape.place?]
  by_cases hp : 0 ≤ t.goal goal ∧ t.goal goal < positionLimit
  · exact .inl ⟨_, if_pos hp, if_pos hp⟩
  · exact .inr ⟨if_neg hp, if_neg hp⟩

end Buffer

end Strata
