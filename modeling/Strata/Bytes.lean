/-
# `Strata.Bytes` — file contents
-/

namespace Strata

/-- The contents of a file. -/
abbrev Bytes := List UInt8

namespace Bytes

/-- The UTF-8 form of a text. -/
def ofText (s : String) : Bytes := s.toUTF8.toList

/-- The text whose UTF-8 form the bytes are, if there is one. -/
def toText? (b : Bytes) : Option String := String.fromUTF8? ⟨b.toArray⟩

/-- `b` with zeros after it, up to `n` bytes. -/
def padTo (n : Nat) (b : Bytes) : Bytes := b ++ List.replicate (n - b.length) 0

/-- `b` with `data` written over it from position `pos` on; a gap before `pos` is filled with
zeros. -/
def overwrite (b : Bytes) (pos : Nat) (data : Bytes) : Bytes :=
  (padTo pos b).take pos ++ data ++ b.drop (pos + data.length)

theorem length_padTo (n : Nat) (b : Bytes) : (padTo n b).length = max n b.length := by
  simp [padTo]; omega

theorem length_overwrite (b : Bytes) (pos : Nat) (data : Bytes) :
    (overwrite b pos data).length = max b.length (pos + data.length) := by
  simp [overwrite, length_padTo]; omega

end Bytes

end Strata
