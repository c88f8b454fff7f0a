/-
# `Strata.Checksum` — the CRC-32 of archive records

The reflected CRC with polynomial `0xEDB88320`, register all ones at the start
and complemented at the end.  Two definitions of one step stand side by side:
`stepByte` looks the byte up in a table of 256 registers, `stepBits` feeds its
eight bits one at a time, least significant first.  The table's rows are the
registers that eight bit steps give.
-/

namespace Strata.Checksum

/-- The generator polynomial, lowest power in the highest bit. -/
def polynomial : UInt32 := 0xEDB88320

/-- Shifts the register by one bit, and takes the polynomial off if a one fell out. -/
def shift (r : UInt32) : UInt32 :=
  if r &&& 1 = 0 then r >>> 1 else polynomial ^^^ (r >>> 1)

/-- The register after `n` shifts. -/
def shifts : Nat → UInt32 → UInt32
  | 0, r => r
  | n + 1, r => shifts n (shift r)

/-- The registers of the 256 bytes, each after eight shifts. -/
def table : Array UInt32 := Array.ofFn fun i : Fin 256 => shifts 8 (UInt32.ofNat i)

/-- Takes one byte into the register, by the table. -/
def stepByte (r : UInt32) (b : UInt8) : UInt32 :=
  table.getD ((r ^^^ b.toUInt32) &&& 0xFF).toNat 0 ^^^ (r >>> 8)

/-- Takes one bit into the register. -/
def stepBit (r : UInt32) (bit : Bool) : UInt32 := shift (r ^^^ (if bit then 1 else 0))

/-- The bits of a byte, least significant first. -/
def bitsOf (b : UInt8) : List Bool := (List.range 8).map fun i => b.toNat.testBit i

/-- Takes one byte into the register, bit by bit. -/
def stepBits (r : UInt32) (b : UInt8) : UInt32 := (bitsOf b).foldl stepBit r

/-- The register after a list of bytes. -/
def register (r : UInt32) (data : List UInt8) : UInt32 := data.foldl stepByte r

/-- The CRC-32 of a list of bytes. -/
def crc32 (data : List UInt8) : UInt32 := ~~~ register 0xFFFFFFFF data

/-- The CRC-32 of a list of bytes, bit by bit. -/
def crc32Bitwise (data : List UInt8) : UInt32 := ~~~ data.foldl stepBits 0xFFFFFFFF

theorem register_append (r : UInt32) (xs ys : List UInt8) :
    register r (xs ++ ys) = register (register r xs) ys := by
  simp [register]

theorem crc32_nil : crc32 [] = 0 := by decide

end Strata.Checksum
