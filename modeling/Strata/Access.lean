/-
# `Strata.Access` — what a filesystem may be asked to do

A filesystem advertises a set of `Operations`.  A byte stream is asked for with
an `OpenMode`, and a mode needs operations: reading needs `read`, writing needs
`write`.  A mapped stream is a wish that a filesystem may refuse; it needs no
operation of its own, so a mode of that alone asks for nothing.
-/
import Strata.Text.Blank

namespace Strata

/-- One thing that a filesystem may be asked to do. -/
inductive Operation where
  | read
  | write
  | delete
  | create
  deriving DecidableEq, Repr

/-- A set of operations. -/
structure Operations where
  read : Bool := false
  write : Bool := false
  delete : Bool := false
  create : Bool := false
  deriving DecidableEq, Repr

/-- How a byte stream is to be opened. -/
structure OpenMode where
  read : Bool := false
  write : Bool := false
  mapped : Bool := false
  deriving DecidableEq, Repr

/-! ## Operations one at a time -/

namespace Operation

/-- The name of the operation, as it is printed. -/
def name : Operation → String
  | .read => "read"
  | .write => "write"
  | .delete => "delete"
  | .create => "create"

/-- The one-letter name. -/
def letter : Operation → Char
  | .read => 'r'
  | .write => 'w'
  | .delete => 'd'
  | .create => 'c'

/-- All operations, in the order in which a set lists them. -/
def all : List Operation := [.read, .write, .delete, .create]

/-- Reads the name or the letter of an operation, in either case of its ASCII letters. -/
def ofName? (text : String) : Option Operation :=
  let lower := text.toList.map Char.toLower
  all.find? fun op => lower == op.name.toList || lower == [op.letter]

end Operation

/-! ## Sets of operations -/

namespace Operations

/-- No operation. -/
def none : Operations := {}

/-- Every operation. -/
def all : Operations := ⟨true, true, true, true⟩

/-- The set of one operation. -/
def only : Operation → Operations
  | .read => { read := true }
  | .write => { write := true }
  | .delete => { delete := true }
  | .create => { create := true }

/-- The operations in either set. -/
def union (a b : Operations) : Operations :=
  ⟨a.read || b.read, a.write || b.write, a.delete || b.delete, a.create || b.create⟩

instance : Union Operations := ⟨union⟩

/-- Whether the operation is in the set. -/
def has (ops : Operations) : Operation → Bool
  | .read => ops.read
  | .write => ops.write
  | .delete => ops.delete
  | .create => ops.create

instance : Membership Operation Operations := ⟨fun ops op => ops.has op = true⟩

instance (op : Operation) (ops : Operations) : Decidable (op ∈ ops) :=
  inferInstanceAs (Decidable (ops.has op = true))

/-- Whether the first set holds every operation of the second. -/
def covers (a b : Operations) : Bool := Operation.all.all fun op => !b.has op || a.has op

/-- Whether the set holds no operation. -/
def isNone (ops : Operations) : Bool := ops == none

/-- The set of a list of operations. -/
def ofList (ops : List Operation) : Operations :=
  ops.foldl (fun acc op => acc ∪ only op) none

/-- Four places, one for each operation: its letter, or a dash where it is missing. -/
def short (ops : Operations) : String :=
  String.ofList (Operation.all.map fun op => if ops.has op then op.letter else '-')

/-- The set as a number, the first operation in the lowest bit. -/
def bits (ops : Operations) : Nat :=
  ops.read.toNat + 2 * ops.write.toNat + 4 * ops.delete.toNat + 8 * ops.create.toNat

theorem mem_iff {op : Operation} {ops : Operations} : op ∈ ops ↔ ops.has op = true := Iff.rfl

theorem mem_union {op : Operation} {a b : Operations} : op ∈ a ∪ b ↔ op ∈ a ∨ op ∈ b := by
  show (a.union b).has op = true ↔ a.has op = true ∨ b.has op = true
  cases op <;> simp [union, has]

theorem mem_only {op op' : Operation} : op ∈ only op' ↔ op = op' := by
  show (only op').has op = true ↔ op = op'
  cases op <;> cases op' <;> decide

theorem covers_iff {a b : Operations} : a.covers b = true ↔ ∀ op, op ∈ b → op ∈ a := by
  have one (op : Operation) : (!b.has op || a.has op) = true ↔ (op ∈ b → op ∈ a) := by
    rw [mem_iff, mem_iff]
    cases b.has op <;> simp
  simp only [covers, List.all_eq_true, one]
  exact ⟨fun h op => h op (by cases op <;> simp [Operation.all]), fun h op _ => h op⟩

theorem covers_only {a : Operations} {op : Operation} : a.covers (only op) = true ↔ op ∈ a := by
  rw [covers_iff]
  exact ⟨fun h => h op (mem_only.mpr rfl), fun h x hx => mem_only.mp hx ▸ h⟩

theorem covers_of_all {a : Operations} (h : a.covers all = true) (b : Operations) :
    a.covers b = true :=
  covers_iff.mpr fun op _ => covers_iff.mp h op (by cases op <;> decide)

theorem ext_mem {a b : Operations} (h : ∀ op, op ∈ a ↔ op ∈ b) : a = b := by
  have hr := h .read
  have hw := h .write
  have hd := h .delete
  have hc := h .create
  simp only [mem_iff, has, ← Bool.eq_iff_iff] at hr hw hd hc
  cases a; cases b; simp_all

end Operations

/-! ## Open modes -/

namespace OpenMode

/-- The mode that reads. -/
def reading : OpenMode := { read := true }

/-- The mode that writes and does not keep what was there. -/
def writing : OpenMode := { write := true }

/-- The operations that a stream of this mode needs. -/
def required (mode : OpenMode) : Operations := { read := mode.read, write := mode.write }

/-- Whether a stream of this mode starts from nothing, whatever the file holds. -/
def truncates (mode : OpenMode) : Bool := mode.write && !mode.read

/-- The mode as messages show it. -/
def describe (mode : OpenMode) : String :=
  let flags := (if mode.read then ["READ"] else []) ++ (if mode.write then ["WRITE"] else []) ++
    (if mode.mapped then ["MEMORY_MAPPED"] else [])
  "OpenMode(" ++ (if flags.isEmpty then "0x0" else " | ".intercalate flags) ++ ")"

end OpenMode

end Strata
