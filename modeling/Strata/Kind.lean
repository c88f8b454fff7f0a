/-
# `Strata.Kind` — what is found at a path
-/

namespace Strata

/-- What is found at a path: a directory, a file, or nothing that can be used. -/
inductive Kind where
  | unknown
  | directory
  | file
  deriving DecidableEq, Repr

namespace Kind

/-- The name of the kind, as it is printed. -/
def name : Kind → String
  | .unknown => "unknown"
  | .directory => "directory"
  | .file => "file"

/-- The name that starts with a capital, as entries show their kind when they are inspected. -/
def label : Kind → String
  | .unknown => "Unknown"
  | .directory => "Directory"
  | .file => "File"

/-- Reads the name of a kind, in either case of its ASCII letters. -/
def ofName? (text : String) : Option Kind :=
  [unknown, directory, file].find? fun k => text.toList.map Char.toLower == k.name.toList

/-- Whether there is something at the path. -/
def exists? (k : Kind) : Bool := k != .unknown

/-- Whether an entry of the kind can be created: one of each kind that can exist. -/
def isCreatable (k : Kind) : Bool := k.exists?

/-- Whether the kind is a directory. -/
def isDirectory (k : Kind) : Bool := k == .directory

/-- Whether the kind is a file. -/
def isFile (k : Kind) : Bool := k == .file

end Kind

end Strata
