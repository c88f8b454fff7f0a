/-
# `Strata.Archive.Basic` — read-only filesystems over archives

Decoding a container is the job of its `Reader`, which lists the records and
extracts their bytes.  An archive filesystem is the index of the records beside
the reader's extraction.  Bytes are compared with the checksum that the record
stores before a stream on them is handed out.
-/
import Strata.Archive.Index
import Strata.Checksum
import Strata.Lookup
import Strata.Provider

namespace Strata

namespace Archive

/-- A decoded container. -/
structure Reader where
  /-- The records in the order of the container. -/
  records : Except Failure (List Record)
  /-- The bytes of the record at a position. -/
  extract : Nat → Except Failure Bytes

namespace Reader

/-- The reader of a container whose records are kept as they are. -/
def stored (files : List (Record × Bytes)) : Reader where
  records := .ok (files.map (·.1))
  extract i :=
    match files[i]? with
    | some (_, data) => .ok data
    | none => .error (.backend s!"no record at index {i}")

end Reader

/-- The record of a file with these bytes. -/
def Record.file (path : String) (data : Bytes) : Record :=
  ⟨path, .file, data.length, some (Checksum.crc32 data), none⟩

/-- The record of a directory. -/
def Record.directory (path : String) : Record := ⟨path, .directory, 0, none, none⟩

end Archive

/-- A filesystem over an archive. -/
structure Archive where
  name : String
  index : Archive.Index
  extract : Nat → Except Failure Bytes

namespace Archive

/-- The filesystem of a container; it fails when the records contradict each other. -/
def ofReader (name : String) (reader : Reader) : Except Failure Archive := do
  let records ← reader.records
  return ⟨name, ← Index.ofRecords name records, reader.extract⟩

/-- All that an archive allows. -/
def operations : Operations := .only .read

/-- What is at a path. -/
def kind (a : Archive) (path : String) : Kind := a.index.kind path

/-- The modification time of what is at a path. -/
def modified (a : Archive) (path : String) : Timestamp :=
  match a.index.find? path with
  | some node => node.modified
  | none => .epoch

/-- The path that a name leads to. -/
def child (a : Archive) (path name : String) : Except Failure (Option String) :=
  Lookup.child (fun p => .ok (a.kind p)) path name

/-- The paths directly below a directory. -/
def children (a : Archive) (path : String) : Except Failure (List String) :=
  if (a.kind path).isDirectory then .ok (a.index.childPaths path)
  else .error (.notADirectory path)

/-- The bytes, if they have the stored checksum or none is stored. -/
def verify (path : String) (crc : Option UInt32) (data : Bytes) : Except Failure Bytes :=
  match crc with
  | none => .ok data
  | some expected =>
    if Checksum.crc32 data = expected then .ok data
    else .error (.backend s!"CRC error (archive corrupted?): {path}")

/-- Opens the file at a path for reading. -/
def openBuffer (a : Archive) (path : String) (mode : OpenMode) : Except Failure Buffer := do
  let _ ← mode.checkAgainst operations path
  match a.index.find? path with
  | some node =>
    if node.kind.isFile then
      if mode.mapped then
        throw (.backend s!"archive entries can't be memory mapped: {path}")
      match node.record with
      | none => throw (.backend s!"no record for {path}")
      | some position =>
        return .reader (← verify path node.crc (← a.extract position))
    else throw (.notAFile path)
  | none => throw (.notAFile path)

/-- The refusal of every call that would change an archive. -/
def readOnly (a : Archive) (path : String) : Failure :=
  .unsupported s!"{a.name} is read-only: {path}"

/-- The archive with its parts named. -/
def inspect (a : Archive) : String :=
  "ArchiveFileSystem \x7b name: " ++ Text.quoted a.name ++ ", entries: " ++
    toString a.index.nodes.length ++ " \x7d"

end Archive

end Strata
