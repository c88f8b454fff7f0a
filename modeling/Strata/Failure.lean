/-
# `Strata.Failure` — why a call failed

A `Failure` has a cause and a text.  It belongs to one of two classes: the call
asked for something it may not have (`misuse`), or the filesystem below it
could not deliver (`filesystem`).  A union moves on to its next layer after a
failure of the second class only.  An absent name is no failure: looking it up
answers `none`.

`IoError` is the failure of a byte stream or of the disk itself.
-/
import Strata.Text.Quoted

namespace Strata

/-! ## Failures of streams and of the disk -/

/-- What the operating system reports. -/
inductive SystemError where
  | noEntry
  | badDescriptor
  | alreadyThere
  | notADirectory
  | isADirectory
  | invalid
  | fileTooLarge
  | nameTooLong
  | notEmpty
  | tooManyLinks
  deriving DecidableEq, Repr

namespace SystemError

/-- The number of the error on Linux. -/
def number : SystemError → Nat
  | .noEntry => 2
  | .badDescriptor => 9
  | .alreadyThere => 17
  | .notADirectory => 20
  | .isADirectory => 21
  | .invalid => 22
  | .fileTooLarge => 27
  | .nameTooLong => 36
  | .notEmpty => 39
  | .tooManyLinks => 40

/-- The text of the error on Linux. -/
def text : SystemError → String
  | .noEntry => "No such file or directory"
  | .badDescriptor => "Bad file descriptor"
  | .alreadyThere => "File exists"
  | .notADirectory => "Not a directory"
  | .isADirectory => "Is a directory"
  | .invalid => "Invalid argument"
  | .fileTooLarge => "File too large"
  | .nameTooLong => "File name too long"
  | .notEmpty => "Directory not empty"
  | .tooManyLinks => "Too many levels of symbolic links"

/-- The kind that the error is counted under. -/
def label : SystemError → String
  | .noEntry => "NotFound"
  | .badDescriptor => "Uncategorized"
  | .alreadyThere => "AlreadyExists"
  | .notADirectory => "NotADirectory"
  | .isADirectory => "IsADirectory"
  | .invalid => "InvalidInput"
  | .fileTooLarge => "FileTooLarge"
  | .nameTooLong => "InvalidFilename"
  | .notEmpty => "DirectoryNotEmpty"
  | .tooManyLinks => "FilesystemLoop"

end SystemError

/-- The kinds of I/O error that the library itself states. -/
inductive IoKind where
  | notFound
  | permissionDenied
  | alreadyExists
  | notADirectory
  | isADirectory
  | invalidInput
  | invalidData
  | unsupported
  | other
  deriving DecidableEq, Repr

/-- The name of the kind. -/
def IoKind.label : IoKind → String
  | .notFound => "NotFound"
  | .permissionDenied => "PermissionDenied"
  | .alreadyExists => "AlreadyExists"
  | .notADirectory => "NotADirectory"
  | .isADirectory => "IsADirectory"
  | .invalidInput => "InvalidInput"
  | .invalidData => "InvalidData"
  | .unsupported => "Unsupported"
  | .other => "Other"

/-- An I/O error: reported by the operating system, or stated with a kind and a text. -/
inductive IoError where
  | system (error : SystemError)
  | stated (kind : IoKind) (text : String)
  deriving DecidableEq, Repr

namespace IoError

/-- The text of the error. -/
def message : IoError → String
  | .system e => e.text ++ " (os error " ++ toString e.number ++ ")"
  | .stated _ text => text

/-- The error with its parts named. -/
def inspect : IoError → String
  | .system e =>
    "Os \x7b code: " ++ toString e.number ++ ", kind: " ++ e.label ++ ", message: " ++
      Text.quoted e.text ++ " \x7d"
  | .stated kind text =>
    "Custom \x7b kind: " ++ kind.label ++ ", error: " ++ Text.quoted text ++ " \x7d"

end IoError

/-! ## Failures of filesystem calls -/

/-- Whose doing a failure is. -/
inductive FailureClass where
  | misuse
  | filesystem
  deriving DecidableEq, Repr

/-- The cause of a failed call, with the path or the text that explains it. -/
inductive Failure where
  | unsupported (what : String)
  | notADirectory (path : String)
  | notAFile (path : String)
  | unusableKind (what : String)
  | conflict (path : String)
  | invalidPath (what : String)
  | escapesRoot (what : String)
  | backend (what : String)
  | io (error : IoError)
  deriving DecidableEq, Repr

namespace Failure

/-- The class of the failure: backends and I/O fail by themselves, all else is misuse. -/
def cls : Failure → FailureClass
  | .backend _ => .filesystem
  | .io _ => .filesystem
  | _ => .misuse

/-- Whether the call itself was at fault. -/
def isMisuse (f : Failure) : Bool := f.cls == .misuse

/-- Whether the filesystem was at fault. -/
def isFilesystem (f : Failure) : Bool := f.cls == .filesystem

/-- The name of the cause. -/
def label : Failure → String
  | .unsupported _ => "Unsupported"
  | .notADirectory _ => "NotADirectory"
  | .notAFile _ => "WrongType"
  | .unusableKind _ => "InvalidType"
  | .conflict _ => "TypeConflict"
  | .invalidPath _ => "InvalidPath"
  | .escapesRoot _ => "PathEscapesRoot"
  | .backend _ => "Backend"
  | .io _ => "Io"

/-- The path or text that explains the cause. -/
def detail : Failure → String
  | .unsupported s | .notADirectory s | .notAFile s | .unusableKind s | .conflict s
  | .invalidPath s | .escapesRoot s | .backend s => s
  | .io e => e.message

/-- What stands before the explanation in a message. -/
def heading : Failure → String
  | .unsupported _ => "operation not supported: "
  | .notADirectory _ => "not a directory: "
  | .notAFile _ => "not a file: "
  | .unusableKind _ => "invalid entry type: "
  | .conflict _ => "type conflict: "
  | .invalidPath _ => "invalid path: "
  | .escapesRoot _ => "path escapes root: "
  | .backend _ => ""
  | .io _ => "I/O error: "

/-- The text of the failure. -/
def message (f : Failure) : String := f.heading ++ f.detail

/-- The text of the failure, then the text of what caused it, and so on. -/
def causes (f : Failure) : List String :=
  match f with
  | .io e => [f.message, e.message]
  | _ => [f.message]

/-- The failure with its parts named. -/
def inspect (f : Failure) : String :=
  f.label ++ "(" ++ (match f with | .io e => e.inspect | _ => Text.quoted f.detail) ++ ")"

/-- The failure as a byte stream reports it. -/
def toIoError : Failure → IoError
  | .unsupported s => .stated .unsupported s
  | .notADirectory s => .stated .notADirectory s
  | .notAFile s => .stated .isADirectory s
  | .unusableKind s => .stated .invalidInput s
  | .conflict s => .stated .alreadyExists s
  | .invalidPath s => .stated .invalidInput s
  | .escapesRoot s => .stated .permissionDenied s
  | .backend s => .stated .other s
  | .io e => e

theorem isMisuse_eq_not_isFilesystem (f : Failure) : f.isMisuse = !f.isFilesystem := by
  cases f <;> rfl

end Failure

end Strata
