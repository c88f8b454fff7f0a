/-
# `Strata.Contract` — what every filesystem is held to

Fill a filesystem with the files of `fixture`, then run the contract that fits
what it may do.  A contract makes calls and says in words what was not as it
should be; the first such thing ends it.  The writing contract cleans up after
itself.
-/
import Strata.Path
import Strata.Provider

namespace Strata.Contract

/-- The files that the contracts expect, with their texts. -/
def fixture : List (String × String) :=
  [("readme.txt", "hello"), ("docs/guide.md", "# guide"), ("docs/nested/deep.txt", "deep")]

/-- A run of a contract; it fails with what was not as it should be. -/
abbrev Check (σ : Type) := ExceptT String (StateM σ)

variable {σ F E S α : Type} (P : Provider σ F E S)

/-- Goes on only if the condition holds. -/
def ensure (holds : Bool) (otherwise_ : String) : Check σ Unit :=
  unless holds do throw otherwise_

/-- A call that must succeed. -/
def call (x : Action σ α) : Check σ α := ExceptT.mk do
  match ← x.run with
  | .ok a => return .ok a
  | .error f => return .error (": ".intercalate f.causes)

/-- A call that must succeed, with what it is for. -/
def callFor (purpose : String) (x : Action σ α) : Check σ α := ExceptT.mk do
  match ← x.run with
  | .ok a => return .ok a
  | .error f => return .error (": ".intercalate (purpose :: f.causes))

/-- A call that must fail in a certain way. -/
def failing (x : Action σ α) (what : String) (expected : Failure → Bool) : Check σ Unit :=
  ExceptT.mk do
    match ← x.run with
    | .ok _ => return .error s!"{what}: expected an error, got success"
    | .error f =>
      if expected f then return .ok ()
      else return .error s!"{what}: unexpected error {f.inspect}"

/-- The entry at a path, which must be there. -/
def find (f : F) (path : String) : Check σ E := do
  match ← callFor s!"resolving {path}" (P.child (P.root f) path) with
  | some e => return e
  | none => throw s!"{path} is missing"

/-- The names directly below an entry. -/
def namesBelow (e : E) : Check σ (List String) := do
  let entries ← callFor s!"listing {Text.quoted (P.path e)}" (P.children e)
  return entries.map fun c => Path.lastName (P.path c)

/-! ## Kinds of failure -/

/-- Whether the failure is that of an unsupported call. -/
def isUnsupported : Failure → Bool
  | .unsupported _ => true
  | _ => false

/-- Whether the failure is that of a path that is not a directory. -/
def isNotADirectory : Failure → Bool
  | .notADirectory _ => true
  | _ => false

/-- Whether the failure is that of a path that is not a file. -/
def isNotAFile : Failure → Bool
  | .notAFile _ => true
  | _ => false

/-- Whether the failure is that of a place where something else is. -/
def isConflict : Failure → Bool
  | .conflict _ => true
  | _ => false

/-- Whether the failure is that of a kind that cannot be created. -/
def isUnusableKind : Failure → Bool
  | .unusableKind _ => true
  | _ => false

/-! ## The contracts -/

/-- Looking up, listing and reading. -/
def reading (f : F) : Check σ Unit := do
  ensure ((P.operations f (← get)).covers (.only .read)) s!"{P.name f (← get)} cannot read"
  let root := P.root f
  ensure (P.isRoot root) s!"root path is {Text.quoted (P.path root)}"
  ensure (P.kind root (← get)).isDirectory "root is not a directory"
  ensure (← call (P.child root "")).isNone "empty name resolved to an entry"
  ensure (← call (P.child root "missing")).isNone "missing name resolved"
  ensure (← call (P.child root "docs/missing/deeper")).isNone "missing intermediate resolved"
  let names ← namesBelow P root
  ensure (names.contains "readme.txt")
    s!"root listing {Text.quotedList names} lacks readme.txt"
  ensure (names.contains "docs") s!"root listing {Text.quotedList names} lacks docs"
  ensure ((← call (P.count root)) == names.length) "num_children disagrees with list_children"
  let readme ← find P f "readme.txt"
  ensure (P.path readme == "readme.txt") s!"readme path is {Text.quoted (P.path readme)}"
  ensure (P.kind readme (← get)).isFile "readme is not a file"
  ensure ((← call (P.readContents readme)) == Bytes.ofText "hello") "readme contents differ"
  failing (P.child readme "x") "child of a file" isNotADirectory
  failing (P.children readme) "listing a file" isNotADirectory
  failing (P.openStream readme {}) "empty open mode" isUnsupported
  failing (P.child root "readme.txt/x") "walking through a file" isNotADirectory
  let guide ← find P f "/docs//guide.md/"
  ensure (P.path guide == "docs/guide.md") s!"guide path is {Text.quoted (P.path guide)}"
  let docs ← find P f "docs"
  ensure (P.kind docs (← get)).isDirectory "docs is not a directory"
  let inDocs := (← namesBelow P docs).mergeSort fun a b => a ≤ b
  ensure (inDocs == ["guide.md", "nested"]) s!"docs listing is {Text.quotedList inDocs}"
  failing (P.openStream docs .reading) "opening a directory" isNotAFile
  let some deep ← call (P.child docs "nested/deep.txt")
    | throw "docs/nested/deep.txt is missing"
  ensure (P.path deep == "docs/nested/deep.txt") s!"deep path is {Text.quoted (P.path deep)}"
  ensure ((← call (P.readContents deep)) == Bytes.ofText "deep") "deep contents differ"

/-- Creating, writing, renaming and deleting. -/
def writing (f : F) : Check σ Unit := do
  let operations := P.operations f (← get)
  ensure (operations.covers .all) s!"{P.name f (← get)} supports only {operations.short}"
  let root := P.root f
  let created ← call (P.create root .file "scratch/new.txt")
  ensure (P.path created == "scratch/new.txt")
    s!"created path is {Text.quoted (P.path created)}"
  ensure (P.kind created (← get)).isFile "created entry is not a file"
  call (P.writeContents created (Bytes.ofText "fresh"))
  ensure ((← call (P.readContents (← find P f "scratch/new.txt"))) == Bytes.ofText "fresh")
    "written bytes not visible"
  ensure (P.kind (← find P f "scratch") (← get)).isDirectory "intermediate directory missing"
  let _ ← call (P.create root .file "scratch/new.txt")
  failing (P.create root .directory "scratch/new.txt") "directory over a file" isConflict
  failing (P.create root .unknown "scratch/what") "creating Unknown" isUnusableKind
  failing (P.create created .file "inside") "creating under a file" isNotADirectory
  ensure ((P.modified created (← get)).isAfter .epoch) "created file has no modification time"
  call (P.rename (← find P f "scratch/new.txt") "scratch/renamed.txt")
  ensure (← call (P.child root "scratch/new.txt")).isNone "old name still resolves after rename"
  ensure ((← call (P.readContents (← find P f "scratch/renamed.txt"))) == Bytes.ofText "fresh")
    "renamed file lost its contents"
  ensure (← call (P.delete root "scratch")) "deleting scratch reported nothing removed"
  ensure (← call (P.child root "scratch")).isNone "scratch survived deletion"
  ensure (!(← call (P.delete root "scratch"))) "second delete reported a removal"
  ensure (!(← call (P.delete root "missing"))) "deleting a missing name reported a removal"

/-- Refusing every change. -/
def readOnly (f : F) : Check σ Unit := do
  let operations := P.operations f (← get)
  ensure (operations == .only .read) s!"{P.name f (← get)} supports {operations.short}"
  let root := P.root f
  let readme ← find P f "readme.txt"
  failing (P.openStream readme .writing) "write open" isUnsupported
  failing (P.create root .file "new.txt") "create" isUnsupported
  failing (P.delete root "readme.txt") "delete" isUnsupported
  failing (P.rename readme "moved.txt") "rename" isUnsupported
  ensure (← call (P.child root "readme.txt")).isSome "readme vanished"

end Strata.Contract
