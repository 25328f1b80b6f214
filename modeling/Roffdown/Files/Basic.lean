import Roffdown.Text.Basic

/-!
# Files

What can be found under a path, and why nothing can.

* `OsError.message`: the text of an error, with its number.
* `LoadFailure.message`: which file could not be opened or read, and why.
* `Files.regular?`: the content of a path that names a regular file.
-/

namespace Roffdown

/-- Why the system refuses a file. -/
inductive OsError
  | notFound
  | notADirectory
  | isADirectory
  | nameTooLong
  /-- The path holds a NUL character. -/
  | nulInPath
  /-- Any other cause, as the system describes and numbers it. -/
  | other (description : Text) (code : Nat)
deriving DecidableEq, Repr

/-- A description and a number. -/
def OsError.numbered (description : Text) (code : Nat) : Text :=
  description ++ " (os error ".toList ++ Text.ofNat code ++ ")".toList

/-- The text of an error. -/
def OsError.message : OsError → Text
  | notFound => numbered "No such file or directory".toList 2
  | notADirectory => numbered "Not a directory".toList 20
  | isADirectory => numbered "Is a directory".toList 21
  | nameTooLong => numbered "File name too long".toList 36
  | nulInPath => "file name contained an unexpected NUL byte".toList
  | other description code => numbered description code

/-- What a path can name. -/
inductive Node
  | file (bytes : List UInt8)
  | directory
deriving DecidableEq, Repr

/-- What is found under each path. -/
abbrev Files := Text → Except OsError Node

/-- What was found before under each path; nothing is found under others. -/
def Files.ofFound (found : List (Text × Except OsError Node)) : Files := fun path =>
  (found.lookup path).getD (.error .notFound)

/-- The content of a path that names a regular file. -/
def Files.regular? (files : Files) (path : Text) : Option (List UInt8) :=
  match files path with
  | .ok (.file bytes) => some bytes
  | _ => none

/-- Why a document could not be loaded: its file could not be opened, or not be read. -/
inductive LoadFailure
  | unopened (path : Text) (cause : OsError)
  | unread (path : Text) (cause : OsError)
deriving DecidableEq, Repr

/-- The text of the error. -/
def LoadFailure.message : LoadFailure → Text
  | unopened path cause =>
    "Unable to open '".toList ++ path ++ "' [".toList ++ cause.message ++ "]".toList
  | unread path cause =>
    "Unable to read '".toList ++ path ++ "' [".toList ++ cause.message ++ "]".toList

end Roffdown
