import Roffdown.Files.Basic
import Roffdown.Text.Utf8

/-!
# Documents

A document is a name and a source.  The name is the path that it was loaded from.

* `Document.ofBytes`: a document from bytes that need not be UTF-8.
* `Document.load`: a document from a file.
-/

namespace Roffdown

/-- A document to convert. -/
structure Document where
  name : Text
  source : Text
deriving DecidableEq, Repr

namespace Document

/-- Name of a document that is read from standard input. -/
def standardInputName : Text := "stdin".toList

/-- A document from bytes; what is no UTF-8 is replaced. -/
def ofBytes (name : Text) (bytes : List UInt8) : Document := ⟨name, Utf8.decode bytes⟩

/-- A document from the file of a path.  A directory can be opened but not read. -/
def load (files : Files) (path : Text) : Except LoadFailure Document :=
  match files path with
  | .ok (.file bytes) => .ok (ofBytes path bytes)
  | .ok .directory => .error (.unread path .isADirectory)
  | .error cause => .error (.unopened path cause)

end Document

end Roffdown
