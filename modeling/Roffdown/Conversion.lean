import Roffdown.Document
import Roffdown.Markdown.Trace
import Roffdown.Roff.Dialect

/-!
# Converting a document

A converted document is two lines that every document starts with, the header of its macro package,
and the lines for the events of its body.  A document with inline code that is never closed has no
conversion.

* `Document.takeTitle`: the first line as a title, for packages that make it the header.
* `Trace.lines`: the lines for the events of a body.
* `Document.toRoff`: a whole document.
-/

namespace Roffdown

open Text

/-- The lines for the events of a reading, up to where it fails. -/
def Trace.lines (p : MacroPackage) (t : Trace) : List Text :=
  (t.events p.markup).flatMap fun r => p.lines r.item r.lists

/-- The lines that every document starts with. -/
def MacroPackage.openingLines (p : MacroPackage) : List Text :=
  [".\\\" x-roff document".toList, ".do mso ".toList ++ p.file]

/-- What follows the hash and the blank of a title line, and the place after that line. -/
def Document.takeTitle (d : Document) : Option Text × Zipper :=
  let start := Zipper.start d.source
  match d.source with
  | '#' :: c :: _ =>
    if isIndent c then
      let (line, after) := (start.advance 2).splitLine
      (some line, after)
    else (none, start)
  | _ => (none, start)

/-- What comes of a document: its lines or an error, and what its author is warned of. -/
structure Conversion where
  result : Except UnclosedCode (List Text)
  warnings : List Warning

/-- Converts a document. -/
def Document.toRoff (dialect : Dialect) (fields : HeaderFields) (date : Date)
    (d : Document) : Conversion :=
  let p := dialect.package
  let (titleLine, body) := if p.usesTitleLine then d.takeTitle else (none, .start d.source)
  let trace := body.trace
  ⟨match trace.failure? with
    | some e => .error e
    | none =>
      .ok (p.openingLines ++ p.header ⟨d.name, titleLine, date, fields⟩ ++ trace.lines p),
    trace.warnings⟩

end Roffdown
