import Roffdown.Markdown.Event
import Roffdown.Markdown.Piece
import Roffdown.Roff.Header
import Roffdown.Roff.Line
import Roffdown.Text.Blank

/-!
# Macro packages

A macro package is told by its spelling of the font marks, its header, and its lines for each event.
It sees neither the document nor what came before.

* `titleHeading`: the header that packages for man pages share.
* `fontMarkup`: the spelling of the font marks by requests inside the text.
-/

namespace Roffdown

open Roff Text

/-- How documents are written with a macro package. -/
structure MacroPackage where
  name : Text
  description : Text
  /-- The file that holds the macros. -/
  file : Text
  /-- Whether a leading line of one hash and a blank becomes the header. -/
  usesTitleLine : Bool
  markup : Markup
  header : HeaderFacts → List Text
  /-- The lines for an event, given the lists that are open. -/
  lines : Event → OpenLists → List Text

namespace MacroPackage

/-- The `.TH` line: the title line if there is one, else name, section, date and origin. -/
def titleHeading (facts : HeaderFacts) : List Text :=
  match facts.titleLine with
  | some line => [requestLine ".TH".toList (trim isWhiteSpace line)]
  | none =>
    [".TH ".toList ++ facts.name ++ ' ' :: facts.fields.manualSection ++
      ' ' :: facts.date.text ++ ' ' :: facts.fields.origin]

/-- Marks that change the font, and change it back to the one before. -/
def fontMarkup : Markup
  | .boldOn => "\\fB".toList
  | .italicOn => "\\fI".toList
  | .styleOff => "\\fP".toList
  | .codeOn => "`\\f[CR]".toList
  | .codeOff => "\\fP'".toList

/-- A line of a fenced block, with the control character changed by `.cc`. -/
def fenceLine (line : Text) : List Text := verbatimLines ".cc !".toList "!cc .".toList line

end MacroPackage

end Roffdown
