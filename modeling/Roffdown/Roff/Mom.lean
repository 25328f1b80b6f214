import Roffdown.Roff.Package

/-!
# The mom macros

Macros for typeset documents.  Fonts are strings of the package, and the header is a block of its
own.  Numbered lists show digits, except capitals at depth two and small letters at depth four;
the others show bullets and dashes in turn.
-/

namespace Roffdown.MacroPackage

open Roff Text

/-- What the items of a list show at a depth. -/
def momEnumerator (style : ListStyle) (depth : Nat) : Text :=
  match style with
  | .numbered =>
    if depth = 2 then "ALPHA".toList else if depth = 4 then "alpha".toList else "DIGIT".toList
  | .bulleted => if depth % 2 = 1 then "BULLET".toList else "DASH".toList

/-- The number that stands for the rank of a section. -/
def momLevel : SectionRank → Text
  | .major => "1".toList
  | .minor => "2".toList
  | .sub => "3".toList

/-- The macros for typeset documents. -/
def mom : MacroPackage where
  name := "mom".toList
  description := "Typeset documents with the mom macros (mom.tmac)".toList
  file := "mom.tmac".toList
  usesTitleLine := false
  markup
    | .boldOn => "\\*[BD]".toList
    | .italicOn => "\\*[IT]".toList
    | .styleOff => "\\*[PREV]".toList
    | .codeOn => "`\\*[CODE]".toList
    | .codeOff => "\\*[CODE OFF]'".toList
  header facts :=
    [".TITLE ".toList ++ quoted facts.name,
      ".AUTHOR ".toList ++ quoted facts.fields.author,
      ".PAPER ".toList ++ facts.fields.paper,
      ".PRINTSTYLE ".toList ++ facts.fields.printStyle,
      ".START".toList]
  lines event lists := match event with
    | .paragraphEnd => [".PP".toList]
    | .lineBreak => [".BR".toList]
    | .text line => [textLine line]
    | .fenceOpen => [".CODE".toList]
    | .fenceLine line => verbatimLines ".ESC_CHAR !".toList ".ESC_CHAR .".toList line
    | .fenceClose => [".CODE OFF".toList]
    | .listOpen style => [".LIST ".toList ++ momEnumerator style lists.depth]
    | .itemOpen => [".ITEM".toList]
    | .itemClose => []
    | .listClose => [".LIST OFF".toList]
    | .heading rank title =>
      [".HEADING ".toList ++ momLevel rank ++ ' ' :: quoted title]
    | .boxOpen => [".DRH".toList]
    | .boxClose => [".DRH".toList]
    | .manPage page => [textLine page]
    | .link link =>
      [textLine (link.title ++ " \\*[UL]".toList ++ link.target ++ "\\*[ULX]".toList)]

end Roffdown.MacroPackage
