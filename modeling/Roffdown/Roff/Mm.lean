import Roffdown.Roff.Package

/-!
# The mm macros

The memorandum macros.  They have no header here and no macro for links, which become text.
-/

namespace Roffdown.MacroPackage

open Roff Text

/-- The memorandum macros. -/
def mm : MacroPackage where
  name := "mm".toList
  description := "Memorandum macros (m.tmac)".toList
  file := "m.tmac".toList
  usesTitleLine := false
  markup := fontMarkup
  header _ := []
  lines event _ := match event with
    | .paragraphEnd => [".PP".toList]
    | .lineBreak => [".br".toList]
    | .text line => [textLine line]
    | .fenceOpen => [".RS 4".toList, ".EX".toList]
    | .fenceLine line => fenceLine line
    | .fenceClose => [".EE".toList, ".RE".toList]
    | .listOpen .numbered => [".AL".toList]
    | .listOpen .bulleted => [".BL".toList]
    | .itemOpen => [".LI".toList]
    | .itemClose => [".LE".toList]
    | .listClose => []
    | .heading .major title => [requestLine ".SH".toList title]
    | .heading _ title => [requestLine ".SS".toList title]
    | .boxOpen => [".FT B".toList]
    | .boxClose => [".FT P".toList]
    | .manPage page => [textLine page]
    | .link link => [textLine (link.title ++ " <".toList ++ link.target ++ ">".toList)]

end Roffdown.MacroPackage
