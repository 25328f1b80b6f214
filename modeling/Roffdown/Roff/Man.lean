import Roffdown.Roff.Package

/-!
# The man macros

The macros of Linux man pages.  They have no list container, so an item shows its own bullet or
number, and only two ranks of sections, so a lower heading becomes a tagged paragraph.
-/

namespace Roffdown.MacroPackage

open Roff Text

/-- The tag of a list item: a bullet, or the number of the item. -/
def manItem (lists : OpenLists) : List Text :=
  match lists.innermost? with
  | none => []
  | some ⟨.bulleted, _, _⟩ => [".IP \\(bu 4".toList]
  | some ⟨.numbered, number, _⟩ => [".IP ".toList ++ ofNat number ++ ". 4".toList]

/-- A reference to a man page: its name is bold, and its section follows in parentheses. -/
def manPage (page : Text) : Text :=
  match splitAtFirst ' ' page with
  | some (name, volume) =>
    "\\fB".toList ++ name ++ "\\fP(".toList ++ volume ++ ")".toList
  | none => "\\fB".toList ++ page ++ "\\fP".toList

/-- The macros of Linux man pages. -/
def man : MacroPackage where
  name := "man".toList
  description := "Linux man pages (man.tmac)".toList
  file := "man.tmac".toList
  usesTitleLine := true
  markup := fontMarkup
  header := titleHeading
  lines event lists := match event with
    | .paragraphEnd => [".PP".toList]
    | .lineBreak => [".br".toList]
    | .text line => [textLine line]
    | .fenceOpen => [".RS 4".toList, ".EX".toList]
    | .fenceLine line => fenceLine line
    | .fenceClose => [".EE".toList, ".RE".toList]
    | .listOpen _ => []
    | .itemOpen => manItem lists
    | .itemClose => []
    | .listClose => []
    | .heading .major title => [requestLine ".SH".toList title]
    | .heading .minor title => [requestLine ".SS".toList title]
    | .heading .sub title => [".TP".toList, "\\fB".toList ++ title ++ "\\fR".toList]
    | .boxOpen => [".B".toList]
    | .boxClose => [".FT P".toList]
    | .manPage page => [manPage page]
    | .link link =>
      if link.isMail then
        [requestLine ".MT".toList link.address, textLine link.title, ".ME".toList]
      else [requestLine ".UR".toList link.target, textLine link.title, ".UE".toList]

end Roffdown.MacroPackage
