import Roffdown.Roff.Package

/-!
# The mdoc macros

The semantic macros of BSD man pages.  Lists without numbers show bullets and dashes in turn by
depth.
-/

namespace Roffdown.MacroPackage

open Roff Text

/-- What the items of a list show at a depth. -/
def mdocListType (style : ListStyle) (depth : Nat) : Text :=
  match style with
  | .numbered => "enum".toList
  | .bulleted => if depth % 2 = 1 then "bullet".toList else "dash".toList

/-- The macros of BSD man pages. -/
def mdoc : MacroPackage where
  name := "mdoc".toList
  description := "BSD man pages (mdoc.tmac)".toList
  file := "mdoc.tmac".toList
  usesTitleLine := true
  markup := fontMarkup
  header := titleHeading
  lines event lists := match event with
    | .paragraphEnd => [".Pp".toList]
    | .lineBreak => [".br".toList]
    | .text line => [textLine line]
    | .fenceOpen => [".Bd -literal -offset indent".toList]
    | .fenceLine line => fenceLine line
    | .fenceClose => [".Ed".toList]
    | .listOpen style =>
      [".Bl -".toList ++ mdocListType style lists.depth ++ " -offset indent".toList]
    | .itemOpen => [".It".toList]
    | .itemClose => []
    | .listClose => [".El".toList]
    | .heading .major title => [requestLine ".Sh".toList title]
    | .heading _ title => [requestLine ".Ss".toList title]
    | .boxOpen => [".FT B".toList]
    | .boxClose => [".FT P".toList]
    | .manPage page => [requestLine ".Xr".toList page]
    | .link link =>
      if link.isMail then
        [".An ".toList ++ link.title ++ " Aq Mt ".toList ++ link.address]
      else [".Lk ".toList ++ link.target ++ ' ' :: quoted link.title]

end Roffdown.MacroPackage
