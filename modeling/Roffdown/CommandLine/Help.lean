import Roffdown.Roff.Dialect

/-!
# Texts of the command line

* `shortHelp`, `longHelp`: the two help texts.
* `versionLine`: the name of the program and its version.
* `dialectList`: the dialects with their descriptions.
-/

namespace Roffdown.CommandLine

/-- The short help text. -/
def shortHelp : Text :=
  "Convert Markdown documents to roff

Usage: md2roff [OPTIONS] [inputs]...

Arguments:
  [inputs]...  Markdown files to convert; '-' reads standard input

Options:
  -n, --man            Generate man(7) markup (default)
  -d, --mdoc           Generate mdoc(7) markup
  -m, --mm             Generate mm markup
  -o, --mom            Generate mom markup
  -v, --version        Print version
      --config <PATH>  Path to a md2roff.toml configuration file
      --list-dialects  List available dialects
  -h, --help           Print help (see more with '--help')
".toList

/-- The help text at length. -/
def longHelp : Text :=
  "md2roff converts a subset of Markdown to roff markup for groff/nroff.

Output goes to stdout, one document after another.

Examples:
  md2roff README.md > readme.7           # man page (default dialect)
  md2roff -d tool.md > tool.1            # BSD mdoc
  md2roff -o notes.md | groff -mom -Tpdf # typeset with mom
  cat doc.md | md2roff -                 # read standard input

Usage: md2roff [OPTIONS] [inputs]...

Arguments:
  [inputs]...
          Markdown files to convert; '-' reads standard input

Options:
  -n, --man
          Generate man(7) markup (default)

  -d, --mdoc
          Generate mdoc(7) markup

  -m, --mm
          Generate mm markup

  -o, --mom
          Generate mom markup

  -v, --version
          Print version

      --config <PATH>
          Path to a md2roff.toml configuration file

      --list-dialects
          List available dialects

  -h, --help
          Print help (see a summary with '-h')
".toList

/-- The help text, at length or in short. -/
def helpText (long : Bool) : Text := if long then longHelp else shortHelp

/-- The name of the program and its version. -/
def versionLine : Text := "md2roff 0.1.0\n".toList

/-- A text filled up to a width with blanks. -/
def filled (width : Nat) (t : Text) : Text := t ++ List.replicate (width - t.length) ' '

/-- The dialects with their descriptions. -/
def dialectList : Text :=
  "Available dialects:\n\n".toList ++ Text.ofLines (Dialect.all.map fun d =>
    "  ".toList ++ filled 6 d.name ++ ' ' :: d.package.description)

end Roffdown.CommandLine
