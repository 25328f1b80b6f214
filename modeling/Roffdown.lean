import Roffdown.CommandLine.Flag
import Roffdown.CommandLine.Help
import Roffdown.CommandLine.Report
import Roffdown.CommandLine.Request
import Roffdown.Conversion
import Roffdown.Decimal.Binary64
import Roffdown.Decimal.Shortest
import Roffdown.Document
import Roffdown.Files.Basic
import Roffdown.Files.Tree
import Roffdown.Main
import Roffdown.Markdown.BlockRules
import Roffdown.Markdown.Event
import Roffdown.Markdown.OpenLists
import Roffdown.Markdown.Piece
import Roffdown.Markdown.Shape
import Roffdown.Markdown.Signal
import Roffdown.Markdown.State
import Roffdown.Markdown.TextRules
import Roffdown.Markdown.Trace
import Roffdown.Roff.Dialect
import Roffdown.Roff.Header
import Roffdown.Roff.Line
import Roffdown.Roff.Man
import Roffdown.Roff.Mdoc
import Roffdown.Roff.Mm
import Roffdown.Roff.Mom
import Roffdown.Roff.Package
import Roffdown.Settings.Basic
import Roffdown.Settings.Layer
import Roffdown.Settings.Path
import Roffdown.Settings.Store
import Roffdown.Text.Basic
import Roffdown.Text.Blank
import Roffdown.Text.Collapse
import Roffdown.Text.Utf8
import Roffdown.Text.Visible
import Roffdown.Text.Zipper
import Roffdown.Toml.DateTime
import Roffdown.Toml.Document
import Roffdown.Toml.Number
import Roffdown.Toml.Quoted
import Roffdown.Toml.Syntax
import Roffdown.Toml.Value
import Roffdown.Proofs.Bounds
import Roffdown.Proofs.ItemLines
import Roffdown.Proofs.Letters
import Roffdown.Proofs.Nesting
import Roffdown.Proofs.Numbering
import Roffdown.Proofs.Outline
import Roffdown.Proofs.Raising
import Roffdown.Proofs.Requests
import Roffdown.Proofs.Spelling
import Roffdown.Proofs.Splicing
import Roffdown.Proofs.LastMark
import Roffdown.Proofs.Lookahead
import Roffdown.Proofs.Sifting
import Roffdown.Proofs.TitleLine
import Roffdown.Proofs.Inputs
import Roffdown.Proofs.Acceptance
import Roffdown.Proofs.FlatBlocks
import Roffdown.Proofs.Balance
import Roffdown.Proofs.Respelling
import Roffdown.Proofs.Indents
import Roffdown.Proofs.CodeSpans
import Roffdown.Proofs.Layering
import Roffdown.Proofs.Overlay
import Roffdown.Proofs.DialectChoice
import Roffdown.Proofs.Underlines
import Roffdown.Proofs.FencedLines
import Roffdown.Proofs.RunningText
import Roffdown.Proofs.Pairing
import Roffdown.Proofs.Fonts
import Roffdown.Proofs.Collapsing
import Roffdown.Proofs.Escaping
import Roffdown.Proofs.StyledWords
import Roffdown.Proofs.Fences
import Roffdown.Proofs.Regrouping
import Roffdown.Proofs.Links
import Roffdown.Proofs.Arguments
import Roffdown.Proofs.LineStarts
import Roffdown.Proofs.CharacterBytes
import Roffdown.Proofs.Decoding
import Roffdown.Proofs.Places
import Roffdown.Proofs.Slicing
import Roffdown.Proofs.ByteCursor
import Roffdown.Proofs.Surroundings
import Roffdown.Proofs.FileTrees
