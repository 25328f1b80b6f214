import Roffdown.Markdown.OpenLists
import Roffdown.Text.Basic

/-!
# Events

A document is read as a sequence of events; a macro package has lines for each.  Events carry text
in which inline markup is already spelled out.

* `SectionRank.ofHashes`: the rank that a number of hashes gives.
* `Link.isMail`, `Link.address`: links to a mailbox, and the address without its scheme.
-/

namespace Roffdown

/-- Rank of a section. -/
inductive SectionRank
  | major
  | minor
  | sub
deriving DecidableEq, Repr

/-- The rank of a section whose header starts with so many hashes. -/
def SectionRank.ofHashes (n : Nat) : SectionRank :=
  if n ≤ 2 then .major else if n = 3 then .minor else .sub

/-- A link to somewhere that is not a man page. -/
structure Link where
  title : Text
  target : Text
deriving DecidableEq, Repr

namespace Link

/-- A target with an at sign is a mailbox. -/
def isMail (l : Link) : Bool := l.target.contains '@'

/-- What may stand before the address of a mailbox. -/
def mailScheme : Text := "mailto:".toList

/-- The target without the scheme of a mailbox. -/
def address (l : Link) : Text :=
  if mailScheme.isPrefixOf l.target then l.target.drop mailScheme.length else l.target

end Link

/-- What can be found in a document. -/
inductive Event
  | paragraphEnd
  | lineBreak
  /-- A line of running text. -/
  | text (line : Text)
  | fenceOpen
  /-- A line of a fenced block as it stands, without its newline. -/
  | fenceLine (line : Text)
  | fenceClose
  /-- Raised when the list is already open. -/
  | listOpen (style : ListStyle)
  /-- Raised when the item already has its number. -/
  | itemOpen
  | itemClose
  /-- Raised while the list is still open. -/
  | listClose
  | heading (rank : SectionRank) (title : Text)
  | boxOpen
  | boxClose
  /-- A man page, as its name and its section after a space. -/
  | manPage (page : Text)
  | link (link : Link)
deriving DecidableEq, Repr

end Roffdown
