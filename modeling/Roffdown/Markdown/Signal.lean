import Roffdown.Markdown.Event
import Roffdown.Markdown.Piece
import Roffdown.Text.Collapse

/-!
# Signals

What reading a document raises before a spelling of the font marks is chosen.  A signal is an event,
or running text that becomes one: a line of text or the title of an underlined section.  Running
text is spelled, then its blanks are collapsed, and it is raised only when something is left.

* `Signal.event?`: the event that a signal becomes.
* `Raised`: an item together with the lists that are open where it is raised.
-/

namespace Roffdown

open Text

/-- What reading a document raises. -/
inductive Signal
  /-- A line of running text. -/
  | text (pieces : List Piece)
  /-- The title of a section that is underlined on the line below. -/
  | title (pieces : List Piece)
  | event (e : Event)
deriving DecidableEq, Repr

/-- The event that a signal becomes, if any. -/
def Signal.event? (m : Markup) : Signal → Option Event
  | .text pieces =>
    match collapse (expand m pieces) with
    | [] => none
    | line => some (.text line)
  | .title pieces =>
    match collapse (expand m pieces) with
    | [] => none
    | line => some (.heading .major line)
  | .event e => some e

/-- An item and the lists that are open where it is raised. -/
structure Raised (α : Type) where
  item : α
  lists : OpenLists
deriving DecidableEq, Repr

/-- The events that signals become, with the lists open at each. -/
def Raised.events (m : Markup) (signals : List (Raised Signal)) : List (Raised Event) :=
  signals.filterMap fun r => (r.item.event? m).map fun e => ⟨e, r.lists⟩

@[simp] theorem Raised.events_nil (m : Markup) : events m [] = [] := rfl

@[simp] theorem Raised.events_append (m : Markup) (a b : List (Raised Signal)) :
    events m (a ++ b) = events m a ++ events m b := by simp [events]

/-- What the author of a document is warned of. -/
inductive Warning
  /-- A list would have been nested deeper than allowed. -/
  | tooDeep
  /-- A fenced block was open at the end. -/
  | unclosedFence
deriving DecidableEq, Repr

end Roffdown
