import Roffdown.Markdown.Signal
import Roffdown.Text.Zipper

/-!
# States and moves

A document is read from one `State` to the next by moves.  A `Move` is what one rule does: the
signals it raises, the warnings it gives, and the state it leaves.

* `Move.andThen`: two moves one after the other; `next_andThen`, `raised_andThen` say what they do.
* `State.release`: raises the running text that waits.
* `State.closeMany`: closes lists from the innermost outwards.
-/

namespace Roffdown

/-- Where reading stands. -/
structure State where
  /-- The document, at the place that is read next. -/
  input : Zipper
  lists : OpenLists
  buffer : Buffer
  /-- The rules for the beginning of a line apply. -/
  freshLine : Bool
  /-- A fenced block is open. -/
  inFence : Bool
  /-- Bold is on. -/
  bold : Bool
  /-- Italic is on. -/
  italic : Bool
deriving DecidableEq, Repr

/-- What one rule does. -/
structure Move where
  raised : List (Raised Signal)
  warnings : List Warning
  next : State
deriving DecidableEq, Repr

namespace Move

/-- Raises nothing. -/
def silent (s : State) : Move := ⟨[], [], s⟩

/-- One move, then another from the state that it leaves. -/
def andThen (m : Move) (f : State → Move) : Move :=
  let n := f m.next
  ⟨m.raised ++ n.raised, m.warnings ++ n.warnings, n.next⟩

@[simp] theorem next_silent (s : State) : (silent s).next = s := rfl

@[simp] theorem raised_silent (s : State) : (silent s).raised = [] := rfl

@[simp] theorem warnings_silent (s : State) : (silent s).warnings = [] := rfl

@[simp] theorem next_andThen (m : Move) (f : State → Move) :
    (m.andThen f).next = (f m.next).next := rfl

@[simp] theorem raised_andThen (m : Move) (f : State → Move) :
    (m.andThen f).raised = m.raised ++ (f m.next).raised := rfl

@[simp] theorem warnings_andThen (m : Move) (f : State → Move) :
    (m.andThen f).warnings = m.warnings ++ (f m.next).warnings := rfl

@[simp] theorem silent_andThen (s : State) (f : State → Move) : (silent s).andThen f = f s := rfl

@[simp] theorem andThen_silent (m : Move) : m.andThen silent = m := by
  simp [andThen, silent]

theorem andThen_assoc (m : Move) (f g : State → Move) :
    (m.andThen f).andThen g = m.andThen fun s => (f s).andThen g := by
  simp [andThen]

end Move

namespace State

/-- Where reading begins. -/
def initial (z : Zipper) : State := ⟨z, .empty, .empty, true, false, false, false⟩

/-! ## Raising -/

/-- Raises signals with the lists that are open. -/
def raise (signals : List Signal) (s : State) : Move :=
  ⟨signals.map fun signal => ⟨signal, s.lists⟩, [], s⟩

/-- Raises events with the lists that are open. -/
def announce (events : List Event) (s : State) : Move := s.raise (events.map Signal.event)

/-- Gives a warning. -/
def warn (w : Warning) (s : State) : Move := ⟨[], [w], s⟩

@[simp] theorem next_raise (signals : List Signal) (s : State) : (s.raise signals).next = s := rfl

@[simp] theorem next_announce (events : List Event) (s : State) : (s.announce events).next = s :=
  rfl

@[simp] theorem next_warn (w : Warning) (s : State) : (s.warn w).next = s := rfl

/-! ## Running text -/

/-- Adds pieces to the running text. -/
def push (pieces : List Piece) (s : State) : State :=
  { s with buffer := s.buffer.push pieces }

/-- Raises the running text that waits. -/
def release (s : State) : Move :=
  match s.buffer.all with
  | [] => .silent { s with buffer := .empty }
  | pieces => (s.raise [.text pieces]).andThen fun s => .silent { s with buffer := .empty }

theorem next_release (s : State) : s.release.next = { s with buffer := .empty } := by
  unfold release
  split <;> rfl

/-! ## Lists -/

/-- Ends the item and closes the innermost list. -/
def closeInnermost (s : State) : Move :=
  (s.announce [.itemClose, .listClose]).andThen fun s => .silent { s with lists := s.lists.closed }

/-- Closes lists from the innermost outwards. -/
def closeMany : Nat → State → Move
  | 0, s => .silent s
  | n + 1, s => s.closeInnermost.andThen (closeMany n)

@[simp] theorem next_closeInnermost (s : State) :
    s.closeInnermost.next = { s with lists := s.lists.closed } := rfl

theorem input_closeMany (n : Nat) (s : State) : (s.closeMany n).next.input = s.input := by
  induction n generalizing s with
  | zero => rfl
  | succ n ih => exact ih _

end State

end Roffdown
