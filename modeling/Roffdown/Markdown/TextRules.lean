import Roffdown.Markdown.State
import Roffdown.Markdown.Shape

/-!
# Rules for running text

What a character of running text does: escapes, emphasis, inline code, links and the end of a line.

* `backslash`: a backslash and the character after it.
* `boldMark`, `italicMark`: emphasis is switched on after a boundary, and off anywhere.
* `inlineCode`: inline code up to its closing mark, or the error that it has none.
* `lineEnd`: a line joins the text before it, or is the title of a section when it is underlined.
* `textRule`: the rule that applies; each moves forward (`length_rest_textRule`).
-/

namespace Roffdown

open Markdown Text

/-- The error that inline code, begun at a place, is never closed. -/
structure UnclosedCode where
  place : Position
deriving DecidableEq, Repr

/-- The text of the error. -/
def UnclosedCode.message (e : UnclosedCode) : Text :=
  "inline code (`) opened at line ".toList ++ ofNat e.place.line ++ ", column ".toList ++
    ofNat e.place.column ++ " is never closed".toList

namespace State

/-- A backslash and the character after it; alone at the end it stands for itself. -/
def backslash (s : State) : Move :=
  .silent { s.push [.char ((s.input.nth? 1).elim '\\' escaped)] with
    input := s.input.advance 2, freshLine := false }

/-- A character that stands for itself. -/
def literal (c : Char) (s : State) : Move :=
  .silent { s.push [.char c] with input := s.input.advance 1 }

/-! ## Emphasis -/

/-- Whether emphasis may begin here. -/
def canOpenEmphasis (s : State) : Bool := s.input.previous?.all isBoundary

/-- A doubled `*` or `_`: switches bold. -/
def boldMark (s : State) : Move :=
  let after := { s with input := s.input.advance 2 }
  if s.bold then .silent { after.push [.mark .styleOff] with bold := false }
  else if s.canOpenEmphasis then .silent { after.push [.mark .boldOn] with bold := true }
  else .silent (after.push ((s.input.rest.take 2).map .char))

/-- A single `*` or `_`: switches italic. -/
def italicMark (s : State) : Move :=
  let after := { s with input := s.input.advance 1 }
  if s.italic then .silent { after.push [.mark .styleOff] with italic := false }
  else if s.canOpenEmphasis then .silent { after.push [.mark .italicOn] with italic := true }
  else .silent (after.push ((s.input.rest.take 1).map .char))

/-! ## Inline code and links -/

/-- Inline code, if a mark closes it. -/
def inlineCode (s : State) : Except UnclosedCode Move :=
  match splitAtFirst codeMark (s.input.rest.drop 1) with
  | none => .error ⟨s.input.position⟩
  | some (code, _) =>
    .ok (.silent { s.push (codePieces code) with input := s.input.advance (code.length + 2) })

/-- A link whose opening bracket stands after `lead` characters; text when it is no link. -/
def bracket (lead : Nat) (s : State) : Move :=
  match linkBody? (s.input.rest.drop (lead + 1)) with
  | some (label, target) =>
    { s with input := s.input.advance (lead + 1 + linkBodyWidth label target) }.release.andThen
      (announce [linkEvent label target])
  | none =>
    .silent { s.push ((s.input.rest.take 1).map .char) with input := s.input.advance 1 }

/-! ## The end of a line -/

/-- Raises the lines before the current one as text, and the current one as a title. -/
def underlined (s : State) : Move :=
  { s with buffer := s.buffer.dropLine }.release.andThen (raise [.title s.buffer.line])

/-- The end of a line of running text. -/
def lineEnd (s : State) : Move :=
  let after := { s with input := s.input.advance 1, freshLine := true }
  if s.input.lineBelow?.any isUnderline then
    { after with input := after.input.splitLine.2 }.underlined
  else
    .silent { after with buffer := (after.buffer.push [.char ' ']).markLine }

/-! ## The rule that applies -/

/-- The rule for the next character of running text. -/
def textRule (s : State) : Except UnclosedCode Move :=
  match s.input.rest with
  | [] => .ok (.silent s)
  | c :: t =>
    if c = '\n' then .ok s.lineEnd
    else if c = '*' ∨ c = '_' then .ok (if t.head? = some c then s.boldMark else s.italicMark)
    else if c = codeMark then s.inlineCode
    else if c = '[' then .ok (s.bracket 0)
    else if c = '!' ∧ t.head? = some '[' then .ok (s.bracket 1)
    else .ok (s.literal c)

/-! ## Moving forward -/

theorem length_rest_backslash {s : State} (hs : s.input.rest ≠ []) :
    s.backslash.next.input.rest.length < s.input.rest.length :=
  Zipper.length_rest_advance_lt Nat.two_pos hs

theorem length_rest_boldMark {s : State} (hs : s.input.rest ≠ []) :
    s.boldMark.next.input.rest.length < s.input.rest.length := by
  have h := Zipper.length_rest_advance_lt (z := s.input) Nat.two_pos hs
  unfold boldMark
  split
  · exact h
  · split <;> exact h

theorem length_rest_italicMark {s : State} (hs : s.input.rest ≠ []) :
    s.italicMark.next.input.rest.length < s.input.rest.length := by
  have h := Zipper.length_rest_advance_lt (z := s.input) Nat.one_pos hs
  unfold italicMark
  split
  · exact h
  · split <;> exact h

theorem length_rest_inlineCode {s : State} {m : Move} (h : s.inlineCode = .ok m)
    (hs : s.input.rest ≠ []) : m.next.input.rest.length < s.input.rest.length := by
  unfold inlineCode at h
  split at h
  · cases h
  · cases h
    exact Zipper.length_rest_advance_lt (Nat.succ_pos _) hs

theorem length_rest_bracket {lead : Nat} {s : State} (hs : s.input.rest ≠ []) :
    (s.bracket lead).next.input.rest.length < s.input.rest.length := by
  unfold bracket
  split
  · rw [Move.next_andThen, next_announce, next_release]
    exact Zipper.length_rest_advance_lt (by omega) hs
  · exact Zipper.length_rest_advance_lt Nat.one_pos hs

theorem length_rest_lineEnd {s : State} (hs : s.input.rest ≠ []) :
    s.lineEnd.next.input.rest.length < s.input.rest.length := by
  unfold lineEnd
  split
  · rw [underlined, Move.next_andThen, next_raise, next_release]
    simp only [Zipper.splitLine, Zipper.advance_advance]
    exact Zipper.length_rest_advance_lt (by omega) hs
  · exact Zipper.length_rest_advance_lt Nat.one_pos hs

/-- Every rule of running text moves forward. -/
theorem length_rest_textRule {s : State} {m : Move} (h : s.textRule = .ok m)
    (hs : s.input.rest ≠ []) : m.next.input.rest.length < s.input.rest.length := by
  unfold textRule at h
  split at h
  · contradiction
  · split at h
    · cases h
      exact length_rest_lineEnd hs
    split at h
    · cases h
      split
      · exact length_rest_boldMark hs
      · exact length_rest_italicMark hs
    split at h
    · exact length_rest_inlineCode h hs
    split at h
    · cases h
      exact length_rest_bracket hs
    split at h
    · cases h
      exact length_rest_bracket hs
    · cases h
      exact Zipper.length_rest_advance_lt Nat.one_pos hs

end State

end Roffdown
