import Roffdown.Markdown.State
import Roffdown.Markdown.Shape

/-!
# Rules for lines

The rules that apply at the beginning of a line, and the rule for the lines of a fenced block.

* `paragraphBreak`: ends a paragraph, and one open list.
* `hashRule`: a section header or a box.
* `openFence`, `fencedLine`: a block whose lines are taken as they stand.
* `item?`: an item of a list, nested by its indent.
* `blockRule?`: the rule that applies, if any; each moves forward (`length_rest_blockRule?`).
-/

namespace Roffdown.State

open Markdown Text

/-! ## Paragraphs, headers and fences -/

/-- A line that is empty from here on. -/
def paragraphBreak (s : State) : Move :=
  { s with input := s.input.advance 1, freshLine := true }.release.andThen fun s =>
    (if s.lists.isEmpty then Move.silent s else s.closeInnermost).andThen (announce [.paragraphEnd])

/-- A line that starts with a hash. -/
def hashRule (s : State) : Move :=
  let (line, after) := s.input.splitLine
  { s with input := after, freshLine := true }.release.andThen (announce (hashLine line))

/-- The line that opens a fenced block. -/
def openFence (s : State) : Move :=
  { s with input := s.input.splitLine.2, inFence := true }.release.andThen (announce [.fenceOpen])

/-- A line of a fenced block, or the line that closes it. -/
def fencedLine (s : State) : Move :=
  let (line, after) := s.input.splitLine
  if s.input.startsWith fence then
    { s with input := after, inFence := false, freshLine := true }.announce [.fenceClose]
  else { s with input := after }.announce [.fenceLine line]

/-! ## List items -/

/-- Ends an item and begins the next of the innermost list. -/
def nextItem (s : State) : Move :=
  (s.announce [.itemClose]).andThen fun s =>
    { s with lists := s.lists.countItem }.announce [.itemOpen]

/-- Begins an item at an indent, whose marker is already read: lists indented further are closed,
and a list is opened when none is left or the innermost is indented less. -/
def placeItem (marker : Marker) (indent : Nat) (s : State) : Move :=
  (s.closeMany (s.lists.deeperThan indent)).andThen fun s =>
    if s.lists.innermost?.all fun l => l.indent < indent then
      match s.lists.opened? ⟨marker.style, marker.number, indent⟩ with
      | some lists => { s with lists := lists }.announce [.listOpen marker.style, .itemOpen]
      | none => (s.warn .tooDeep).andThen nextItem
    else s.nextItem

/-- A line that begins with the marker of a list item; blanks may stand before it in a list. -/
def item? (s : State) : Option Move :=
  let blanks := if s.lists.isEmpty then [] else s.input.rest.takeWhile isIndent
  (marker? (s.input.rest.drop blanks.length)).map fun marker =>
    { s with input := s.input.advance (blanks.length + marker.width) }.release.andThen
      (placeItem marker (indentWidth blanks))

/-! ## The rule that applies -/

/-- The rule that applies at the beginning of a line. -/
def blockRule? (s : State) : Option Move :=
  match s.input.rest with
  | '\n' :: _ => some s.paragraphBreak
  | '#' :: _ => some s.hashRule
  | _ => if s.input.startsWith fence then some s.openFence else s.item?

/-! ## Moving forward -/

theorem input_paragraphBreak (s : State) : s.paragraphBreak.next.input = s.input.advance 1 := by
  simp only [paragraphBreak, Move.next_andThen, next_release]
  split <;> rfl

theorem input_hashRule (s : State) : s.hashRule.next.input = s.input.splitLine.2 := by
  simp [hashRule, next_release]

theorem input_openFence (s : State) : s.openFence.next.input = s.input.splitLine.2 := by
  simp [openFence, next_release]

theorem input_fencedLine (s : State) : s.fencedLine.next.input = s.input.splitLine.2 := by
  simp only [fencedLine]
  split <;> rfl

theorem input_placeItem (marker : Marker) (indent : Nat) (s : State) :
    (s.placeItem marker indent).next.input = s.input := by
  have h := input_closeMany (s.lists.deeperThan indent) s
  unfold placeItem
  rw [Move.next_andThen, ← h]
  split
  · split <;> rfl
  · rfl

theorem width_pos_of_marker? {t : Text} {marker : Marker} (h : marker? t = some marker) :
    0 < marker.width := by
  cases t with
  | nil => simp [marker?] at h
  | cons c t =>
    rw [marker?] at h
    split at h
    · split at h
      · simp at h
      · simp only [Option.some.injEq] at h
        subst h
        exact Nat.lt_of_lt_of_le Nat.one_pos (Nat.le_add_right _ _)
    · split at h
      · simp at h
      · simp only [Option.some.injEq] at h
        subst h
        exact Nat.lt_of_lt_of_le (Nat.succ_pos _) (Nat.le_add_right _ _)
      · simp at h

/-- An item moves forward. -/
theorem length_rest_item? {s : State} {m : Move} (h : s.item? = some m)
    (hs : s.input.rest ≠ []) : m.next.input.rest.length < s.input.rest.length := by
  obtain ⟨marker, hm, rfl⟩ := Option.map_eq_some_iff.1 h
  simp only [Move.next_andThen, input_placeItem, next_release]
  exact Zipper.length_rest_advance_lt (by have := width_pos_of_marker? hm; omega) hs

/-- Every rule for the beginning of a line moves forward. -/
theorem length_rest_blockRule? {s : State} {m : Move} (h : s.blockRule? = some m)
    (hs : s.input.rest ≠ []) : m.next.input.rest.length < s.input.rest.length := by
  unfold blockRule? at h
  split at h
  · cases h
    rw [input_paragraphBreak]
    exact Zipper.length_rest_advance_lt Nat.one_pos hs
  · cases h
    rw [input_hashRule]
    exact Zipper.length_rest_splitLine_lt hs
  · split at h
    · cases h
      rw [input_openFence]
      exact Zipper.length_rest_splitLine_lt hs
    · exact length_rest_item? h hs

end Roffdown.State
