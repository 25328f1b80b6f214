import Roffdown.Text.Basic

/-!
# Running text with inline markup

Running text is read as a list of pieces: characters of the document, and marks where a font starts
or ends.  How a mark is spelled is left to a `Markup`, so reading is the same for all.

* `expand_append`, `expand_chars`: expanding is piece by piece, and characters stand for themselves.
* `Buffer.all_push`, `Buffer.all_markLine`: the buffer of running text keeps what is put in.
* `Buffer.length_held`: its mark is where the lines before the current one end.
-/

namespace Roffdown

/-- A place in running text where a font starts or ends. -/
inductive FontMark
  | boldOn
  | italicOn
  /-- Ends bold or italic. -/
  | styleOff
  | codeOn
  | codeOff
deriving DecidableEq, Repr

/-- One element of running text. -/
inductive Piece
  | char (c : Char)
  | mark (m : FontMark)
deriving DecidableEq, Repr

/-- A spelling of the marks. -/
abbrev Markup := FontMark → Text

/-- Marks spelled as tags, to look at the events of a document. -/
def tagMarkup : Markup
  | .boldOn => "<B>".toList
  | .italicOn => "<I>".toList
  | .styleOff => "</>".toList
  | .codeOn => "<C>".toList
  | .codeOff => "</C>".toList

/-- The spelling of one piece. -/
def Piece.expand (m : Markup) : Piece → Text
  | .char c => [c]
  | .mark x => m x

/-- The spelling of running text. -/
def expand (m : Markup) (pieces : List Piece) : Text := pieces.flatMap (Piece.expand m)

@[simp] theorem expand_nil (m : Markup) : expand m [] = [] := rfl

@[simp] theorem expand_append (m : Markup) (p q : List Piece) :
    expand m (p ++ q) = expand m p ++ expand m q := by simp [expand]

@[simp] theorem expand_chars (m : Markup) (t : Text) : expand m (t.map Piece.char) = t := by
  induction t with
  | nil => rfl
  | cons c t ih => simpa [expand, Piece.expand] using ih

/-- Running text that waits to be raised, with a mark where the current line began. -/
structure Buffer where
  /-- The pieces, newest first. -/
  newest : List Piece
  /-- How many of them are of earlier lines. -/
  mark : Nat
  mark_le : mark ≤ newest.length
deriving DecidableEq, Repr

namespace Buffer

/-- Nothing waits. -/
def empty : Buffer := ⟨[], 0, Nat.le_refl 0⟩

/-- How many pieces the current line has. -/
def width (b : Buffer) : Nat := b.newest.length - b.mark

/-- The pieces of earlier lines. -/
def held (b : Buffer) : List Piece := (b.newest.drop b.width).reverse

/-- The pieces of the current line. -/
def line (b : Buffer) : List Piece := (b.newest.take b.width).reverse

/-- All that waits. -/
def all (b : Buffer) : List Piece := b.newest.reverse

/-- Adds pieces to the current line. -/
def push (pieces : List Piece) (b : Buffer) : Buffer where
  newest := pieces.reverse ++ b.newest
  mark := b.mark
  mark_le := by
    rw [List.length_append]
    exact Nat.le_trans b.mark_le (Nat.le_add_left _ _)

/-- Begins a new line: the mark is moved to the end. -/
def markLine (b : Buffer) : Buffer := ⟨b.newest, b.newest.length, Nat.le_refl _⟩

theorem length_drop_width (b : Buffer) : (b.newest.drop b.width).length = b.mark := by
  rw [List.length_drop, width, Nat.sub_sub_self b.mark_le]

/-- Forgets the current line: the pieces are cut at the mark. -/
def dropLine (b : Buffer) : Buffer :=
  ⟨b.newest.drop b.width, b.mark, Nat.le_of_eq b.length_drop_width.symm⟩

theorem all_eq (b : Buffer) : b.all = b.held ++ b.line := by
  rw [all, held, line, ← List.reverse_append, List.take_append_drop]

/-- The mark is where the pieces of earlier lines end. -/
theorem length_held (b : Buffer) : b.held.length = b.mark := by
  rw [held, List.length_reverse, length_drop_width]

/-- A buffer is told by its two parts. -/
theorem ext_held_line {a b : Buffer} (hh : a.held = b.held) (hl : a.line = b.line) : a = b := by
  have hmark : a.mark = b.mark := by rw [← length_held, hh, length_held]
  have hall : a.all = b.all := by rw [all_eq, all_eq, hh, hl]
  obtain ⟨newestA, markA, _⟩ := a
  obtain ⟨newestB, markB, _⟩ := b
  obtain rfl : newestA = newestB := List.reverse_inj.1 hall
  obtain rfl : markA = markB := hmark
  rfl

@[simp] theorem all_empty : empty.all = [] := rfl

@[simp] theorem all_push (ps : List Piece) (b : Buffer) : (b.push ps).all = b.all ++ ps := by
  simp [all, push]

theorem width_push (ps : List Piece) (b : Buffer) :
    (b.push ps).width = ps.reverse.length + b.width := by
  rw [width, width, push, List.length_append]
  exact Nat.add_sub_assoc b.mark_le _

@[simp] theorem held_push (ps : List Piece) (b : Buffer) : (b.push ps).held = b.held := by
  rw [held, held, width_push, push, List.drop_length_add_append]

@[simp] theorem line_push (ps : List Piece) (b : Buffer) : (b.push ps).line = b.line ++ ps := by
  rw [line, line, width_push, push, List.take_length_add_append, List.reverse_append,
    List.reverse_reverse]

theorem width_markLine (b : Buffer) : b.markLine.width = 0 := Nat.sub_self _

@[simp] theorem held_markLine (b : Buffer) : b.markLine.held = b.all := by
  rw [held, width_markLine]
  rfl

@[simp] theorem line_markLine (b : Buffer) : b.markLine.line = [] := by
  rw [line, width_markLine]
  rfl

@[simp] theorem all_markLine (b : Buffer) : b.markLine.all = b.all := rfl

theorem width_dropLine (b : Buffer) : b.dropLine.width = 0 := by
  rw [width, dropLine, length_drop_width, Nat.sub_self]

@[simp] theorem held_dropLine (b : Buffer) : b.dropLine.held = b.held := by
  rw [held, width_dropLine]
  rfl

@[simp] theorem line_dropLine (b : Buffer) : b.dropLine.line = [] := by
  rw [line, width_dropLine]
  rfl

@[simp] theorem all_dropLine (b : Buffer) : b.dropLine.all = b.held := rfl

end Buffer

end Roffdown
