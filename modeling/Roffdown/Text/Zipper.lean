import Roffdown.Text.Basic

/-!
# Places in a text

A zipper is a text with a place in it.  It is kept as the two parts that the place splits the text
into, the part before it read backwards, so the place never lies inside a character.

* `source_advance`: moving keeps the text.
* `rest_advance`, `before_advance`: moving by `n` characters takes `n` off the rest.
* `seek?`: the place at a byte offset, if a character begins or the text ends there.
-/

namespace Roffdown

open Text

/-- A place by line and column, both counted from 1, the column in characters. -/
structure Position where
  line : Nat
  column : Nat
deriving DecidableEq, Repr

/-- A text with a place between two of its characters. -/
structure Zipper where
  /-- The characters before the place, nearest first. -/
  before : List Char
  /-- The characters after the place. -/
  rest : Text
deriving DecidableEq, Repr

namespace Zipper

/-- The beginning of a text. -/
def start (t : Text) : Zipper := ⟨[], t⟩

/-- The whole text. -/
def source (z : Zipper) : Text := z.before.reverse ++ z.rest

/-- Number of bytes before the place. -/
def offset (z : Zipper) : Nat := utf8Length z.before

/-! ## Looking around -/

/-- Whether nothing is left. -/
def atEnd (z : Zipper) : Bool := z.rest.isEmpty

/-- The character after the place. -/
def next? (z : Zipper) : Option Char := z.rest.head?

/-- The `n`-th character after the place, counted from 0. -/
def nth? (n : Nat) (z : Zipper) : Option Char := z.rest[n]?

/-- The character before the place. -/
def previous? (z : Zipper) : Option Char := z.before.head?

/-- Whether the rest begins with a text. -/
def startsWith (t : Text) (z : Zipper) : Bool := t.isPrefixOf z.rest

/-- What is left of the line, without its newline. -/
def restOfLine (z : Zipper) : Text := firstLine z.rest

/-- The line below, if this one is ended by a newline. -/
def lineBelow? (z : Zipper) : Option Text := (afterLine? z.rest).map firstLine

/-- The line and column of the place. -/
def position (z : Zipper) : Position :=
  ⟨z.before.count '\n' + 1, (z.before.takeWhile (· != '\n')).length + 1⟩

/-! ## Moving -/

/-- Moves over `n` characters, or to the end when fewer are left. -/
def advance (n : Nat) (z : Zipper) : Zipper :=
  ⟨(z.rest.take n).reverse ++ z.before, z.rest.drop n⟩

/-- Moves over a text, if the rest begins with it. -/
def skip? (t : Text) (z : Zipper) : Option Zipper :=
  if z.startsWith t then some (z.advance t.length) else none

/-- The longest run of characters of a class, and the place after it. -/
def span (p : Char → Bool) (z : Zipper) : Text × Zipper :=
  let run := z.rest.takeWhile p
  (run, z.advance run.length)

/-- What is left of the line, and the place after its newline. -/
def splitLine (z : Zipper) : Text × Zipper :=
  (z.restOfLine, z.advance (z.restOfLine.length + 1))

/-- Moves over exactly `n` bytes, if a character ends there. -/
def forward? (before : List Char) : Nat → Text → Option Zipper
  | 0, rest => some ⟨before, rest⟩
  | _ + 1, [] => none
  | n + 1, c :: rest =>
    if c.utf8Size ≤ n + 1 then forward? (c :: before) (n + 1 - c.utf8Size) rest else none

/-- The place at a byte offset of the text. -/
def seek? (n : Nat) (z : Zipper) : Option Zipper := forward? [] n z.source

/-! ## What moving keeps -/

@[simp] theorem source_start (t : Text) : (start t).source = t := rfl

@[simp] theorem rest_advance (n : Nat) (z : Zipper) : (z.advance n).rest = z.rest.drop n := rfl

@[simp] theorem before_advance (n : Nat) (z : Zipper) :
    (z.advance n).before = (z.rest.take n).reverse ++ z.before := rfl

@[simp] theorem source_advance (n : Nat) (z : Zipper) : (z.advance n).source = z.source := by
  simp [source]

@[simp] theorem advance_zero (z : Zipper) : z.advance 0 = z := by
  simp [advance]

theorem advance_advance (m n : Nat) (z : Zipper) :
    (z.advance m).advance n = z.advance (m + n) := by
  simp [advance, List.drop_drop, List.take_add]

theorem length_rest_advance (n : Nat) (z : Zipper) :
    (z.advance n).rest.length = z.rest.length - n := by simp

/-- A move over at least one character shortens a rest that is not empty. -/
theorem length_rest_advance_lt {n : Nat} {z : Zipper} (hn : 0 < n) (hz : z.rest ≠ []) :
    (z.advance n).rest.length < z.rest.length := by
  have := List.length_pos_iff.2 hz
  rw [length_rest_advance]
  omega

theorem splitLine_of_rest_eq {z : Zipper} {line u : Text} (h : z.rest = line ++ '\n' :: u)
    (hl : '\n' ∉ line) : z.splitLine = (line, z.advance (line.length + 1)) := by
  rw [splitLine, restOfLine, h, firstLine_append hl]

theorem rest_splitLine_eq (z : Zipper) : z.splitLine.2.rest = (afterLine? z.rest).getD [] :=
  drop_firstLine z.rest

/-- Taking a line shortens a rest that is not empty. -/
theorem length_rest_splitLine_lt {z : Zipper} (hz : z.rest ≠ []) :
    z.splitLine.2.rest.length < z.rest.length :=
  length_rest_advance_lt (Nat.succ_pos _) hz

end Zipper

end Roffdown
