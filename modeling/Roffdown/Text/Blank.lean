import Roffdown.Text.Basic

/-!
# Blank characters

Two classes of blanks are in use, and a third is the white space of Unicode.

* `isBlank`: the six blanks that separate words in running text.
* `isIndent`: the two blanks that indent a list marker or follow it.
* `isWhiteSpace`: the characters with the Unicode property `White_Space`.
-/

namespace Roffdown.Text

/-- Space, tab, newline, vertical tab, form feed and carriage return. -/
def isBlank (c : Char) : Bool :=
  c == ' ' || c == '\t' || c == '\n' || c == '\x0b' || c == '\x0c' || c == '\r'

/-- Space and tab. -/
def isIndent (c : Char) : Bool := c == ' ' || c == '\t'

theorem isBlank_of_isIndent {c : Char} (h : isIndent c) : isBlank c := by
  simp only [isIndent, Bool.or_eq_true, beq_iff_eq] at h
  rcases h with rfl | rfl <;> rfl

/-- The characters with the Unicode property `White_Space`. -/
def isWhiteSpace (c : Char) : Bool :=
  (0x9 ≤ c.toNat && c.toNat ≤ 0xd) || c.toNat == 0x20 || c.toNat == 0x85 || c.toNat == 0xa0 ||
    c.toNat == 0x1680 || (0x2000 ≤ c.toNat && c.toNat ≤ 0x200a) || c.toNat == 0x2028 ||
    c.toNat == 0x2029 || c.toNat == 0x202f || c.toNat == 0x205f || c.toNat == 0x3000

theorem isWhiteSpace_of_isBlank {c : Char} (h : isBlank c) : isWhiteSpace c := by
  simp only [isBlank, Bool.or_eq_true, beq_iff_eq] at h
  rcases h with ((((rfl | rfl) | rfl) | rfl) | rfl) | rfl <;> rfl

/-- The places, counted in characters from 0, at which a text has a blank. -/
def blankIndexes (t : Text) : List Nat :=
  (t.zipIdx.filter fun p => isBlank p.1).map Prod.snd

end Roffdown.Text
