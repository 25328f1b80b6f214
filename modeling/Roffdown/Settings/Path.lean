import Roffdown.Text.Blank

/-!
# Paths of settings

A path leads from name to name through tables, and by numbers through arrays.  It is written with
points before names and brackets around numbers, as in `header.section` or `header[0]`.

* `path?`: the path that a text writes, if it writes one.
-/

namespace Roffdown.Settings

open Text

/-- A name in small letters. -/
def folded (name : Text) : Text := name.map Char.toLower

/-- One step of a path. -/
inductive Step
  /-- To the entry of a name, which is in small letters. -/
  | name (name : Text)
  /-- To the item of a number, which is counted from the end when it is negative. -/
  | index (i : Int)
deriving DecidableEq, Repr

/-- The steps to a place. -/
abbrev Path := List Step

/-- Characters of the names of a path. -/
def isNameChar (c : Char) : Bool := c.isAlphanum || c == '_' || c == '-' || c == ' '

/-- A name at the beginning of a text, and the text after it. -/
def pathName? (t : Text) : Option (Step × Text) :=
  match t.takeWhile isNameChar with
  | [] => none
  | name => some (.name (folded name), t.drop name.length)

/-- A number of 64 bits and its closing bracket, and the text after it.  Spaces and tabs may stand
around the number. -/
def pathIndex? (t : Text) : Option (Step × Text) :=
  let t := t.dropWhile isIndent
  let negative := t.head? = some '-'
  let t := if negative then t.tail else t
  let digits := t.takeWhile Char.isDigit
  let n : Int := if negative then -(toNat 10 digits : Int) else toNat 10 digits
  match digits, (t.drop digits.length).dropWhile isIndent with
  | _ :: _, ']' :: t =>
    if -9223372036854775808 ≤ n ∧ n ≤ 9223372036854775807 then some (.index n, t) else none
  | _, _ => none

/-- The steps after the first name; `fuel` bounds their number. -/
def pathSteps? (fuel : Nat) (t : Text) : Option Path :=
  match fuel, t with
  | _, [] => some []
  | 0, _ => none
  | n + 1, c :: t => do
    let (step, t) ←
      if c = '.' then pathName? t else if c = '[' then pathIndex? t else none
    let steps ← pathSteps? n t
    return step :: steps

/-- The path that a text writes.  It begins with a name. -/
def path? (t : Text) : Option Path := do
  let (step, rest) ← pathName? t
  let steps ← pathSteps? rest.length rest
  return step :: steps

end Roffdown.Settings
