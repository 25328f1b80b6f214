import Roffdown.Text.Blank

/-!
# Quoted text in TOML

Text stands between double quotes, where a backslash escapes, or between apostrophes, where nothing
does.  Tripled quotes enclose text of several lines.

* `basic?`, `literal?`: text of one line, without its opening quote.
* `text?`: any quoted text.
* `literal?_eq_some_iff`: what text between apostrophes is.
-/

namespace Roffdown.Toml

open Text

/-- Characters that stand for themselves: all but control characters, of which tab is allowed. -/
def isPlain (c : Char) : Bool := c == '\t' || (0x20 ≤ c.toNat && c.toNat != 0x7f)

/-- The apostrophe. -/
def apostrophe : Char := '\x27'

/-- The text after a newline, which may stand after a carriage return. -/
def newline? : Text → Option Text
  | '\n' :: t => some t
  | '\r' :: '\n' :: t => some t
  | _ => none

/-- The text after spaces and tabs. -/
def skipBlanks (t : Text) : Text := t.dropWhile isIndent

/-- The text after spaces, tabs and newlines. -/
def skipEmptyLines : Text → Text
  | [] => []
  | c :: t =>
    if isIndent c || c == '\n' || (c == '\r' && t.head? == some '\n') then skipEmptyLines t
    else c :: t

/-! ## Escapes -/

/-- Digits of base sixteen. -/
def isHexDigit (c : Char) : Bool :=
  c.isDigit || (('a' ≤ c && c ≤ 'f') || ('A' ≤ c && c ≤ 'F'))

/-- The character whose number is written in `n` digits of base sixteen. -/
def numbered? (n : Nat) (t : Text) : Option (Char × Text) :=
  let digits := t.take n
  let value := Text.toNat 16 digits
  if digits.length = n ∧ digits.all isHexDigit ∧ value.isValidChar then
    some (Char.ofNat value, t.drop n)
  else none

/-- The character that is escaped, from the text after the backslash. -/
def escape? : Text → Option (Char × Text)
  | 'b' :: t => some ('\x08', t)
  | 't' :: t => some ('\t', t)
  | 'n' :: t => some ('\n', t)
  | 'f' :: t => some ('\x0c', t)
  | 'r' :: t => some ('\r', t)
  | '"' :: t => some ('"', t)
  | '\\' :: t => some ('\\', t)
  | 'u' :: t => numbered? 4 t
  | 'U' :: t => numbered? 8 t
  | _ => none

/-! ## Text of one line -/

/-- Text up to the closing double quote; `fuel` bounds the number of its characters. -/
def basicBody (fuel : Nat) (t : Text) : Option (Text × Text) :=
  match fuel, t with
  | 0, _ => none
  | _, [] => none
  | n + 1, c :: t =>
    if c = '"' then some ([], t)
    else if c = '\\' then do
      let (x, t) ← escape? t
      let (s, t) ← basicBody n t
      return (x :: s, t)
    else if isPlain c then do
      let (s, t) ← basicBody n t
      return (c :: s, t)
    else none

/-- Text in double quotes, from after the opening one. -/
def basic? (t : Text) : Option (Text × Text) := basicBody t.length t

/-- Text in apostrophes, from after the opening one. -/
def literal? (t : Text) : Option (Text × Text) :=
  match splitAtFirst apostrophe t with
  | some (s, t) => if s.all isPlain then some (s, t) else none
  | none => none

theorem literal?_eq_some_iff {t s rest : Text} :
    literal? t = some (s, rest) ↔
      t = s ++ apostrophe :: rest ∧ apostrophe ∉ s ∧ s.all isPlain := by
  unfold literal?
  split
  · rename_i a b hs
    obtain ⟨rfl, ha⟩ := splitAtFirst_eq_some_iff.1 hs
    constructor
    · intro h
      split at h
      · simp only [Option.some.injEq, Prod.mk.injEq] at h
        obtain ⟨rfl, rfl⟩ := h
        exact ⟨rfl, ha, ‹_›⟩
      · contradiction
    · rintro ⟨he, hm, hp⟩
      have h := splitAtFirst_eq_some_iff.2 ⟨he, hm⟩
      rw [hs, Option.some.injEq, Prod.mk.injEq] at h
      obtain ⟨rfl, rfl⟩ := h
      simp [hp]
  · rename_i hs
    refine ⟨nofun, ?_⟩
    rintro ⟨he, hm, -⟩
    rw [splitAtFirst_eq_some_iff.2 ⟨he, hm⟩] at hs
    contradiction

/-! ## Text of several lines -/

/-- The text after the end of a line that a backslash joins to the next, and after its blanks. -/
def joinedLine? (t : Text) : Option Text := (newline? (skipBlanks t)).map skipEmptyLines

/-- Text up to three closing quotes.  Up to two quotes more stand before them for themselves. -/
def linesBody (quote : Char) (escapes : Bool) (fuel : Nat) (t : Text) : Option (Text × Text) :=
  match fuel, t with
  | 0, _ => none
  | _, [] => none
  | n + 1, c :: after =>
    let push (x : Char) (t : Text) : Option (Text × Text) :=
      (linesBody quote escapes n t).map fun (s, t) => (x :: s, t)
    let run := (t.takeWhile (· == quote)).length
    if 3 ≤ run then some (List.replicate (min run 5 - 3) quote, t.drop (min run 5))
    else if c = quote then push quote after
    else if escapes ∧ c = '\\' then
      match joinedLine? after with
      | some t => linesBody quote escapes n t
      | none =>
        match escape? after with
        | some (x, t) => push x t
        | none => none
    else
      match newline? t with
      | some t => push '\n' t
      | none => if isPlain c then push c after else none

/-- Text of several lines, from after the opening quotes; a newline directly after them is left
out. -/
def lines? (quote : Char) (escapes : Bool) (t : Text) : Option (Text × Text) :=
  linesBody quote escapes t.length ((newline? t).getD t)

/-- Quoted text of any kind. -/
def text? : Text → Option (Text × Text)
  | a :: b :: c :: t =>
    if a = '"' then
      if b = '"' ∧ c = '"' then lines? '"' true t else basic? (b :: c :: t)
    else if a = apostrophe then
      if b = apostrophe ∧ c = apostrophe then lines? apostrophe false t
      else literal? (b :: c :: t)
    else none
  | a :: t => if a = '"' then basic? t else if a = apostrophe then literal? t else none
  | [] => none

end Roffdown.Toml
