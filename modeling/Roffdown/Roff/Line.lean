import Roffdown.Text.Basic

/-!
# Lines of roff

roff reads a line that starts with a point or an apostrophe as a request, unless the control
character has been changed.

* `requestLine`: a request and its arguments.
* `textLine`: running text that is never read as a request (`not_isControl_of_head?_textLine`).
* `quoted`: an argument in double quotes (`quote_not_mem_quotedBody`).
* `verbatimLines`: a line as it stands, with the control character changed around it where needed.
-/

namespace Roffdown.Roff

/-- A request; nothing follows its name when it has no arguments. -/
def requestLine (name arguments : Text) : Text :=
  if arguments.isEmpty then name else name ++ ' ' :: arguments

/-- The characters that begin a request. -/
def isControl (c : Char) : Bool := c == '.' || c == '\x27'

/-- Running text; `\&`, which has no width, stands before a control character. -/
def textLine : Text → Text
  | [] => []
  | c :: t => if isControl c then '\\' :: '&' :: c :: t else c :: t

/-- The inside of a quoted argument: a double quote is written `\(dq`. -/
def quotedBody (argument : Text) : Text :=
  argument.flatMap fun c => if c = '"' then "\\(dq".toList else [c]

/-- An argument in double quotes. -/
def quoted (argument : Text) : Text := '"' :: quotedBody argument ++ ['"']

/-- A line as it stands; before and after a line that starts with a point, the control character is
changed by the requests `on` and `off`. -/
def verbatimLines (on off line : Text) : List Text :=
  if line.head? = some '.' then [on, line, off] else [line]

/-- A line of text begins with no control character. -/
theorem not_isControl_of_head?_textLine {t : Text} {c : Char} (h : (textLine t).head? = some c) :
    isControl c = false := by
  cases t with
  | nil => simp [textLine] at h
  | cons x t =>
    by_cases hx : isControl x
    · simp only [textLine, hx, if_true, List.head?_cons, Option.some.injEq] at h
      subst h
      rfl
    · simp only [textLine, hx, Bool.false_eq_true, if_false, List.head?_cons,
        Option.some.injEq] at h
      simpa [h] using hx

theorem quote_not_mem_quotedBody (argument : Text) : '"' ∉ quotedBody argument := by
  simp only [quotedBody, List.mem_flatMap, not_exists, not_and]
  intro c _
  split
  · decide
  · simpa [eq_comm] using ‹_›

end Roffdown.Roff
