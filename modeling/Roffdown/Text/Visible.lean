import Roffdown.Text.Basic

/-!
# Texts shown on a terminal

A terminal takes some control characters for commands.  `visible` spells them out, so that a text
that comes from elsewhere is shown and does nothing else.

* `visible_of_forall`: a text without such characters is shown as it is.
-/

namespace Roffdown.Text

/-- The control characters that terminals take for commands: bell, backspace, form feed, escape,
delete, and those above the ASCII characters. -/
def isCommand (c : Char) : Bool :=
  c == '\x07' || c == '\x08' || c == '\x0c' || c == '\x1b' || c == '\x7f' ||
    (0x80 ≤ c.toNat && c.toNat ≤ 0x9f)

/-- The number of a character in base sixteen: in two digits after `\x` for an ASCII character, and
in braces after `\u` for any other. -/
def spelledOut (c : Char) : Text :=
  let digits := Nat.toDigits 16 c.toNat
  if c.toNat < 0x80 then "\\x".toList ++ zeroPadded 2 digits
  else "\\u\x7b".toList ++ digits ++ ['\x7d']

/-- The text with the commands to a terminal spelled out. -/
def visible (t : Text) : Text := t.flatMap fun c => if isCommand c then spelledOut c else [c]

@[simp] theorem visible_nil : visible [] = [] := rfl

@[simp] theorem visible_append (s t : Text) : visible (s ++ t) = visible s ++ visible t := by
  simp [visible]

/-- A text without commands is shown as it is. -/
theorem visible_of_forall {t : Text} (h : ∀ c ∈ t, isCommand c = false) : visible t = t := by
  induction t with
  | nil => rfl
  | cons c t ih =>
    have ht := ih fun x hx => h x (List.mem_cons_of_mem c hx)
    simpa [visible, h c List.mem_cons_self] using ht

end Roffdown.Text
