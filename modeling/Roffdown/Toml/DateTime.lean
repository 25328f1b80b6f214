import Roffdown.Text.Basic

/-!
# Dates and times in TOML

A date, a time, or a date and a time with or without an offset from universal time.  Reading one
gives its normal form: a capital T between date and time, no zeros at the end of a fraction of a
second, which has at most nine digits, and a capital Z or a signed offset.

* `dateTime?`: the normal form of a date or time, and the text after it.
-/

namespace Roffdown.Toml

open Text

/-- A number of exactly so many digits within bounds. -/
def fixed? (width low high : Nat) (t : Text) : Option (Nat × Text) :=
  let digits := t.take width
  let n := Text.toNat 10 digits
  if digits.length = width ∧ digits.all Char.isDigit ∧ low ≤ n ∧ n ≤ high then
    some (n, t.drop width)
  else none

/-- The text after a given character. -/
def after? (c : Char) : Text → Option Text
  | x :: t => if x = c then some t else none
  | [] => none

/-- Number of days of a month. -/
def daysIn (year month : Nat) : Nat :=
  if month = 2 then
    if year % 4 = 0 ∧ (year % 100 ≠ 0 ∨ year % 400 = 0) then 29 else 28
  else if month = 4 ∨ month = 6 ∨ month = 9 ∨ month = 11 then 30
  else 31

/-- A number in at least so many digits. -/
def padded (width n : Nat) : Text := zeroPadded width (ofNat n)

/-- A date. -/
def date? (t : Text) : Option (Text × Text) := do
  let (year, t) ← fixed? 4 0 9999 t
  let t ← after? '-' t
  let (month, t) ← fixed? 2 1 12 t
  let t ← after? '-' t
  let (day, t) ← fixed? 2 1 (daysIn year month) t
  return (padded 4 year ++ '-' :: padded 2 month ++ '-' :: padded 2 day, t)

/-- A fraction of a second after its point, or nothing. -/
def fraction? (t : Text) : Option (Text × Text) :=
  match after? '.' t with
  | none => some ([], t)
  | some t =>
    let digits := t.takeWhile Char.isDigit
    if digits.isEmpty then none
    else
      let kept := trimEnd (· == '0') (digits.take 9)
      some (if kept.isEmpty then [] else '.' :: kept, t.drop digits.length)

/-- A time of the day. -/
def time? (t : Text) : Option (Text × Text) := do
  let (hour, t) ← fixed? 2 0 23 t
  let t ← after? ':' t
  let (minute, t) ← fixed? 2 0 59 t
  let t ← after? ':' t
  let (second, t) ← fixed? 2 0 60 t
  let (fraction, t) ← fraction? t
  return (padded 2 hour ++ ':' :: padded 2 minute ++ ':' :: padded 2 second ++ fraction, t)

/-- An offset from universal time, or nothing; no offset is written as a positive one. -/
def offset? : Text → Option (Text × Text)
  | [] => some ([], [])
  | c :: t =>
    if c = 'Z' ∨ c = 'z' then some (['Z'], t)
    else if c = '+' ∨ c = '-' then do
      let (hour, t) ← fixed? 2 0 23 t
      let t ← after? ':' t
      let (minute, t) ← fixed? 2 0 59 t
      let sign := if hour = 0 ∧ minute = 0 then '+' else c
      return (sign :: padded 2 hour ++ ':' :: padded 2 minute, t)
    else some ([], c :: t)

/-- Whether a character can stand between a date and a time. -/
def isDelimiter (c : Char) : Bool := c == 'T' || c == 't' || c == ' '

/-- The time and the offset after a date, or nothing. -/
def timeAfterDate (t : Text) : Text × Text :=
  match t with
  | [] => ([], [])
  | c :: rest =>
    if isDelimiter c then
      match time? rest with
      | some (time, rest) =>
        match offset? rest with
        | some (offset, rest) => ('T' :: time ++ offset, rest)
        | none => ('T' :: time, rest)
      | none => ([], t)
    else ([], t)

/-- A date, a time, or both. -/
def dateTime? (t : Text) : Option (Text × Text) :=
  match date? t with
  | some (date, t) => some (date ++ (timeAfterDate t).1, (timeAfterDate t).2)
  | none => time? t

end Roffdown.Toml
