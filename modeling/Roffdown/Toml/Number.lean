import Roffdown.Toml.Quoted
import Roffdown.Toml.Value

/-!
# Numbers in TOML

Whole numbers of 64 bits in four bases, and binary fractions.  A single underscore may stand
between two digits.

* `digits?`: a run of digits, without its underscores.
* `number?`: any number.
-/

namespace Roffdown.Toml

open Decimal Text

/-- The digits of a class that go on after a digit, and the text after them. -/
def moreDigits (p : Char → Bool) : Text → Text × Text
  | [] => ([], [])
  | [c] => if p c then ([c], []) else ([], [c])
  | c :: d :: t =>
    if p c then
      let (ds, rest) := moreDigits p (d :: t)
      (c :: ds, rest)
    else if c = '_' ∧ p d then moreDigits p (d :: t)
    else ([], c :: d :: t)

/-- A run of at least one digit of a class. -/
def digits? (p : Char → Bool) (t : Text) : Option (Text × Text) :=
  if t.head?.any p then some (moreDigits p t) else none

/-- A decimal run without superfluous zeros in front. -/
def decimal? (t : Text) : Option (Text × Text) := do
  let (ds, rest) ← digits? Char.isDigit t
  if ds.head? = some '0' ∧ 1 < ds.length then none else some (ds, rest)

/-- A sign, if there is one: whether it is a minus, and the text after it. -/
def sign : Text → Bool × Text
  | '-' :: t => (true, t)
  | '+' :: t => (false, t)
  | t => (false, t)

/-- A whole number that fits into 64 bits with its sign. -/
def integer? (n : Int) : Option Value :=
  if -9223372036854775808 ≤ n ∧ n ≤ 9223372036854775807 then some (.integer n) else none

/-- The digits after a point, or nothing. -/
def fractionDigits? (t : Text) : Option (Text × Text) :=
  match t with
  | '.' :: t => digits? Char.isDigit t
  | _ => some ([], t)

/-- An exponent, or nothing. -/
def exponent? (t : Text) : Option (Option Int × Text) :=
  match t with
  | c :: rest =>
    if c = 'e' ∨ c = 'E' then do
      let (ds, after) ← digits? Char.isDigit (sign rest).2
      let n : Int := Text.toNat 10 ds
      return (some (if (sign rest).1 then -n else n), after)
    else some (none, t)
  | [] => some (none, [])

/-- The value of a decimal fraction; one that is too large is refused unless it is negative. -/
def fraction (negative : Bool) (digits : Nat) (e : Int) : Option Value :=
  match Magnitude.ofDecimal? digits e with
  | some m => some (.real (.finite negative m))
  | none => if negative then some (.real (.infinite true)) else none

/-- A decimal number: whole unless it has a point or an exponent. -/
def decimalNumber? (negative : Bool) (t : Text) : Option (Value × Text) := do
  let (whole, t) ← decimal? t
  let (places, t) ← fractionDigits? t
  let (e, t) ← exponent? t
  if places.isEmpty ∧ e.isNone then
    let n : Int := Text.toNat 10 whole
    let v ← integer? (if negative then -n else n)
    return (v, t)
  else
    let v ← fraction negative (Text.toNat 10 (whole ++ places)) (e.getD 0 - places.length)
    return (v, t)

/-- A whole number of a base other than ten, from after the letter of its base. -/
def basedNumber? (base : Nat) (p : Char → Bool) (t : Text) : Option (Value × Text) := do
  let (ds, t) ← digits? p t
  let v ← integer? (Text.toNat base ds)
  return (v, t)

/-- Any number. -/
def number? (t : Text) : Option (Value × Text) :=
  match t with
  | '0' :: 'x' :: t => basedNumber? 16 isHexDigit t
  | '0' :: 'o' :: t => basedNumber? 8 (fun c => '0' ≤ c && c ≤ '7') t
  | '0' :: 'b' :: t => basedNumber? 2 (fun c => c == '0' || c == '1') t
  | t =>
    match sign t with
    | (negative, 'i' :: 'n' :: 'f' :: t) => some (.real (.infinite negative), t)
    | (_, 'n' :: 'a' :: 'n' :: t) => some (.real .notANumber, t)
    | (negative, t) => decimalNumber? negative t

end Roffdown.Toml
