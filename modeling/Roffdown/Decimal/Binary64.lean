import Roffdown.Text.Basic

/-!
# Binary fractions of 64 bits

The numbers `m · 2 ^ q` with at most 53 bits in `m` and `q` between -1074 and 971, with a sign, two
infinities and a value that is no number.

* `roundDiv`: a quotient rounded to the nearest whole number, a half to the even one.
* `Magnitude.ofDecimal?`: the magnitude nearest to a decimal number.
-/

namespace Roffdown.Decimal

/-- A quotient rounded to the nearest whole number; a half goes to the even neighbour. -/
def roundDiv (n d : Nat) : Nat :=
  let q := n / d
  let r := n % d
  if 2 * r < d then q else if d < 2 * r then q + 1 else q + q % 2

theorem roundDiv_of_dvd {n d : Nat} (hd : 0 < d) (h : d ∣ n) : roundDiv n d = n / d := by
  simp [roundDiv, Nat.mod_eq_zero_of_dvd h, hd]

/-- The magnitude `significand · 2 ^ exponent`. -/
structure Magnitude where
  significand : Nat
  exponent : Int
deriving DecidableEq, Repr

namespace Magnitude

/-- The smallest exponent. -/
def minExponent : Int := -1074

/-- The largest exponent. -/
def maxExponent : Int := 971

/-- Zero. -/
def zero : Magnitude := ⟨0, minExponent⟩

/-- A quotient divided by a power of two, again as a quotient. -/
def shifted (n d : Nat) (q : Int) : Nat × Nat :=
  (n * Nat.pow 2 (-q).toNat, d * Nat.pow 2 q.toNat)

/-- The exponent at which a quotient that is not zero has 53 bits before the point, unless the
smallest exponent is larger. -/
def exponentOf (n d : Nat) : Int :=
  let q : Int := (n.log2 : Int) - d.log2 - 52
  let s := shifted n d q
  max minExponent (if s.1 / s.2 < Nat.pow 2 52 then q - 1 else q)

/-- The magnitude nearest to a quotient; none when it would need an exponent that is too large. -/
def ofQuotient? (n d : Nat) : Option Magnitude :=
  if n = 0 then some zero
  else
    let q := exponentOf n d
    let s := shifted n d q
    let m := roundDiv s.1 s.2
    let r : Magnitude := if m = Nat.pow 2 53 then ⟨Nat.pow 2 52, q + 1⟩ else ⟨m, q⟩
    if maxExponent < r.exponent then none else some r

/-- The magnitude nearest to `digits · 10 ^ e`; none when it is too large. -/
def ofDecimal? (digits : Nat) (e : Int) : Option Magnitude :=
  let length : Int := (Text.ofNat digits).length
  if digits = 0 ∨ e + length < -330 then some zero
  else if 310 < e + length then none
  else ofQuotient? (digits * Nat.pow 10 e.toNat) (Nat.pow 10 (-e).toNat)

end Magnitude

/-- A binary fraction of 64 bits. -/
inductive Binary64
  | notANumber
  | infinite (negative : Bool)
  | finite (negative : Bool) (magnitude : Magnitude)
deriving DecidableEq, Repr

end Roffdown.Decimal
