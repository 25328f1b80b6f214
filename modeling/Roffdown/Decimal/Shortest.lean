import Roffdown.Decimal.Binary64

/-!
# The shortest decimal text of a binary fraction

A magnitude is written with the fewest digits that read back as the same magnitude, and of those
with the ones nearest to it.  They are found on the coarsest decimal grid that has such a number:
the two neighbours of the magnitude on each grid are tried.

* `readsBack_of_shortest?`: the digits that are found read back.
* `Binary64.text`: the text, which never has an exponent.
-/

namespace Roffdown.Decimal

open Text

namespace Magnitude

/-- Whether `digits · 10 ^ e` reads back as a magnitude. -/
def readsBack (m : Magnitude) (e : Int) (digits : Nat) : Bool := ofDecimal? digits e == some m

/-- The neighbours of a magnitude among the multiples of `10 ^ e` that read back as it; the nearer
first, and the larger first when both are as near. -/
def neighbours (m : Magnitude) (e : Int) : List Nat :=
  let n := m.significand * Nat.pow 2 m.exponent.toNat * Nat.pow 10 (-e).toNat
  let d := Nat.pow 2 (-m.exponent).toNat * Nat.pow 10 e.toNat
  let low := n / d
  (if 2 * (n % d) < d then [low, low + 1] else [low + 1, low]).filter (m.readsBack e)

/-- The exponents of the decimal grids, the coarsest first. -/
def grids : List Int := (List.range 633).map fun k : Nat => 308 - Int.ofNat k

/-- The shortest digits and their exponent. -/
def shortest? (m : Magnitude) : Option (Nat × Int) :=
  grids.findSome? fun e => (m.neighbours e).head?.map fun digits => (digits, e)

theorem readsBack_of_shortest? {m : Magnitude} {digits : Nat} {e : Int}
    (h : m.shortest? = some (digits, e)) : m.readsBack e digits := by
  obtain ⟨e', _, he⟩ := List.exists_of_findSome?_eq_some h
  obtain ⟨d, hd, heq⟩ := Option.map_eq_some_iff.1 he
  simp only [Prod.mk.injEq] at heq
  obtain ⟨rfl, rfl⟩ := heq
  exact (List.mem_filter.1 (List.mem_of_head? hd)).2

end Magnitude

/-- `digits · 10 ^ e` with all its places and no exponent. -/
def positional (digits : Nat) (e : Int) : Text :=
  if 0 ≤ e then ofNat digits ++ List.replicate e.toNat '0'
  else
    let places := (-e).toNat
    let all := zeroPadded (places + 1) (ofNat digits)
    all.take (all.length - places) ++ '.' :: all.drop (all.length - places)

/-- The shortest text of a magnitude. -/
def Magnitude.text (m : Magnitude) : Text :=
  if m.significand = 0 then ['0']
  else
    match m.shortest? with
    | some (digits, e) => positional digits e
    | none => []

/-- The text of a binary fraction. -/
def Binary64.text : Binary64 → Text
  | notANumber => "NaN".toList
  | infinite negative => (if negative then ['-'] else []) ++ "inf".toList
  | finite negative m => (if negative then ['-'] else []) ++ m.text

end Roffdown.Decimal
