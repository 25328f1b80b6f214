import Roffdown.Text.Basic

/-!
# What a header says

The values from which the header of a document is written.

* `Date.text`: a date as year, month and day.
* `HeaderFields.standard`: the fields when nothing else is asked for.
-/

namespace Roffdown

open Text

/-- A day of the Gregorian calendar, which is extended to all years. -/
structure Date where
  year : Int
  month : Nat
  day : Nat
deriving DecidableEq, Repr

/-- The year in at least four digits, signed when it is negative or above 9999. -/
def Date.yearText (d : Date) : Text :=
  let digits := zeroPadded 4 (ofNat d.year.natAbs)
  if d.year < 0 then '-' :: digits else if 9999 < d.year then '+' :: digits else digits

/-- Year, month and day with hyphens between them. -/
def Date.text (d : Date) : Text :=
  d.yearText ++ '-' :: zeroPadded 2 (ofNat d.month) ++ '-' :: zeroPadded 2 (ofNat d.day)

/-- The fields of a header that do not come from the document. -/
structure HeaderFields where
  /-- Section of the manual. -/
  manualSection : Text
  /-- Where the document comes from. -/
  origin : Text
  author : Text
  paper : Text
  printStyle : Text
deriving DecidableEq, Repr

/-- The fields when nothing else is asked for. -/
def HeaderFields.standard : HeaderFields where
  manualSection := "7".toList
  origin := "document".toList
  author := "md2roff".toList
  paper := "A4".toList
  printStyle := "TYPESET".toList

/-- All that a header is written from. -/
structure HeaderFacts where
  /-- Name of the document. -/
  name : Text
  /-- What follows the hash in the first line, when that line is taken for the header. -/
  titleLine : Option Text
  date : Date
  fields : HeaderFields
deriving DecidableEq, Repr

end Roffdown
