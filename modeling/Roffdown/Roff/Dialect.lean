import Roffdown.Roff.Man
import Roffdown.Roff.Mdoc
import Roffdown.Roff.Mm
import Roffdown.Roff.Mom

/-!
# Dialects

The macro packages that can be written.

* `Dialect.ofName?_name`, `Dialect.name_of_ofName?`: a dialect is known by exactly one name.
-/

namespace Roffdown

/-- A dialect of roff: what one of its macro packages understands. -/
inductive Dialect
  | man
  | mdoc
  | mm
  | mom
deriving DecidableEq, Repr

namespace Dialect

/-- The dialects in the order in which they are listed. -/
def all : List Dialect := [man, mdoc, mm, mom]

/-- The dialect when none is asked for. -/
def standard : Dialect := man

/-- The macro package of a dialect. -/
def package : Dialect → MacroPackage
  | man => .man
  | mdoc => .mdoc
  | mm => .mm
  | mom => .mom

/-- The name of a dialect. -/
def name (d : Dialect) : Text := d.package.name

/-- The dialect of a name. -/
def ofName? (t : Text) : Option Dialect := all.find? fun d => d.name == t

theorem mem_all (d : Dialect) : d ∈ all := by cases d <;> decide

theorem ofName?_name (d : Dialect) : ofName? d.name = some d := by cases d <;> decide

theorem name_of_ofName? {t : Text} {d : Dialect} (h : ofName? t = some d) : d.name = t := by
  simpa using List.find?_some h

end Dialect

/-- The error that no dialect has a name. -/
structure NoSuchDialect where
  name : Text
deriving DecidableEq, Repr

/-- The text of the error. -/
def NoSuchDialect.message (e : NoSuchDialect) : Text :=
  "Dialect '".toList ++ e.name ++ "' not found".toList

/-- The dialect of a name, or the error that there is none. -/
def Dialect.ofName (t : Text) : Except NoSuchDialect Dialect :=
  match ofName? t with
  | some d => .ok d
  | none => .error ⟨t⟩

end Roffdown
