import Roffdown.Decimal.Binary64

/-!
# TOML values

A table is the list of its entries, in the order in which their names came up.  Tables and arrays
remember how they were written, because that decides what may still be added to them.

* `Table.insert?`: adds an entry whose name is new.
* `Table.insertAt?`: adds an entry under a dotted key.
* `Table.openHeader?`, `Table.openElement?`: what `[name]` and `[[name]]` do.
-/

namespace Roffdown.Toml

/-- How a table was written. -/
inductive TableForm
  /-- Between braces; nothing can be added. -/
  | inline
  /-- Under a header of its own. -/
  | header
  /-- Not written itself, but above a table that was. -/
  | implied
  /-- By dotted keys. -/
  | dotted
deriving DecidableEq, Repr

/-- A value. -/
inductive Value
  | text (t : Text)
  | integer (n : Int)
  | real (x : Decimal.Binary64)
  | boolean (b : Bool)
  /-- A date, a time or both, in normal form. -/
  | dateTime (t : Text)
  /-- An array; `ofTables` when its elements are tables under headers. -/
  | array (ofTables : Bool) (items : List Value)
  | table (form : TableForm) (entries : List (Text × Value))
deriving Repr

/-- The entries of a table. -/
abbrev Table := List (Text × Value)

namespace Table

/-- Replaces the value of a name, or adds one; fails when `f` does. -/
def alter? (name : Text) (f : Option Value → Option Value) : Table → Option Table
  | [] => (f none).map fun v => [(name, v)]
  | (n, v) :: t =>
    if n = name then (f (some v)).map fun w => (n, w) :: t
    else (alter? name f t).map fun t => (n, v) :: t

/-- Adds an entry whose name is new. -/
def insert? (name : Text) (v : Value) (t : Table) : Option Table :=
  alter? name (fun old => if old.isNone then some v else none) t

/-- Changes the table that names lead to, which is made when it is missing.  The form of that table
is passed on, unless no name leads to it.  Of an array of tables the last one is meant.  Dotted keys
do not lead through a table that has a header. -/
def descend? (dotted : Bool) (f : Option TableForm → Table → Option Table) :
    Option TableForm → List Text → Table → Option Table
  | form, [], t => f form t
  | _, name :: path, t =>
    alter? name (fun
      | none =>
        let form := if dotted then TableForm.dotted else .implied
        (descend? dotted f (some form) path []).map (Value.table form)
      | some (.table form entries) =>
        if form = .inline ∨ dotted ∧ form = .header then none
        else (descend? dotted f (some form) path entries).map (Value.table form)
      | some (.array true items) =>
        match items.getLast? with
        | some (.table form entries) =>
          (descend? dotted f (some form) path entries).map fun entries =>
            .array true (items.dropLast ++ [.table form entries])
        | _ => none
      | some _ => none) t

/-- Adds an entry under a dotted key: the names before the last one lead to tables that are written
by dotted keys too. -/
def insertAt? (path : List Text) (name : Text) (v : Value) (t : Table) : Option Table :=
  descend? true (fun form t => if form.all (· = .dotted) then insert? name v t else none) none
    path t

/-- Opens the table of a header.  It may be implied by headers before it, but not be written. -/
def openHeader? (path : List Text) (name : Text) (t : Table) : Option Table :=
  descend? false (fun _ t =>
    alter? name (fun
      | none => some (.table .header [])
      | some (.table .implied entries) => some (.table .header entries)
      | some _ => none) t) none path t

/-- Opens a further table of an array of tables. -/
def openElement? (path : List Text) (name : Text) (t : Table) : Option Table :=
  descend? false (fun _ t =>
    alter? name (fun
      | none => some (.array true [.table .header []])
      | some (.array true items) => some (.array true (items ++ [.table .header []]))
      | some _ => none) t) none path t

/-! ## What inserting does -/

theorem insert?_cons_self {name : Text} {v w : Value} {t : Table} :
    Table.insert? name v ((name, w) :: t) = none := by
  simp [insert?, alter?]

theorem insert?_cons_of_ne {name n : Text} {v w : Value} {t : Table} (h : n ≠ name) :
    Table.insert? name v ((n, w) :: t) = (Table.insert? name v t).map ((n, w) :: ·) := by
  simp [insert?, alter?, h]

theorem lookup_cons_self {name : Text} {w : Value} {t : Table} :
    List.lookup name ((name, w) :: t) = some w := by
  simp

theorem lookup_cons_of_ne {name n : Text} {w : Value} {t : Table} (h : n ≠ name) :
    List.lookup name ((n, w) :: t) = List.lookup name t := by
  rw [List.lookup_cons, beq_false_of_ne h.symm]

theorem lookup_insert? {name other : Text} {v : Value} {t u : Table}
    (h : t.insert? name v = some u) :
    u.lookup other = if other = name then some v else t.lookup other := by
  induction t generalizing u with
  | nil =>
    obtain rfl : [(name, v)] = u := by simpa [insert?, alter?] using h
    by_cases ho : other = name
    · rw [if_pos ho, ho, lookup_cons_self]
    · rw [if_neg ho, lookup_cons_of_ne (Ne.symm ho)]
  | cons e t ih =>
    obtain ⟨n, w⟩ := e
    by_cases hn : n = name
    · rw [hn, insert?_cons_self] at h
      contradiction
    · rw [insert?_cons_of_ne hn] at h
      obtain ⟨t', ht, rfl⟩ := Option.map_eq_some_iff.1 h
      by_cases hon : n = other
      · subst hon
        rw [lookup_cons_self, lookup_cons_self, if_neg hn]
      · rw [lookup_cons_of_ne hon, lookup_cons_of_ne hon, ih ht]

theorem insert?_eq_none_iff {name : Text} {v : Value} {t : Table} :
    t.insert? name v = none ↔ t.lookup name ≠ none := by
  induction t with
  | nil => simp [insert?, alter?]
  | cons e t ih =>
    obtain ⟨n, w⟩ := e
    by_cases hn : n = name
    · subst hn
      rw [insert?_cons_self, lookup_cons_self]
      simp
    · rw [insert?_cons_of_ne hn, lookup_cons_of_ne hn, Option.map_eq_none_iff, ih]

end Table

end Roffdown.Toml
