import Roffdown.Toml.DateTime
import Roffdown.Toml.Number

/-!
# The syntax of TOML

A document is a sequence of lines: headers, pairs of a key and a value, comments and empty lines.

* `key?`: a dotted key.
* `value?`: a value; arrays and tables inside each other are limited in depth.
* `statements?`: the headers and pairs of a document.
-/

namespace Roffdown.Toml

open Text

/-! ## Blanks and comments -/

/-- The text after a comment, if there is one. -/
def skipComment : Text → Text
  | '#' :: t => t.dropWhile isPlain
  | t => t

/-- The text after the end of a line, before which blanks and a comment may stand. -/
def endOfLine? (t : Text) : Option Text :=
  match skipComment (skipBlanks t) with
  | [] => some []
  | t => newline? t

/-- The text after blanks, newlines and comments; `comment` tells that a comment goes on. -/
def skipGaps (comment : Bool) : Text → Text
  | [] => []
  | c :: t =>
    if comment && isPlain c then skipGaps true t
    else if isIndent c || c == '\n' || (c == '\r' && t.head? == some '\n') then skipGaps false t
    else if c == '#' then skipGaps true t
    else c :: t

/-! ## Keys -/

/-- Characters of a key that is not quoted. -/
def isBare (c : Char) : Bool := c.isAlphanum || c == '_' || c == '-'

/-- One name of a key. -/
def name? (t : Text) : Option (Text × Text) :=
  match t with
  | [] => none
  | c :: rest =>
    if c = '"' then basic? rest
    else if c = apostrophe then literal? rest
    else
      match t.takeWhile isBare with
      | [] => none
      | name => some (name, t.drop name.length)

/-- A key of up to `limit` names, with points between them and blanks around them. -/
def key? (limit : Nat) (t : Text) : Option (List Text × Text) :=
  match limit with
  | 0 => none
  | n + 1 => do
    let (name, t) ← name? (skipBlanks t)
    match skipBlanks t with
    | '.' :: t =>
      let (names, t) ← key? n t
      return (name :: names, t)
    | t => return ([name], t)

/-- How many names a key can have, and how deep arrays and tables can be inside each other. -/
def limit : Nat := 79

/-! ## Values -/

/-- A value that holds no other values. -/
def scalar? (t : Text) : Option (Value × Text) :=
  match t with
  | 't' :: 'r' :: 'u' :: 'e' :: t => some (.boolean true, t)
  | 'f' :: 'a' :: 'l' :: 's' :: 'e' :: t => some (.boolean false, t)
  | t =>
    match text? t with
    | some (s, t) => some (.text s, t)
    | none =>
      match dateTime? t with
      | some (s, t) => some (.dateTime s, t)
      | none => number? t

/-- The items of an array, from after its bracket; `fuel` bounds their number. -/
def items? (item? : Text → Option (Value × Text)) (fuel : Nat) (t : Text) :
    Option (List Value × Text) :=
  match fuel with
  | 0 => none
  | n + 1 =>
    match skipGaps false t with
    | ']' :: t => some ([], t)
    | t => do
      let (v, t) ← item? t
      match skipGaps false t with
      | ']' :: t => return ([v], t)
      | ',' :: t =>
        let (vs, t) ← items? item? n t
        return (v :: vs, t)
      | _ => none

/-- A key, an equals sign and a value. -/
def pair? (item? : Text → Option (Value × Text)) (t : Text) :
    Option ((List Text × Value) × Text) := do
  let (path, t) ← key? limit t
  match t with
  | '=' :: t =>
    let (v, t) ← item? (skipBlanks t)
    return ((path, v), t)
  | _ => none

/-- The pairs of a table between braces, at least one; `fuel` bounds their number. -/
def pairs? (item? : Text → Option (Value × Text)) (fuel : Nat) (t : Text) :
    Option (List (List Text × Value) × Text) :=
  match fuel with
  | 0 => none
  | n + 1 => do
    let (p, t) ← pair? item? t
    match skipBlanks t with
    | '\x7d' :: t => return ([p], t)
    | ',' :: t =>
      let (ps, t) ← pairs? item? n t
      return (p :: ps, t)
    | _ => none

/-- Adds the value of a key, whose last name is the name of the entry. -/
def Table.insertPair? (t : Table) (p : List Text × Value) : Option Table :=
  match p.1.getLast? with
  | some name => t.insertAt? p.1.dropLast name p.2
  | none => none

/-- A value in which arrays and tables are at most `depth` deep inside each other. -/
def value? (depth : Nat) (t : Text) : Option (Value × Text) :=
  match depth, t with
  | _, [] => none
  | 0, c :: t => if c = '[' ∨ c = '\x7b' then none else scalar? (c :: t)
  | n + 1, c :: t =>
    if c = '[' then
      (items? (value? n) (t.length + 1) t).map fun (vs, t) => (.array false vs, t)
    else if c = '\x7b' then
      match skipBlanks t with
      | '\x7d' :: t => some (.table .inline [], t)
      | t => do
        let (ps, t) ← pairs? (value? n) (t.length + 1) t
        let entries ← ps.foldlM Table.insertPair? []
        return (.table .inline entries, t)
    else scalar? (c :: t)

/-! ## Documents -/

/-- A header or a pair. -/
inductive Statement
  /-- `[a.b]` -/
  | header (path : List Text)
  /-- `[[a.b]]` -/
  | element (path : List Text)
  | pair (path : List Text) (v : Value)
deriving Repr

/-- A header, from after its first bracket. -/
def header? (t : Text) : Option (Statement × Text) :=
  match t with
  | '[' :: t => do
    let (path, t) ← key? limit t
    match t with
    | ']' :: ']' :: t => return (.element path, t)
    | _ => none
  | t => do
    let (path, t) ← key? limit t
    match t with
    | ']' :: t => return (.header path, t)
    | _ => none

/-- A header or a pair, up to the end of its line. -/
def statement? (t : Text) : Option (Statement × Text) := do
  let (s, t) ←
    match t with
    | '[' :: t => header? t
    | t => (pair? (value? limit) t).map fun (p, t) => (.pair p.1 p.2, t)
  let t ← endOfLine? t
  return (s, t)

/-- The headers and pairs of a text; `fuel` bounds the number of its lines. -/
def statementsFrom? (fuel : Nat) (t : Text) : Option (List Statement) :=
  match fuel with
  | 0 => none
  | n + 1 =>
    match skipBlanks t with
    | [] => some []
    | c :: t =>
      if c = '#' ∨ c = '\n' ∨ c = '\r' then
        match endOfLine? (c :: t) with
        | some t => statementsFrom? n t
        | none => none
      else do
        let (s, t) ← statement? (c :: t)
        let rest ← statementsFrom? n t
        return s :: rest

/-- The headers and pairs of a document, before which a byte order mark may stand. -/
def statements? (t : Text) : Option (List Statement) :=
  let t := if t.head? = some '\ufeff' then t.tail else t
  statementsFrom? (t.length + 1) t

end Roffdown.Toml
