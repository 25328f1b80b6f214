import Roffdown.Decimal.Shortest
import Roffdown.Settings.Path
import Roffdown.Toml.Value

/-!
# Stores of settings

Settings are given one after the other, each under a path.  A store keeps what was given last.  A
table that is given is merged into what is there, entry by entry; all else takes its place.  What
lies on the way to a place becomes a table or an array, as the path needs it.

* `find_alter`: altering an entry changes no other entry.
* `child_update`: what a change below one name does to the entries of a table.
* `Content.child_assign_of_ne`: what is given under one name changes nothing under another.
* `Content.child_assign_text`: a text given under a name is found there.
-/

namespace Roffdown.Settings

open Text

/-- What a store holds at a place. -/
inductive Content
  /-- Nothing; such are the items of an array before the first that is given. -/
  | nothing
  /-- A single value, as its text. -/
  | text (t : Text)
  | array (items : List Content)
  | table (entries : List (Text × Content))

/-! ## Entries of a table -/

/-- What lies under a name. -/
def find (name : Text) (entries : List (Text × Content)) : Content :=
  (entries.lookup name).getD .nothing

/-- Changes what lies under a name; a new entry comes last. -/
def alter (name : Text) (f : Content → Content) :
    List (Text × Content) → List (Text × Content)
  | [] => [(name, f .nothing)]
  | (n, c) :: t => if n = name then (n, f c) :: t else (n, c) :: alter name f t

theorem find_alter (name other : Text) (f : Content → Content) (t : List (Text × Content)) :
    find other (alter name f t) = if other = name then f (find name t) else find other t := by
  induction t with
  | nil =>
    by_cases h : other = name
    · simp [alter, find, h]
    · simp [alter, find, h, List.lookup_cons, beq_false_of_ne h]
  | cons e t ih =>
    obtain ⟨n, c⟩ := e
    by_cases hn : n = name
    · subst hn
      by_cases h : other = n
      · simp [alter, find, h]
      · simp [alter, find, h, List.lookup_cons, beq_false_of_ne h]
    · by_cases h : other = n
      · subst h
        simp [alter, find, hn]
      · have hname : find name ((n, c) :: t) = find name t := by
          simp [find, List.lookup_cons, beq_false_of_ne (Ne.symm hn)]
        have hother : ∀ u, find other ((n, c) :: u) = find other u := fun u => by
          simp [find, List.lookup_cons, beq_false_of_ne h]
        rw [alter, if_neg hn, hother, hother, hname, ih]

namespace Content

/-- The entries of a table; nothing else has any. -/
def entries : Content → List (Text × Content)
  | table entries => entries
  | _ => []

/-- The items of an array; nothing else has any. -/
def items : Content → List Content
  | array items => items
  | _ => []

/-- What lies under a name. -/
def child (name : Text) (c : Content) : Content := find name c.entries

/-- The text of a single value. -/
def text? : Content → Option Text
  | text t => some t
  | _ => none

theorem text?_eq_some_iff {c : Content} {t : Text} : c.text? = some t ↔ c = .text t := by
  cases c <;> simp [text?]

/-! ## Giving -/

mutual

/-- What a place holds after something is given there. -/
def onto : Content → Content → Content
  | table given, nothing => ontoEntries given (table [])
  | table given, old => ontoEntries given old
  | given, _ => given

/-- What a place holds after the entries of a table are given there. -/
def ontoEntries : List (Text × Content) → Content → Content
  | [], old => old
  | e :: given, old => ontoEntries given (ontoEntry e old)

/-- What a place holds after an entry is given there. -/
def ontoEntry : Text × Content → Content → Content
  | (name, given), old => table (alter (folded name) (fun c => given.onto c) old.entries)

end

/-- Changes the item of a number; items before it come into being as nothing. -/
def alterItem (i : Int) (f : Content → Content) (items : List Content) : List Content :=
  let n := if i < 0 then (items.length + i).toNat else i.toNat
  (items ++ List.replicate (n + 1 - items.length) nothing).modify n f

/-- Changes what a path leads to. -/
def update : Path → (Content → Content) → Content → Content
  | [], f, c => f c
  | .name n :: path, f, c => table (alter n (update path f) c.entries)
  | .index i :: path, f, c => array (alterItem i (update path f) c.items)

/-- What a place holds after something is given by the last step of a path: an item is replaced,
an entry may be merged. -/
def settle (path : Path) (given : Content) : Content → Content :=
  match path.getLast? with
  | some (.index _) => fun _ => given
  | _ => given.onto

/-- Gives something under a path. -/
def assign (c : Content) (path : Path) (given : Content) : Content :=
  c.update path (settle path given)

/-! ## What giving does -/

theorem child_update (name other : Text) (path : Path) (f : Content → Content) (c : Content) :
    (c.update (.name name :: path) f).child other =
      if other = name then (c.child name).update path f else c.child other :=
  find_alter name other (update path f) c.entries

theorem child_assign_of_ne {name other : Text} (h : other ≠ name) (path : Path)
    (given c : Content) : (c.assign (.name name :: path) given).child other = c.child other := by
  rw [assign, child_update, if_neg h]

theorem child_assign_text (name : Text) (t : Text) (c : Content) :
    (c.assign [.name name] (text t)).child name = text t := by
  rw [assign, child_update, if_pos rfl]
  rfl

/-! ## Contents of documents -/

mutual

/-- What a value of a document gives. -/
def ofToml : Toml.Value → Content
  | .text t => text t
  | .dateTime t => text t
  | .integer n => text (ofInt n)
  | .real x => text x.text
  | .boolean b => text (if b then "true".toList else "false".toList)
  | .array _ items => array (ofTomlItems items)
  | .table _ entries => table (ofTomlEntries entries)

/-- What the items of an array give. -/
def ofTomlItems : List Toml.Value → List Content
  | [] => []
  | v :: items => ofToml v :: ofTomlItems items

/-- What the entries of a table give. -/
def ofTomlEntries : List (Text × Toml.Value) → List (Text × Content)
  | [] => []
  | e :: entries => ofTomlEntry e :: ofTomlEntries entries

/-- What one entry gives. -/
def ofTomlEntry : Text × Toml.Value → Text × Content
  | (name, v) => (name, ofToml v)

end

end Content

/-! ## Assignments -/

/-- Something that is given under a path. -/
structure Assignment where
  path : Path
  given : Content

/-- Gives things one after the other. -/
def assignAll (assignments : List Assignment) (c : Content) : Content :=
  assignments.foldl (fun c a => c.assign a.path a.given) c

@[simp] theorem assignAll_append (a b : List Assignment) (c : Content) :
    assignAll (a ++ b) c = assignAll b (assignAll a c) := by simp [assignAll]

/-- What a document gives.  The names at its top may be paths themselves. -/
def assignmentsOf (t : Toml.Table) : List Assignment :=
  t.map fun (name, v) => ⟨(path? name).getD [.name (folded name)], .ofToml v⟩

end Roffdown.Settings
