import Roffdown.Toml.Syntax

/-!
# TOML documents

The table that a document describes.  A header says to which table the pairs after it belong.

* `Draft.add?`: what one header or pair does.
* `parse?`: the table of a document, if its text is well formed and names nothing twice.
-/

namespace Roffdown.Toml

/-- The part of a document that has been read. -/
structure Draft where
  /-- All entries so far. -/
  root : Table
  /-- The names of the table to which pairs belong. -/
  current : List Text

/-- Adds a header or a pair. -/
def Draft.add? (d : Draft) : Statement → Option Draft
  | .header path => do
    let name ← path.getLast?
    let root ← d.root.openHeader? path.dropLast name
    return ⟨root, path⟩
  | .element path => do
    let name ← path.getLast?
    let root ← d.root.openElement? path.dropLast name
    return ⟨root, path⟩
  | .pair path v => do
    let root ← Table.descend? false (fun _ t => t.insertPair? (path, v)) none d.current d.root
    return ⟨root, d.current⟩

/-- The table of a document. -/
def parse? (t : Text) : Option Table := do
  let statements ← statements? t
  let draft ← statements.foldlM Draft.add? ⟨[], []⟩
  return draft.root

end Roffdown.Toml
