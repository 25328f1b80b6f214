import Roffdown.Files.Basic

/-!
# File trees

A directory and all that lies in it, held in memory.  Paths are resolved name by name from that
directory: every name but the last must be a directory, and a path that ends in a slash too.

* `Tree.insert`: adds a file or a directory, and the directories above it.
* `Tree.files`: what is found under each path.
-/

namespace Roffdown.Files

open Text

/-- The names of a path, between its slashes. -/
def names (path : Text) : List Text := split '/' path

/-- A directory and what lies in it, each under the names that lead to it. -/
structure Tree where
  entries : List (List Text × Node)
deriving Repr

namespace Tree

/-- An empty directory. -/
def empty : Tree := ⟨[]⟩

/-- What lies under names; no names lead to the directory itself. -/
def find? (tree : Tree) (path : List Text) : Option Node :=
  if path.isEmpty then some .directory else tree.entries.lookup path

/-- Adds what lies under names, and the directories above it. -/
def insert (path : List Text) (node : Node) (tree : Tree) : Tree :=
  ⟨(path, node) ::
    ((List.range path.length).map fun n => (path.take n, Node.directory)) ++ tree.entries⟩

/-- Where a path leads: to a place in the tree, given by names with the last one first, or out of
the directory. -/
inductive Place
  | inside (path : List Text)
  | outside
deriving DecidableEq, Repr

/-- Whether a place is a directory. -/
def isDirectory (tree : Tree) : Place → Bool
  | .outside => true
  | .inside path => tree.find? path.reverse = some .directory

/-- The place that a name leads to. -/
def walk (tree : Tree) (place : Place) (name : Text) : Except OsError Place :=
  if !tree.isDirectory place then .error .notADirectory
  else if name.isEmpty || name = ".".toList then .ok place
  else if name = "..".toList then
    match place with
    | .inside (_ :: path) => .ok (.inside path)
    | _ => .ok .outside
  else if 255 < utf8Length name then .error .nameTooLong
  else
    match place with
    | .outside => .error .notFound
    | .inside path =>
      match tree.find? (name :: path).reverse with
      | some _ => .ok (.inside (name :: path))
      | none => .error .notFound

/-- What is found under each path. -/
def files (tree : Tree) : Files := fun path =>
  if path.isEmpty then .error .notFound
  else if path.contains '\x00' then .error .nulInPath
  else if 4096 ≤ utf8Length path then .error .nameTooLong
  else
    let start := if path.head? = some '/' then .outside else .inside []
    match (names path).foldlM tree.walk start with
    | .error e => .error e
    | .ok .outside => .ok .directory
    | .ok (.inside path) =>
      match tree.find? path.reverse with
      | some node => .ok node
      | none => .error .notFound

end Tree

end Roffdown.Files
