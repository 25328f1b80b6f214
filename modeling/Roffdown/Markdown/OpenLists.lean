/-!
# Open lists

The lists that are open at a place of a document, innermost first.  At most `maxDepth` are open at
a time; this bound is part of the type.

* `opened?_eq_some_iff`, `lists_closed`: a list is opened inside the others, and the innermost is
  closed first.
* `opened?_eq_none_iff`: a list is refused only when `maxDepth` lists are open.
* `lists_countItem`: counting an item changes the innermost list alone.
-/

namespace Roffdown

/-- What the items of a list show. -/
inductive ListStyle
  | numbered
  | bulleted
deriving DecidableEq, Repr

/-- One open list. -/
structure OpenList where
  style : ListStyle
  /-- Number of the current item. -/
  number : Nat
  /-- Width of the blanks before the marker that opened the list. -/
  indent : Nat
deriving DecidableEq, Repr

namespace OpenList

/-- The largest number an item can have, the largest of 64 bits. -/
def maxNumber : Nat := 18446744073709551615

/-- Counts an item; lists with bullets keep their number. -/
def countItem (l : OpenList) : OpenList :=
  match l.style with
  | .numbered => { l with number := min (l.number + 1) maxNumber }
  | .bulleted => l

end OpenList

/-- How many lists can be open at a time. -/
def OpenLists.maxDepth : Nat := 32

/-- The open lists, at most `maxDepth` of them. -/
structure OpenLists where
  /-- The open lists, innermost first. -/
  lists : List OpenList
  length_le : lists.length ≤ OpenLists.maxDepth
deriving DecidableEq, Repr

namespace OpenLists

/-- No list is open. -/
def empty : OpenLists := ⟨[], Nat.zero_le _⟩

/-- How many lists are open. -/
def depth (s : OpenLists) : Nat := s.lists.length

/-- Whether no list is open. -/
def isEmpty (s : OpenLists) : Bool := s.lists.isEmpty

/-- Whether no further list can be opened. -/
def isFull (s : OpenLists) : Bool := maxDepth ≤ s.depth

/-- The innermost list. -/
def innermost? (s : OpenLists) : Option OpenList := s.lists.head?

/-- A list opened inside the others, if there is room for it. -/
def opened? (l : OpenList) (s : OpenLists) : Option OpenLists :=
  if h : s.lists.length < maxDepth then some ⟨l :: s.lists, h⟩ else none

/-- The innermost list closed. -/
def closed (s : OpenLists) : OpenLists :=
  ⟨s.lists.tail, by
    rw [List.length_tail]
    exact Nat.le_trans (Nat.sub_le _ _) s.length_le⟩

/-- The next item of the innermost list counted. -/
def countItem (s : OpenLists) : OpenLists :=
  ⟨s.lists.modifyHead OpenList.countItem, by
    rw [List.length_modifyHead]
    exact s.length_le⟩

/-- How many lists a marker at an indent closes: those indented further, but never the outermost. -/
def deeperThan (indent : Nat) (s : OpenLists) : Nat :=
  (s.lists.dropLast.takeWhile fun l => indent < l.indent).length

/-! ## The lists after each operation -/

@[ext] theorem ext {s t : OpenLists} (h : s.lists = t.lists) : s = t := by
  cases s
  cases t
  simp_all

@[simp] theorem lists_empty : empty.lists = [] := rfl

@[simp] theorem lists_closed (s : OpenLists) : s.closed.lists = s.lists.tail := rfl

@[simp] theorem lists_countItem (s : OpenLists) :
    s.countItem.lists = s.lists.modifyHead OpenList.countItem := rfl

theorem opened?_eq_some_iff {l : OpenList} {s t : OpenLists} :
    s.opened? l = some t ↔ t.lists = l :: s.lists := by
  unfold opened?
  split
  · rw [Option.some.injEq]
    exact ⟨fun h => h ▸ rfl, fun h => ext h.symm⟩
  · refine ⟨nofun, fun h => absurd t.length_le ?_⟩
    rw [h, List.length_cons]
    omega

theorem opened?_eq_none_iff {l : OpenList} {s : OpenLists} : s.opened? l = none ↔ s.isFull := by
  unfold opened? isFull depth
  split <;> simp <;> omega

theorem closed_of_opened? {l : OpenList} {s t : OpenLists} (h : s.opened? l = some t) :
    t.closed = s :=
  ext (by rw [lists_closed, opened?_eq_some_iff.1 h, List.tail_cons])

theorem depth_le (s : OpenLists) : s.depth ≤ maxDepth := s.length_le

end OpenLists

end Roffdown
