import Roffdown.Markdown.Event
import Roffdown.Markdown.Piece
import Roffdown.Text.Blank

/-!
# What constructs look like

The shapes that reading recognises, each as a function of the text where it would begin.

* `isUnderline`: a line that underlines a section title.
* `marker?`: the marker of a list item.
* `linkBody?`: what follows the opening bracket of a link; `linkBody?_eq_some_iff` is its grammar.
* `hashLine`: the events of a line that starts with hashes.
-/

namespace Roffdown.Markdown

open Text

/-! ## Lines -/

/-- What opens and closes a fenced block. -/
def fence : Text := "```".toList

/-- Three or more of the same `=`, `-` or `*`, and blanks after them. -/
def isUnderline (line : Text) : Bool :=
  match trimEnd isBlank line with
  | [] => false
  | c :: t => (c == '=' || c == '-' || c == '*') && 2 ≤ t.length && t.all (· == c)

/-- The events of a line that starts with hashes: a box if it also ends with one, else a header. -/
def hashLine (line : Text) : List Event :=
  if line.getLast? = some '#' then
    let title := trim (fun c => c == '#' || isBlank c) line
    [.boxOpen, .lineBreak] ++ (if title.isEmpty then [] else [.text title]) ++
      [.lineBreak, .boxClose]
  else
    let hashes := line.takeWhile (· == '#')
    [.heading (.ofHashes hashes.length) (trim isBlank (line.drop hashes.length))]

/-! ## List items -/

/-- The marker of a list item. -/
structure Marker where
  style : ListStyle
  /-- The number that the marker shows; 1 for a bullet. -/
  number : Nat
  /-- Number of characters of the marker and the blanks after it. -/
  width : Nat
deriving DecidableEq, Repr

/-- The characters that mark an item of a list with bullets. -/
def isBullet (c : Char) : Bool := c == '*' || c == '+' || c == '-'

/-- The marker at the beginning of a text: a bullet with blanks after it, or digits and a point. -/
def marker? : Text → Option Marker
  | [] => none
  | c :: t =>
    if isBullet c then
      match t.takeWhile isIndent with
      | [] => none
      | blanks => some ⟨.bulleted, 1, 1 + blanks.length⟩
    else
      match (c :: t).takeWhile Char.isDigit, (c :: t).dropWhile Char.isDigit with
      | [], _ => none
      | digits, '.' :: after =>
        some ⟨.numbered, min (toNat 10 digits) OpenList.maxNumber,
          digits.length + 1 + (after.takeWhile isIndent).length⟩
      | _, _ => none

/-- How far blanks indent a marker: a tab counts for four. -/
def indentWidth : Text → Nat
  | [] => 0
  | c :: blanks => (if c = '\t' then 4 else 1) + indentWidth blanks

/-! ## Running text -/

/-- What a backslash before a character stands for. -/
def escaped : Char → Char
  | 'n' => '\n'
  | 'r' => '\r'
  | 't' => '\t'
  | 'f' => '\x0c'
  | 'b' => '\x08'
  | 'a' => '\x07'
  | 'e' => '\x1b'
  | c => c

/-- The characters after which emphasis may begin. -/
def isBoundary (c : Char) : Bool := "(\x7b[,.;`'\" \t\n".toList.contains c

/-- The mark that encloses inline code. -/
def codeMark : Char := '\x60'

/-- Inline code between its font marks; a backslash is written as roff's `\e`. -/
def codePieces (code : Text) : List Piece :=
  .mark .codeOn :: (code.flatMap fun c => if c = '\\' then ['\\', 'e'] else [c]).map .char ++
    [.mark .codeOff]

/-- Label and target of a link, from the text after its opening bracket.  Neither spans lines. -/
def linkBody? (t : Text) : Option (Text × Text) :=
  match splitAtFirst ']' t with
  | some (label, '(' :: after) =>
    match splitAtFirst ')' after with
    | some (target, _) =>
      if '\n' ∈ label ∨ '\n' ∈ target then none else some (label, target)
    | none => none
  | _ => none

theorem linkBody?_eq_some_iff {t label target : Text} :
    linkBody? t = some (label, target) ↔
      (∃ after, t = label ++ ']' :: '(' :: (target ++ ')' :: after)) ∧
        ']' ∉ label ∧ '\n' ∉ label ∧ ')' ∉ target ∧ '\n' ∉ target := by
  unfold linkBody?
  split
  · rename_i l after hs
    obtain ⟨rfl, hl⟩ := splitAtFirst_eq_some_iff.1 hs
    split
    · rename_i tg rest ht
      obtain ⟨rfl, htg⟩ := splitAtFirst_eq_some_iff.1 ht
      constructor
      · intro h
        split at h
        · simp at h
        · rename_i hn
          simp only [Option.some.injEq, Prod.mk.injEq] at h
          obtain ⟨rfl, rfl⟩ := h
          exact ⟨⟨rest, rfl⟩, hl, fun h => hn (.inl h), htg, fun h => hn (.inr h)⟩
      · rintro ⟨⟨r, he⟩, hl', hn, ht', hn'⟩
        have h1 := splitAtFirst_eq_some_iff.2 ⟨he, hl'⟩
        rw [hs] at h1
        simp only [Option.some.injEq, Prod.mk.injEq, List.cons.injEq, true_and] at h1
        obtain ⟨rfl, he2⟩ := h1
        have h2 := splitAtFirst_eq_some_iff.2 ⟨he2, ht'⟩
        rw [ht] at h2
        simp only [Option.some.injEq, Prod.mk.injEq] at h2
        obtain ⟨rfl, rfl⟩ := h2
        simp [hn, hn']
    · rename_i ht
      refine ⟨nofun, ?_⟩
      rintro ⟨⟨r, he⟩, hl', -, ht', -⟩
      have h1 := splitAtFirst_eq_some_iff.2 ⟨he, hl'⟩
      rw [hs] at h1
      simp only [Option.some.injEq, Prod.mk.injEq, List.cons.injEq, true_and] at h1
      rw [h1.2, splitAtFirst_eq_none_iff] at ht
      simp at ht
  · rename_i hs
    refine ⟨nofun, ?_⟩
    rintro ⟨⟨r, he⟩, hl', -⟩
    exact absurd (splitAtFirst_eq_some_iff.2 ⟨he, hl'⟩) (hs _ _)

/-- Number of characters of a link after its opening bracket. -/
def linkBodyWidth (label target : Text) : Nat := label.length + target.length + 3

/-- The event of a link. -/
def linkEvent (label target : Text) : Event :=
  if target = "man".toList then .manPage label else .link ⟨label, target⟩

end Roffdown.Markdown
