import Roffdown.Proofs.Places

/-!
# Places by bytes

A place in a text can also be kept as a number of bytes.  Then looking around slices the text at
that byte, which must not be inside of a character, and moving adds the bytes of what is moved over.
A place between two characters does the same without slicing: it stands for the cursor with its
text and its bytes, and each operation of the one is the operation of the other.

* `Cursor`: a text and a byte of it, and what can be asked and done there.
* `Text.cut?_isSome_iff`, `Text.encode_of_cut?`: a slice by bytes.
* `Zipper.cursor`: the cursor of a place.
* `Zipper.Performs.perform_cursor`: an operation at a place is the operation of its cursor.
* `Cursor.Sees`: all that can be asked of a cursor is answered by its place.
* `Cursor.exists_place`: after any operations a cursor is that of a place.
-/

namespace Roffdown

open Text Utf8

/-! ## Slices -/

/-- A text can be cut at the bytes where a character begins or the text ends. -/
theorem Text.cut?_isSome_iff {n : Nat} {t : Text} :
    (cut? n t).isSome ↔ IsBoundary (encode t) n := by
  rw [isBoundary_encode_iff, Option.isSome_iff_exists]
  constructor
  · rintro ⟨⟨a, b⟩, h⟩
    exact ⟨a, b, cut?_eq_some_iff.1 h⟩
  · rintro ⟨a, b, h⟩
    exact ⟨(a, b), cut?_eq_some_iff.2 h⟩

/-- What is cut off are the bytes up to there, and what is left are those from there on. -/
theorem Text.encode_of_cut? {n : Nat} {t a b : Text} (h : cut? n t = some (a, b)) :
    encode a = (encode t).take n ∧ encode b = (encode t).drop n := by
  obtain ⟨rfl, rfl⟩ := cut?_eq_some_iff.1 h
  rw [encode_append, ← length_encode, List.take_left, List.drop_left]
  exact ⟨rfl, rfl⟩

/-- The number of bytes before the first character of a class. -/
def Text.findIf? (p : Char → Bool) : Text → Option Nat
  | [] => none
  | c :: t => if p c then some 0 else (findIf? p t).map (c.utf8Size + ·)

theorem Text.findIf?_not (p : Char → Bool) (t : Text) :
    (findIf? (fun c => !p c) t).getD (utf8Length t) = utf8Length (t.takeWhile p) := by
  induction t with
  | nil => rfl
  | cons c t ih =>
    cases hc : p c with
    | false => simp [findIf?, hc]
    | true =>
      rw [findIf?, hc, List.takeWhile_cons_of_pos hc, utf8Length_cons, utf8Length_cons, ← ih]
      cases findIf? (fun c => !p c) t <;> rfl

/-- The number of bytes before the last place of a character. -/
def Text.findLast? (c : Char) (t : Text) : Option Nat :=
  (splitAtFirst c t.reverse).map fun p => utf8Length p.2

/-- A text cut where its last line begins: after the last newline, or at the beginning. -/
theorem Text.exists_cut?_of_findLast? (t : Text) :
    ∃ above, cut? (((findLast? '\n' t).map (· + 1)).getD 0) t =
      some (above, (t.reverse.takeWhile (· != '\n')).reverse) := by
  cases hs : splitAtFirst '\n' t.reverse with
  | none =>
    have hline : firstLine t.reverse = t.reverse :=
      firstLine_of_newline_not_mem (splitAtFirst_eq_none_iff.1 hs)
    rw [findLast?, hs, show t.reverse.takeWhile _ = t.reverse from hline, List.reverse_reverse]
    exact ⟨[], cut?_eq_some_iff.2 ⟨rfl, rfl⟩⟩
  | some p =>
    obtain ⟨line, above⟩ := p
    obtain ⟨ht, hline⟩ := splitAtFirst_eq_some_iff.1 hs
    have hlast : t.reverse.takeWhile (· != '\n') = line := by
      rw [ht]
      exact firstLine_append hline above
    have hparts : t = (above.reverse ++ ['\n']) ++ line.reverse := by
      rw [← List.reverse_reverse t, ht]
      simp
    refine ⟨above.reverse ++ ['\n'], cut?_eq_some_iff.2 ⟨by rwa [hlast], ?_⟩⟩
    rw [findLast?, hs, utf8Length_append, utf8Length_reverse]
    rfl

/-! ## Cursors -/

/-- A text and a number of its bytes. -/
structure Cursor where
  source : Text
  position : Nat

namespace Cursor

/-- The beginning of a text. -/
def start (t : Text) : Cursor := ⟨t, 0⟩

/-- Goes to a byte. -/
def reset (n : Nat) (c : Cursor) : Cursor := { c with position := n }

/-- Counts the bytes of a text on. -/
def movedOver (t : Text) (c : Cursor) : Cursor := c.reset (c.position + utf8Length t)

/-! ### Looking around -/

/-- Whether the position is the end or behind it. -/
def atEnd (c : Cursor) : Bool := utf8Length c.source ≤ c.position

/-- The text after the position. -/
def rest? (c : Cursor) : Option Text := (cut? c.position c.source).map Prod.snd

/-- The `n`-th character after the position. -/
def peek? (n : Nat) (c : Cursor) : Option (Option Char) := c.rest?.map fun rest => rest[n]?

/-- The character before the position. -/
def previous? (c : Cursor) : Option (Option Char) :=
  (cut? c.position c.source).map fun p => p.1.getLast?

/-- Whether the text after the position begins with a text. -/
def startsWith? (t : Text) (c : Cursor) : Option Bool := c.rest?.map t.isPrefixOf

/-- What is left of the line. -/
def lineRest? (c : Cursor) : Option Text := c.rest?.bind fun rest => (cutLine? rest).map Prod.fst

/-- The line below: what is after the newline, up to the next. -/
def nextLine? (c : Cursor) : Option (Option Text) := do
  let rest ← c.rest?
  match find? '\n' rest with
  | none => return none
  | some n =>
    let (_, next) ← cut? (n + 1) rest
    return some ((split '\n' next).headD next)

/-- The line and the column of a byte of the text. -/
def lineColumn? (n : Nat) (c : Cursor) : Option Position := do
  let (before, _) ← cut? n c.source
  let (_, line) ← cut? (((findLast? '\n' before).map (· + 1)).getD 0) before
  return ⟨before.count '\n' + 1, line.length + 1⟩

/-! ### Moving -/

/-- Moves over a character. -/
def bump? (c : Cursor) : Option (Option Char × Cursor) :=
  (c.peek? 0).map fun
    | none => (none, c)
    | some x => (some x, c.movedOver [x])

/-- Moves over a text, if it is there. -/
def eat? (t : Text) (c : Cursor) : Option (Bool × Cursor) :=
  (c.startsWith? t).map fun b => (b, if b then c.movedOver t else c)

/-- Moves over the characters of a class. -/
def eatWhile? (p : Char → Bool) (c : Cursor) : Option (Text × Cursor) := do
  let rest ← c.rest?
  let length := (findIf? (fun x => !p x) rest).getD (utf8Length rest)
  let (run, _) ← cut? length rest
  return (run, c.reset (c.position + length))

/-- Moves over what is left of the line, and over its newline if it has one. -/
def takeLine? (c : Cursor) : Option (Text × Cursor) := do
  let line ← c.lineRest?
  let (_, below) ← (c.movedOver line).eat? ['\n']
  return (line, below)

/-- Performs an operation: what it finds, if it does not fail, and the cursor after it. -/
def perform (c : Cursor) : Zipper.Operation → Option (Option Text × Cursor)
  | .seek n => some (some [], c.reset n)
  | .next => c.bump?.map fun r => (r.1.map fun x => [x], r.2)
  | .skip t => (c.eat? t).map fun r => (if r.1 then some t else none, r.2)
  | .span p => (c.eatWhile? p).map fun r => (some r.1, r.2)
  | .line => c.takeLine?.map fun r => (some r.1, r.2)

/-- The cursor after operations. -/
def performAll (c : Cursor) : List Zipper.Operation → Option Cursor
  | [] => some c
  | o :: os => (c.perform o).bind fun r => r.2.performAll os

end Cursor

/-! ## The cursor of a place -/

namespace Zipper

variable {z w : Zipper} {s : Text}

/-- A place by its bytes. -/
def cursor (z : Zipper) : Cursor := ⟨z.source, z.offset⟩

theorem cut?_cursor (z : Zipper) :
    cut? z.cursor.position z.cursor.source = some (z.before.reverse, z.rest) :=
  cut?_eq_some_iff.2 ⟨rfl, utf8Length_reverse z.before⟩

theorem rest?_cursor (z : Zipper) : z.cursor.rest? = some z.rest := by
  rw [Cursor.rest?, cut?_cursor, Option.map_some]

theorem peek?_cursor (n : Nat) (z : Zipper) : z.cursor.peek? n = some (z.nth? n) := by
  rw [Cursor.peek?, rest?_cursor, Option.map_some, nth?]

theorem startsWith?_cursor (t : Text) (z : Zipper) :
    z.cursor.startsWith? t = some (z.startsWith t) := by
  rw [Cursor.startsWith?, rest?_cursor, Option.map_some, startsWith]

theorem lineRest?_cursor (z : Zipper) : z.cursor.lineRest? = some z.restOfLine := by
  rw [Cursor.lineRest?, rest?_cursor, Option.bind_some, cutLine?_eq, Option.map_some, restOfLine]

theorem eatWhile?_cursor (p : Char → Bool) (z : Zipper) :
    z.cursor.eatWhile? p = some (z.rest.takeWhile p, z.cursor.movedOver (z.rest.takeWhile p)) := by
  have hcut := cut?_append (z.rest.takeWhile p) (z.rest.dropWhile p)
  rw [List.takeWhile_append_dropWhile] at hcut
  simp only [Cursor.eatWhile?, rest?_cursor, Option.bind_eq_bind, Option.bind_some, findIf?_not,
    hcut]
  rfl

/-- Moving over a text adds its bytes. -/
theorem MovesOver.cursor_eq (h : MovesOver s z w) : w.cursor = z.cursor.movedOver s := by
  rw [cursor, h.source, h.offset]
  rfl

theorem eat?_cursor_of_movesOver (h : MovesOver s z w) :
    z.cursor.eat? s = some (true, w.cursor) := by
  have hs : z.startsWith s = true := List.isPrefixOf_iff_prefix.2 h.isPrefix
  rw [Cursor.eat?, startsWith?_cursor, hs, h.cursor_eq]
  rfl

theorem eat?_cursor_of_not_isPrefix (h : ¬ s <+: z.rest) :
    z.cursor.eat? s = some (false, z.cursor) := by
  have hs : z.startsWith s = false :=
    Bool.eq_false_iff.2 fun hp => h (List.isPrefixOf_iff_prefix.1 hp)
  rw [Cursor.eat?, startsWith?_cursor, hs]
  rfl

/-- A text that is moved over in two parts. -/
theorem MovesOver.split {t : Text} (h : MovesOver (s ++ t) z w) :
    ∃ x, MovesOver s z x ∧ MovesOver t x w := by
  have hr : z.rest = s ++ (t ++ w.rest) := by rw [h.rest, List.append_assoc]
  have hx := movesOver_of_isPrefix (z := z) ⟨_, hr.symm⟩
  refine ⟨_, hx, h.source.trans hx.source.symm, ?_, ?_⟩
  · exact List.append_cancel_left (hx.rest.symm.trans hr)
  · rw [h.offset, hx.offset, utf8Length_append, Nat.add_assoc]

/-- **What is done at a place is done by its cursor**, which finds the same and moves as far. -/
theorem Performs.perform_cursor {o : Operation} {r : Option Text} (h : z.Performs o r w) :
    z.cursor.perform o = some (r, w.cursor) := by
  have hplace := h.perform_eq
  cases h with
  | seek h => rw [Cursor.perform, Cursor.reset, cursor, cursor, h]
  | next h =>
    rw [Cursor.perform, Cursor.bump?, peek?_cursor, nth?, h.rest, h.cursor_eq]
    rfl
  | nextAtEnd h =>
    rw [Cursor.perform, Cursor.bump?, peek?_cursor, nth?, h]
    rfl
  | skip h =>
    rw [Cursor.perform, eat?_cursor_of_movesOver h]
    rfl
  | skipOther h =>
    rw [Cursor.perform, eat?_cursor_of_not_isPrefix h]
    rfl
  | @span p run _ h =>
    obtain ⟨hrun, -⟩ := Prod.mk.inj (Option.some.inj hplace)
    rw [Cursor.perform, eatWhile?_cursor, show z.rest.takeWhile p = run from Option.some.inj hrun,
      h.cursor_eq]
    rfl
  | @line line _ h =>
    obtain ⟨hline, -⟩ := Prod.mk.inj (Option.some.inj hplace)
    obtain ⟨x, hx, hnewline⟩ := h.split
    simp only [Cursor.perform, Cursor.takeLine?, lineRest?_cursor, Option.bind_eq_bind,
      Option.bind_some, show z.restOfLine = line from Option.some.inj hline, ← hx.cursor_eq,
      eat?_cursor_of_movesOver hnewline]
    rfl
  | @lastLine line _ h _ hend =>
    obtain ⟨hline, -⟩ := Prod.mk.inj (Option.some.inj hplace)
    have hnone : ¬ ['\n'] <+: w.rest := by
      rw [hend, List.prefix_nil]
      exact List.cons_ne_nil _ _
    simp only [Cursor.perform, Cursor.takeLine?, lineRest?_cursor, Option.bind_eq_bind,
      Option.bind_some, show z.restOfLine = line from Option.some.inj hline, ← h.cursor_eq,
      eat?_cursor_of_not_isPrefix hnone]
    rfl

/-! ## What a cursor sees -/

theorem nextLine?_cursor (z : Zipper) : z.cursor.nextLine? = some z.lineBelow? := by
  rw [Cursor.nextLine?, rest?_cursor, Option.bind_eq_bind, Option.bind_some, lineBelow?]
  cases hn : find? '\n' z.rest with
  | none =>
    rw [afterLine?_eq_none_iff.2 (find?_eq_none_iff.1 hn)]
    rfl
  | some n =>
    obtain ⟨line, below, hline, hcut, hbelow⟩ := exists_cut?_of_find? hn
    have hafter : afterLine? z.rest = some below := by
      obtain ⟨hrest, -⟩ := cut?_eq_some_iff.1 hcut
      rw [afterLine?, splitAtFirst_eq_some_iff.2 ⟨hrest, hline⟩, Option.map_some]
    have hhead : (split '\n' below).headD below = firstLine below := by
      rw [List.headD_eq_head?_getD, head?_split, Option.getD_some]
    simp only [show cut? (n + 1) z.rest = _ from hbelow, hafter, Option.bind_eq_bind,
      Option.bind_some, hhead]
    rfl

theorem lineColumn?_cursor (n : Nat) (z : Zipper) : z.cursor.lineColumn? n = z.positionAt? n := by
  have hcut : cut? n z.source = (z.seek? n).map fun w => (w.before.reverse, w.rest) := rfl
  rw [Cursor.lineColumn?, positionAt?, cursor, hcut]
  cases z.seek? n with
  | none => rfl
  | some w =>
    obtain ⟨above, habove⟩ := exists_cut?_of_findLast? w.before.reverse
    rw [List.reverse_reverse] at habove
    simp only [Option.map_some, Option.bind_eq_bind, Option.bind_some, habove, position,
      List.length_reverse, List.count_reverse]
    rfl

theorem atEnd_cursor (z : Zipper) : z.cursor.atEnd = z.atEnd := by
  rw [Cursor.atEnd, atEnd, Bool.eq_iff_iff, decide_eq_true_eq, List.isEmpty_iff,
    ← utf8Length_eq_zero]
  show utf8Length z.source ≤ z.offset ↔ _
  rw [utf8Length_source]
  omega

/-- After operations that are allowed the cursor is that of the place. -/
theorem performAll_cursor {os : List Operation} (h : ∀ o ∈ os, o.Allowed z.source) :
    ∃ w, z.performAll os = some w ∧ z.cursor.performAll os = some w.cursor ∧
      w.source = z.source := by
  induction os generalizing z with
  | nil => exact ⟨z, rfl, rfl, rfl⟩
  | cons o os ih =>
    obtain ⟨ho, hos⟩ := List.forall_mem_cons.1 h
    obtain ⟨r, x, hx, hp⟩ := exists_performs ho
    rw [← hp.source_eq] at hos
    obtain ⟨w, hw, hcursor, hs⟩ := ih hos
    refine ⟨w, ?_, ?_, hs.trans hp.source_eq⟩
    · rw [performAll, hx]
      exact hw
    · rw [Cursor.performAll, hp.perform_cursor]
      exact hcursor

end Zipper

/-- All that can be asked of a cursor is answered by a place. -/
structure Cursor.Sees (c : Cursor) (z : Zipper) : Prop where
  atEnd : c.atEnd = z.atEnd
  rest : c.rest? = some z.rest
  peek : ∀ n, c.peek? n = some (z.nth? n)
  previous : c.previous? = some z.previous?
  startsWith : ∀ t, c.startsWith? t = some (z.startsWith t)
  lineRest : c.lineRest? = some z.restOfLine
  nextLine : c.nextLine? = some z.lineBelow?
  lineColumn : ∀ n, c.lineColumn? n = z.positionAt? n

theorem Zipper.sees_cursor (z : Zipper) : z.cursor.Sees z where
  atEnd := atEnd_cursor z
  rest := rest?_cursor z
  peek n := peek?_cursor n z
  previous := by
    rw [Cursor.previous?, cut?_cursor, Option.map_some, List.getLast?_reverse, previous?]
  startsWith t := startsWith?_cursor t z
  lineRest := lineRest?_cursor z
  nextLine := nextLine?_cursor z
  lineColumn n := lineColumn?_cursor n z

/-- **A cursor by bytes is always that of a place**, after any operations that never go to a byte
inside of a character; it sees what the place sees, and does what is done there. -/
theorem Cursor.exists_place {t : Text} {os : List Zipper.Operation} (h : ∀ o ∈ os, o.Allowed t) :
    ∃ z, (Zipper.start t).performAll os = some z ∧ (start t).performAll os = some z.cursor ∧
      z.cursor.Sees z ∧ ∀ o, o.Allowed t →
        z.cursor.perform o = (z.perform o).map fun r => (r.1, r.2.cursor) := by
  obtain ⟨z, hz, hcursor, hs⟩ := Zipper.performAll_cursor (z := .start t) h
  refine ⟨z, hz, hcursor, z.sees_cursor, fun o ho => ?_⟩
  rw [← Zipper.source_start t, ← hs] at ho
  obtain ⟨r, w, hw, hp⟩ := Zipper.exists_performs ho
  rw [hp.perform_cursor, hw, Option.map_some]

end Roffdown
