import Roffdown.Proofs.Bounds
import Roffdown.Proofs.CharacterBytes

/-!
# Moving through a text

A place moves forward over what it finds and goes back to where it has been.  Told in bytes, it is
always where a character of the text begins or the text ends, with the characters before it and
after it on its two sides; and a move goes over exactly the text that it tells.

* `Utf8.IsBoundary`, `Utf8.isBoundary_encode_iff`: the bytes where a text can be cut.
* `Zipper.perform`, `Zipper.performAll`: what can be done at a place.
* `Zipper.Performs`: what is done, told by the text that is moved over.
* `Zipper.exists_performs`, `Zipper.exists_performAll`: it can be done, once and again.
* `Zipper.linesLeft`, `Zipper.rest_eq_join_linesLeft`: lines are taken until the text ends.
* `Position.IsBefore`, `Zipper.offset_lt_iff`: lines and columns are ordered as bytes are.
* `Zipper.place_is_faithful`: all of it, after anything that was done.
-/

namespace Roffdown

open String Text Utf8

/-! ## Boundaries -/

/-- A byte where a character begins, or the end. -/
def Utf8.IsBoundary (bytes : List UInt8) (n : Nat) : Prop :=
  n ≤ bytes.length ∧ ∀ b ∈ bytes[n]?, ¬ Continues b

theorem Utf8.isBoundary_encode {a b : Text} : IsBoundary (encode (a ++ b)) (utf8Length a) := by
  rw [IsBoundary, length_encode, utf8Length_append]
  refine ⟨Nat.le_add_right _ _, fun x hx => ?_⟩
  rw [encode_append, ← length_encode, List.getElem?_append_right (Nat.le_refl _),
    Nat.sub_self] at hx
  cases b with
  | nil => exact absurd hx (Option.not_mem_none x)
  | cons c b =>
    obtain ⟨first, others, hc⟩ := List.exists_cons_of_ne_nil (utf8EncodeChar_ne_nil (c := c))
    rw [encode_cons, hc] at hx
    obtain rfl := Option.some.inj hx
    exact not_continues_head hc

/-- **A text can be cut where one of its characters begins**, or at its end. -/
theorem Utf8.isBoundary_encode_iff {t : Text} {n : Nat} :
    IsBoundary (encode t) n ↔ ∃ a b, t = a ++ b ∧ utf8Length a = n := by
  constructor
  · intro h
    induction t generalizing n with
    | nil => exact ⟨[], [], rfl, (Nat.le_zero.1 h.1).symm⟩
    | cons c t ih =>
      obtain ⟨first, others, hc⟩ := List.exists_cons_of_ne_nil (utf8EncodeChar_ne_nil (c := c))
      have hlen : others.length + 1 = c.utf8Size := by
        rw [← length_utf8EncodeChar, hc, List.length_cons]
      obtain ⟨hle, hn⟩ := h
      rw [encode_cons] at hle hn
      by_cases hlt : n < c.utf8Size
      · -- Inside of the first character there is no boundary.
        cases n with
        | zero => exact ⟨[], c :: t, rfl, rfl⟩
        | succ n =>
          have hb : others[n]? = some others[n] := List.getElem?_eq_getElem (by omega)
          rw [hc, List.cons_append, List.getElem?_cons_succ,
            List.getElem?_append_left (by omega), hb] at hn
          exact absurd (continues_of_mem_tail hc (List.getElem_mem _)) (hn _ rfl)
      · rw [Nat.not_lt, ← length_utf8EncodeChar] at hlt
        rw [List.getElem?_append_right hlt] at hn
        rw [List.length_append] at hle
        obtain ⟨a, b, rfl, ha⟩ := ih ⟨by omega, hn⟩
        refine ⟨c :: a, b, rfl, ?_⟩
        rw [utf8Length_cons, ha, ← length_utf8EncodeChar]
        omega
  · rintro ⟨a, b, rfl, rfl⟩
    exact isBoundary_encode

/-! ## Beginnings and ends -/

theorem Text.prefix_takeWhile {p : Char → Bool} {q t : Text} (h : q <+: t) (hq : ∀ c ∈ q, p c) :
    q <+: t.takeWhile p := by
  obtain ⟨r, rfl⟩ := h
  rw [List.takeWhile_append_of_pos hq]
  exact List.prefix_append _ _

/-- The newline that a text ends in, if it does. -/
def Text.finalNewline (t : Text) : Text := if t.getLast? = some '\n' then ['\n'] else []

theorem Text.finalNewline_of_not_mem {t : Text} (h : '\n' ∉ t) : finalNewline t = [] :=
  if_neg fun hl => h (List.mem_of_getLast? hl)

theorem Text.finalNewline_append (t : Text) {u : Text} (h : u ≠ []) :
    finalNewline (t ++ u) = finalNewline u := by
  obtain ⟨c, u, rfl⟩ := List.exists_cons_of_ne_nil h
  rw [finalNewline, List.getLast?_append, List.getLast?_cons, Option.some_or, ← List.getLast?_cons,
    finalNewline]

namespace Zipper

variable {z w : Zipper} {s : Text}

theorem isBoundary_offset (z : Zipper) : IsBoundary (encode z.source) z.offset := by
  rw [source, offset, ← utf8Length_reverse]
  exact isBoundary_encode

theorem exists_seek? {n : Nat} (h : IsBoundary (encode z.source) n) : ∃ w, z.seek? n = some w := by
  obtain ⟨a, b, hs, hn⟩ := isBoundary_encode_iff.1 h
  refine ⟨⟨a.reverse, b⟩, seek?_eq_some_iff.2 ⟨?_, ?_⟩⟩
  · rw [source, List.reverse_reverse, hs]
  · rw [offset, utf8Length_reverse, hn]

theorem eq_of_offset (hs : w.source = z.source) (ho : w.offset = z.offset) : w = z := by
  have hw := seek?_eq_some_iff.2 ⟨hs, ho⟩
  rw [seek?_eq_some_iff.2 ⟨rfl, rfl⟩] at hw
  exact (Option.some.inj hw).symm

/-! ## What is done at a place -/

/-- What can be done at a place of a text.  Looking around leaves the place where it is. -/
inductive Operation
  /-- Goes to a byte. -/
  | seek (n : Nat)
  /-- Moves over a character. -/
  | next
  /-- Moves over a text that the rest begins with. -/
  | skip (t : Text)
  /-- Moves over the characters of a class. -/
  | span (p : Char → Bool)
  /-- Moves over the rest of the line and its newline. -/
  | line

/-- The text that an operation finds, if it does not fail, and the place after it.  There is none
after going to a byte inside of a character. -/
def perform (z : Zipper) : Operation → Option (Option Text × Zipper)
  | .seek n => (z.seek? n).map fun w => (some [], w)
  | .next => some (z.next?.map fun c => [c], z.advance 1)
  | .skip t => some ((z.skip? t).elim (none, z) fun w => (some t, w))
  | .span p => some (some (z.span p).1, (z.span p).2)
  | .line => some (some z.splitLine.1, z.splitLine.2)

/-- The place after operations. -/
def performAll (z : Zipper) : List Operation → Option Zipper
  | [] => some z
  | o :: os => (z.perform o).bind fun r => r.2.performAll os

/-- The operations that can be performed on a text. -/
def Operation.Allowed (t : Text) : Operation → Prop
  | .seek n => IsBoundary (encode t) n
  | _ => True

/-- Moving over exactly a text. -/
structure MovesOver (s : Text) (z w : Zipper) : Prop where
  source : w.source = z.source
  rest : z.rest = s ++ w.rest
  offset : w.offset = z.offset + utf8Length s

/-- What an operation finds and where it leads, by the text that is moved over. -/
inductive Performs (z : Zipper) : Operation → Option Text → Zipper → Prop
  | seek {w : Zipper} (h : w.source = z.source) : Performs z (.seek w.offset) (some []) w
  | next {c : Char} {w : Zipper} (h : MovesOver [c] z w) : Performs z .next (some [c]) w
  | nextAtEnd (h : z.rest = []) : Performs z .next none z
  | skip {s : Text} {w : Zipper} (h : MovesOver s z w) : Performs z (.skip s) (some s) w
  | skipOther {s : Text} (h : ¬ s <+: z.rest) : Performs z (.skip s) none z
  | span {p : Char → Bool} {run : Text} {w : Zipper} (h : MovesOver run z w) (hp : ∀ c ∈ run, p c)
      (hlongest : ∀ q, q <+: z.rest → (∀ c ∈ q, p c) → q <+: run) :
      Performs z (.span p) (some run) w
  | line {line : Text} {w : Zipper} (h : MovesOver (line ++ ['\n']) z w) (hl : '\n' ∉ line) :
      Performs z .line (some line) w
  | lastLine {line : Text} {w : Zipper} (h : MovesOver line z w) (hl : '\n' ∉ line)
      (hend : w.rest = []) : Performs z .line (some line) w

theorem movesOver_advance (n : Nat) (z : Zipper) : MovesOver (z.rest.take n) z (z.advance n) :=
  ⟨source_advance n z, (List.take_append_drop n z.rest).symm, offset_advance n z⟩

theorem movesOver_of_isPrefix (h : s <+: z.rest) : MovesOver s z (z.advance s.length) := by
  have hm := movesOver_advance s.length z
  rwa [← List.prefix_iff_eq_take.1 h] at hm

theorem MovesOver.isPrefix (h : MovesOver s z w) : s <+: z.rest := ⟨w.rest, h.rest.symm⟩

/-- The text that is moved over tells the place after it. -/
theorem MovesOver.eq_advance (h : MovesOver s z w) : w = z.advance s.length :=
  have hm := movesOver_of_isPrefix h.isPrefix
  eq_of_offset (h.source.trans hm.source.symm) (h.offset.trans hm.offset.symm)

theorem advance_of_rest_nil (n : Nat) (h : z.rest = []) : z.advance n = z := by
  rw [← advance_min, h, List.length_nil, Nat.min_zero, advance_zero]

theorem performs_next (z : Zipper) : z.Performs .next (z.next?.map fun c => [c]) (z.advance 1) := by
  cases hr : z.rest with
  | nil =>
    rw [next?, hr, advance_of_rest_nil 1 hr]
    exact .nextAtEnd hr
  | cons c u =>
    rw [next?, hr]
    exact .next (movesOver_of_isPrefix (s := [c]) ⟨u, hr.symm⟩)

theorem performs_skip (s : Text) (z : Zipper) :
    let r := (z.skip? s).elim (none, z) fun w => (some s, w)
    z.Performs (.skip s) r.1 r.2 := by
  by_cases h : s <+: z.rest
  · rw [skip?, startsWith, if_pos (List.isPrefixOf_iff_prefix.2 h)]
    exact .skip (movesOver_of_isPrefix h)
  · rw [skip?, startsWith, if_neg (mt List.isPrefixOf_iff_prefix.1 h)]
    exact .skipOther h

theorem performs_span (p : Char → Bool) (z : Zipper) :
    z.Performs (.span p) (some (z.span p).1) (z.span p).2 :=
  .span (movesOver_of_isPrefix (List.takeWhile_prefix p))
    (List.all_eq_true.1 List.all_takeWhile) fun _ => prefix_takeWhile

theorem splitLine_of_newline_not_mem (h : '\n' ∉ z.rest) :
    z.splitLine = (z.rest, z.advance z.rest.length) := by
  rw [splitLine, restOfLine, firstLine_of_newline_not_mem h, ← advance_min,
    Nat.min_eq_right (Nat.le_succ _)]

theorem performs_line (z : Zipper) : z.Performs .line (some z.splitLine.1) z.splitLine.2 := by
  have hl := newline_not_mem_firstLine z.rest
  rcases eq_firstLine_or z.rest with h | ⟨u, h⟩
  · rw [← h] at hl
    rw [splitLine_of_newline_not_mem hl]
    refine .lastLine (movesOver_of_isPrefix List.prefix_rfl) hl ?_
    rw [rest_advance, List.drop_length]
  · rw [splitLine_of_rest_eq h hl]
    have hm := movesOver_of_isPrefix (z := z) (s := firstLine z.rest ++ ['\n'])
      ⟨u, by rw [List.append_assoc]; exact h.symm⟩
    rw [List.length_append] at hm
    exact .line hm hl

/-- **Every operation can be performed** where it is allowed, and does what is said of it. -/
theorem exists_performs {o : Operation} (h : o.Allowed z.source) :
    ∃ r w, z.perform o = some (r, w) ∧ z.Performs o r w := by
  cases o with
  | seek n =>
    obtain ⟨w, hw⟩ := exists_seek? h
    obtain ⟨hs, rfl⟩ := seek?_eq_some_iff.1 hw
    exact ⟨some [], w, by rw [perform, hw]; rfl, .seek hs⟩
  | next => exact ⟨_, _, rfl, performs_next z⟩
  | skip s => exact ⟨_, _, rfl, performs_skip s z⟩
  | span p => exact ⟨_, _, rfl, performs_span p z⟩
  | line => exact ⟨_, _, rfl, performs_line z⟩

/-- What is said of an operation tells what it finds and where it leads. -/
theorem Performs.perform_eq {o : Operation} {r : Option Text} (h : z.Performs o r w) :
    z.perform o = some (r, w) := by
  cases h with
  | seek h => rw [perform, seek?_eq_some_iff.2 ⟨h, rfl⟩, Option.map_some]
  | next h =>
    rw [perform, next?, h.rest, h.eq_advance]
    rfl
  | nextAtEnd h =>
    rw [perform, next?, h, advance_of_rest_nil 1 h]
    rfl
  | skip h =>
    rw [perform, skip?, startsWith, if_pos (List.isPrefixOf_iff_prefix.2 h.isPrefix), h.eq_advance]
    rfl
  | skipOther h =>
    rw [perform, skip?, startsWith, if_neg (mt List.isPrefixOf_iff_prefix.1 h)]
    rfl
  | @span p run _ h hp hlongest =>
    have hrun : z.rest.takeWhile p = run :=
      (hlongest _ (List.takeWhile_prefix p) (List.all_eq_true.1 List.all_takeWhile)).eq_of_length_le
        (prefix_takeWhile h.isPrefix hp).length_le
    rw [perform, Zipper.span, hrun, h.eq_advance]
  | line h hl =>
    have hr := h.rest
    rw [List.append_assoc] at hr
    rw [perform, splitLine_of_rest_eq hr hl, h.eq_advance, List.length_append]
    rfl
  | lastLine h hl hend =>
    have hr := h.rest
    rw [hend, List.append_nil] at hr
    subst hr
    rw [perform, splitLine_of_newline_not_mem hl, h.eq_advance]

theorem Performs.source_eq {o : Operation} {r : Option Text} (h : z.Performs o r w) :
    w.source = z.source := by
  cases h with
  | seek h => exact h
  | nextAtEnd | skipOther => rfl
  | next h | skip h | span h | line h | lastLine h => exact h.source

/-- After any operations the place is in the same text. -/
theorem exists_performAll {os : List Operation} (h : ∀ o ∈ os, o.Allowed z.source) :
    ∃ w, z.performAll os = some w ∧ w.source = z.source := by
  induction os generalizing z with
  | nil => exact ⟨z, rfl, rfl⟩
  | cons o os ih =>
    obtain ⟨ho, hos⟩ := List.forall_mem_cons.1 h
    obtain ⟨r, w, hw, hp⟩ := exists_performs ho
    have hs := hp.source_eq
    rw [← hs] at hos
    obtain ⟨x, hx, hxs⟩ := ih hos
    exact ⟨x, by rw [performAll, hw]; exact hx, hxs.trans hs⟩

/-! ## Line after line -/

/-- The lines that are taken one after the other until the text ends. -/
def linesLeft (z : Zipper) : List Text :=
  if _ : z.rest = [] then [] else z.splitLine.1 :: linesLeft z.splitLine.2
termination_by z.rest.length
decreasing_by exact length_rest_splitLine_lt ‹_›

theorem linesLeft_of_rest_nil (h : z.rest = []) : z.linesLeft = [] := by
  rw [linesLeft, dif_pos h]

theorem linesLeft_of_rest_ne_nil (h : z.rest ≠ []) :
    z.linesLeft = z.splitLine.1 :: z.splitLine.2.linesLeft := by
  rw [linesLeft, dif_neg h]

theorem linesLeft_eq_nil_iff : z.linesLeft = [] ↔ z.rest = [] := by
  by_cases h : z.rest = []
  · simp only [linesLeft_of_rest_nil h, h]
  · simp only [linesLeft_of_rest_ne_nil h, h, List.cons_ne_nil]

theorem newline_not_mem_linesLeft (z : Zipper) : ∀ line ∈ z.linesLeft, '\n' ∉ line := by
  induction z using linesLeft.induct with
  | case1 z h =>
    rw [linesLeft_of_rest_nil h]
    exact List.forall_mem_nil _
  | case2 z h ih =>
    rw [linesLeft_of_rest_ne_nil h]
    exact List.forall_mem_cons.2 ⟨newline_not_mem_firstLine z.rest, ih⟩

/-- **The lines make up what was left**, but for a newline at its end. -/
theorem rest_eq_join_linesLeft (z : Zipper) :
    z.rest = join '\n' z.linesLeft ++ finalNewline z.rest := by
  induction z using linesLeft.induct with
  | case1 z h =>
    rw [linesLeft_of_rest_nil h, h]
    rfl
  | case2 z h ih =>
    rw [linesLeft_of_rest_ne_nil h]
    have hline := performs_line z
    revert ih hline
    generalize z.splitLine.1 = line
    generalize z.splitLine.2 = w
    intro ih hline
    cases hline with
    | line hm hl =>
      rw [hm.rest, List.append_assoc, List.singleton_append,
        finalNewline_append _ (List.cons_ne_nil _ _)]
      by_cases hw : w.rest = []
      · rw [linesLeft_of_rest_nil hw, hw]
        rfl
      · obtain ⟨below, others, hlines⟩ := List.exists_cons_of_ne_nil (mt linesLeft_eq_nil_iff.1 hw)
        have hend : finalNewline ('\n' :: w.rest) = finalNewline w.rest :=
          finalNewline_append ['\n'] hw
        rw [hend, hlines, join_cons_cons, ← hlines, List.append_assoc, List.cons_append, ← ih]
    | lastLine hm hl hend =>
      rw [linesLeft_of_rest_nil hend, hm.rest, hend, List.append_nil, finalNewline_of_not_mem hl,
        List.append_nil]
      rfl

/-- Taking as many lines as there are leads to the end. -/
theorem performAll_line (z : Zipper) :
    ∃ w, z.performAll (List.replicate z.linesLeft.length .line) = some w ∧ w.rest = [] := by
  induction z using linesLeft.induct with
  | case1 z h =>
    rw [linesLeft_of_rest_nil h]
    exact ⟨z, rfl, h⟩
  | case2 z h ih =>
    rw [linesLeft_of_rest_ne_nil h]
    exact ih

/-- **The line below** is what is left of a line after this one is taken. -/
theorem lineBelow?_eq (z : Zipper) :
    z.lineBelow? = if '\n' ∈ z.rest then some z.splitLine.2.restOfLine else none := by
  rw [lineBelow?, restOfLine, rest_splitLine_eq]
  cases ha : afterLine? z.rest with
  | none => rw [if_neg (afterLine?_eq_none_iff.1 ha), Option.map_none]
  | some u =>
    have hn : '\n' ∈ z.rest := by
      refine Decidable.not_not.1 (mt afterLine?_eq_none_iff.2 ?_)
      rw [ha]
      exact Option.some_ne_none u
    rw [if_pos hn, Option.map_some, Option.getD_some]

end Zipper

/-! ## Lines and columns -/

/-- The order of reading: by lines, and in a line by columns. -/
def Position.IsBefore (p q : Position) : Prop :=
  p.line < q.line ∨ p.line = q.line ∧ p.column < q.column

theorem Position.IsBefore.asymm {p q : Position} (h : p.IsBefore q) : ¬ q.IsBefore p := by
  unfold IsBefore at *
  omega

theorem Position.IsBefore.ne {p q : Position} (h : p.IsBefore q) : p ≠ q := by
  rintro rfl
  exact h.asymm h

namespace Zipper

variable {z w : Zipper} {s : Text}

/-- The line and column at a byte of the text, if a character begins or the text ends there. -/
def positionAt? (z : Zipper) (n : Nat) : Option Position := (z.seek? n).map position

theorem MovesOver.before_eq (h : MovesOver s z w) : w.before = s.reverse ++ z.before := by
  obtain ⟨t, ht⟩ := h.isPrefix
  rw [h.eq_advance, before_advance, ← ht, List.take_left]

/-- **Moving on leads to a later place**: to a line below, or farther to the right in the line. -/
theorem MovesOver.isBefore (h : MovesOver s z w) (hs : s ≠ []) :
    z.position.IsBefore w.position := by
  simp only [Position.IsBefore, position, h.before_eq, List.count_append]
  by_cases hn : '\n' ∈ s.reverse
  · have := List.count_pos_iff.2 hn
    exact .inl (by omega)
  · have := List.length_pos_iff.2 hs
    rw [takeWhile_bne_append hn, List.count_eq_zero.2 hn, List.length_append, List.length_reverse]
    exact .inr ⟨by omega, by omega⟩

/-- A place that is later in the text is reached by moving on. -/
theorem exists_movesOver (hs : w.source = z.source) (ho : z.offset < w.offset) :
    ∃ s, s ≠ [] ∧ MovesOver s z w := by
  rw [source, source, List.append_eq_append_iff] at hs
  rw [offset, offset, ← utf8Length_reverse, ← utf8Length_reverse w.before] at ho
  -- One of the two parts before the places begins with the other, and is longer.
  rcases hs with ⟨s, hb, -⟩ | ⟨s, hb, hr⟩
  · rw [hb, utf8Length_append] at ho
    omega
  · rw [hb, utf8Length_append] at ho
    refine ⟨s, ?_, ?_, hr, ?_⟩
    · rintro rfl
      exact absurd ho (Nat.lt_irrefl _)
    · rw [source, source, hb, hr, List.append_assoc]
    · rw [offset, offset, ← utf8Length_reverse, hb, utf8Length_append, utf8Length_reverse]

theorem isBefore_of_offset_lt (hs : w.source = z.source) (ho : z.offset < w.offset) :
    z.position.IsBefore w.position := by
  obtain ⟨s, hne, hm⟩ := exists_movesOver hs ho
  exact hm.isBefore hne

/-- **Lines and columns are ordered as bytes are.** -/
theorem offset_lt_iff (hs : w.source = z.source) :
    z.offset < w.offset ↔ z.position.IsBefore w.position := by
  refine ⟨isBefore_of_offset_lt hs, fun h => ?_⟩
  rcases Nat.lt_trichotomy z.offset w.offset with ho | ho | ho
  · exact ho
  · exact absurd (congrArg position (eq_of_offset hs ho.symm)).symm h.ne
  · exact absurd (isBefore_of_offset_lt hs.symm ho) h.asymm

/-- **Two places have the same line and column only if they are the same.** -/
theorem offset_eq_iff (hs : w.source = z.source) :
    z.offset = w.offset ↔ z.position = w.position := by
  refine ⟨fun ho => by rw [eq_of_offset hs ho.symm], fun h => ?_⟩
  rcases Nat.lt_trichotomy z.offset w.offset with ho | ho | ho
  · exact absurd h (isBefore_of_offset_lt hs ho).ne
  · exact ho
  · exact absurd h.symm (isBefore_of_offset_lt hs.symm ho).ne

theorem exists_positionAt? {m n : Nat} (hm : IsBoundary (encode z.source) m)
    (hn : IsBoundary (encode z.source) n) :
    ∃ p q, z.positionAt? m = some p ∧ z.positionAt? n = some q ∧
      (m < n ↔ p.IsBefore q) ∧ (m = n ↔ p = q) := by
  obtain ⟨x, hx⟩ := exists_seek? hm
  obtain ⟨y, hy⟩ := exists_seek? hn
  refine ⟨x.position, y.position, by rw [positionAt?, hx]; rfl, by rw [positionAt?, hy]; rfl, ?_⟩
  obtain ⟨hxs, rfl⟩ := seek?_eq_some_iff.1 hx
  obtain ⟨hys, rfl⟩ := seek?_eq_some_iff.1 hy
  have hs := hys.trans hxs.symm
  exact ⟨offset_lt_iff hs, offset_eq_iff hs⟩

/-! ## Faithfulness -/

/-- A place between two parts of a text. -/
structure Splits (t above below : Text) (z : Zipper) : Prop where
  text : t = above ++ below
  bytes_above : encode above = (encode t).take z.offset
  bytes_below : encode below = (encode t).drop z.offset
  previous : z.previous? = above.getLast?
  next : z.next? = below.head?
  rest : z.rest = below

theorem splits (z : Zipper) : z.Splits z.source z.before.reverse z.rest where
  text := rfl
  bytes_above := by
    rw [source, encode_append, offset, ← utf8Length_reverse, ← length_encode, List.take_left]
  bytes_below := by
    rw [source, encode_append, offset, ← utf8Length_reverse, ← length_encode, List.drop_left]
  previous := by rw [previous?, List.getLast?_reverse]
  next := rfl
  rest := rfl

/-- What holds of a place in a text, and of what can be done there. -/
structure Faithful (t : Text) (z : Zipper) : Prop where
  boundary : IsBoundary (encode t) z.offset
  splits : ∃ above below, z.Splits t above below
  performs : ∀ o, o.Allowed t → ∃ r w, z.perform o = some (r, w) ∧ z.Performs o r w
  performs_only : ∀ {o r w}, z.Performs o r w → z.perform o = some (r, w)
  lines : z.rest = join '\n' z.linesLeft ++ finalNewline z.rest
  newline_not_mem : ∀ line ∈ z.linesLeft, '\n' ∉ line
  last : ∃ w, z.performAll (List.replicate z.linesLeft.length .line) = some w ∧ w.rest = []
  below : z.lineBelow? = if '\n' ∈ z.rest then some z.splitLine.2.restOfLine else none
  ordered : ∀ m n, IsBoundary (encode t) m → IsBoundary (encode t) n →
    ∃ p q, z.positionAt? m = some p ∧ z.positionAt? n = some q ∧
      (m < n ↔ p.IsBefore q) ∧ (m = n ↔ p = q)

theorem faithful (z : Zipper) : z.Faithful z.source where
  boundary := isBoundary_offset z
  splits := ⟨_, _, z.splits⟩
  performs _ := exists_performs
  performs_only := Performs.perform_eq
  lines := rest_eq_join_linesLeft z
  newline_not_mem := newline_not_mem_linesLeft z
  last := performAll_line z
  below := lineBelow?_eq z
  ordered _ _ := exists_positionAt?

/-- **A place is always faithful to its text**, after any operations, if it never goes to a byte
inside of a character. -/
theorem place_is_faithful {t : Text} {os : List Operation} (h : ∀ o ∈ os, o.Allowed t) :
    ∃ z, (start t).performAll os = some z ∧ z.Faithful t := by
  obtain ⟨z, hz, rfl⟩ := exists_performAll (z := start t) h
  exact ⟨z, hz, z.faithful⟩

/-- Back to the end of a line that has a byte more than it has characters. -/
theorem place_is_faithful_after_going_back :
    let t := "é\n- b".toList
    let os : List Operation := [.line, .skip "- ".toList, .seek 2]
    let z : Zipper := ⟨['é'], "\n- b".toList⟩
    (∀ o ∈ os, o.Allowed t) ∧ (start t).performAll os = some z ∧ z.Faithful t := by
  intro t os z
  have h : ∀ o ∈ os, o.Allowed t := by
    simp only [os, List.forall_mem_cons]
    exact ⟨trivial, trivial, isBoundary_encode (a := ['é']), List.forall_mem_nil _⟩
  have hz : (start t).performAll os = some z := by rfl
  obtain ⟨w, hw, hf⟩ := place_is_faithful h
  obtain rfl : z = w := Option.some.inj (hz.symm.trans hw)
  exact ⟨h, hz, hf⟩

end Zipper

end Roffdown
