import Roffdown.Proofs.Letters

/-!
# Bounds

A place in a text is kept between two characters, and running text in two parts, so nothing here
can be taken from the middle of a character.  Told in bytes, as offsets into one text, that is a
law: a place is found again from its offset, the mark where the last line of the running text
begins is one of its bounds, and each slice that a rule takes at some byte is the part in
characters with which reading goes on.

* `Zipper.seek?_eq_some_iff`: the place at an offset is the one with so many bytes before it.
* `Text.cut?`: a text cut at a byte, if a character ends there.
* `Draft.Next`: what a step does to the running text and its mark.
* `State.cut?_of_slices`: every slice that a step takes lies within bounds.
* `State.exists_advance_of_step`: every step moves forward.
* `Zipper.reading_in_bounds`: all of it along the reading of a document.
-/

namespace Roffdown

open Markdown Text

/-! ## Bytes -/

theorem Text.utf8Length_eq_zero {t : Text} : utf8Length t = 0 ↔ t = [] := by
  cases t with
  | nil => exact ⟨fun _ => rfl, fun _ => rfl⟩
  | cons c t =>
    have := c.utf8Size_pos
    rw [utf8Length_cons]
    exact ⟨fun h => by omega, nofun⟩

theorem Text.utf8Length_reverse (t : Text) : utf8Length t.reverse = utf8Length t := by
  induction t with
  | nil => rfl
  | cons c t ih => simp [ih, Nat.add_comm]

namespace Zipper

theorem forward?_zero_eq_some_iff {before : List Char} {rest : Text} {w : Zipper} :
    forward? before 0 rest = some w ↔
      ∃ a, rest = a ++ w.rest ∧ w.before = a.reverse ++ before ∧ utf8Length a = 0 := by
  rw [forward?, Option.some.injEq]
  constructor
  · rintro rfl
    exact ⟨[], rfl, rfl, rfl⟩
  · rintro ⟨a, rfl, hb, ha⟩
    obtain rfl := utf8Length_eq_zero.1 ha
    show (⟨before, w.rest⟩ : Zipper) = w
    rw [show before = w.before from hb.symm]

theorem forward?_eq_some_iff {before : List Char} {n : Nat} {rest : Text} {w : Zipper} :
    forward? before n rest = some w ↔
      ∃ a, rest = a ++ w.rest ∧ w.before = a.reverse ++ before ∧ utf8Length a = n := by
  induction rest generalizing before n with
  | nil =>
    cases n with
    | zero => exact forward?_zero_eq_some_iff
    | succ n =>
      constructor
      · nofun
      · rintro ⟨a, ha, -, hn⟩
        obtain ⟨rfl, -⟩ := List.append_eq_nil_iff.1 ha.symm
        cases hn
  | cons c rest ih =>
    cases n with
    | zero => exact forward?_zero_eq_some_iff
    | succ n =>
      have hc := c.utf8Size_pos
      rw [forward?]
      constructor
      · intro h
        split at h
        · obtain ⟨a, rfl, hb, hn⟩ := ih.1 h
          refine ⟨c :: a, rfl, by simp [hb], ?_⟩
          rw [utf8Length_cons]
          omega
        · cases h
      · rintro ⟨a, ha, hb, hn⟩
        cases a with
        | nil => cases hn
        | cons d a =>
          obtain ⟨rfl, hrest⟩ := List.cons.inj ha
          rw [utf8Length_cons] at hn
          rw [if_pos (by omega), ih]
          exact ⟨a, hrest, by simp [hb], by omega⟩

/-- **The place at a byte offset** is the one with so many bytes before it. -/
theorem seek?_eq_some_iff {z w : Zipper} {n : Nat} :
    z.seek? n = some w ↔ w.source = z.source ∧ w.offset = n := by
  rw [seek?, forward?_eq_some_iff]
  constructor
  · rintro ⟨a, ha, hb, rfl⟩
    simp only [List.append_nil] at hb
    rw [source, offset, hb, List.reverse_reverse, utf8Length_reverse]
    exact ⟨ha.symm, rfl⟩
  · rintro ⟨hs, rfl⟩
    exact ⟨w.before.reverse, hs.symm, by simp, utf8Length_reverse _⟩

theorem utf8Length_source (z : Zipper) : utf8Length z.source = z.offset + utf8Length z.rest := by
  rw [source, utf8Length_append, utf8Length_reverse, offset]

theorem advance_min (n : Nat) (z : Zipper) : z.advance (min n z.rest.length) = z.advance n := by
  rcases Nat.le_total n z.rest.length with h | h
  · rw [Nat.min_eq_left h]
  · rw [Nat.min_eq_right h, advance, advance, List.take_of_length_le h, List.drop_of_length_le h,
      List.take_length, List.drop_length]

/-- Moving over characters that are there moves over their bytes. -/
theorem offset_advance (n : Nat) (z : Zipper) :
    (z.advance n).offset = z.offset + utf8Length (z.rest.take n) := by
  rw [offset, before_advance, utf8Length_append, utf8Length_reverse, offset, Nat.add_comm]

end Zipper

/-- The parts of a text before and after so many bytes, if a character ends there. -/
def Text.cut? (n : Nat) (t : Text) : Option (Text × Text) :=
  ((Zipper.start t).seek? n).map fun z => (z.before.reverse, z.rest)

theorem Text.cut?_eq_some_iff {n : Nat} {t a b : Text} :
    cut? n t = some (a, b) ↔ t = a ++ b ∧ utf8Length a = n := by
  rw [cut?, Option.map_eq_some_iff]
  constructor
  · rintro ⟨z, hz, he⟩
    obtain ⟨rfl, rfl⟩ := Prod.mk.inj he
    obtain ⟨hs, rfl⟩ := Zipper.seek?_eq_some_iff.1 hz
    exact ⟨hs.symm, utf8Length_reverse _⟩
  · rintro ⟨rfl, rfl⟩
    refine ⟨⟨a.reverse, b⟩, Zipper.seek?_eq_some_iff.2 ⟨?_, utf8Length_reverse a⟩, ?_⟩
    · rw [Zipper.source, List.reverse_reverse, Zipper.source_start]
    · rw [List.reverse_reverse]

theorem Text.cut?_append (a b : Text) : cut? (utf8Length a) (a ++ b) = some (a, b) :=
  cut?_eq_some_iff.2 ⟨rfl, rfl⟩

/-- The number of bytes before the first place of a character. -/
def Text.find? (c : Char) (t : Text) : Option Nat :=
  (splitAtFirst c t).map fun p => utf8Length p.1

theorem Text.find?_eq_some_iff {c : Char} {t : Text} {n : Nat} :
    find? c t = some n ↔ ∃ a b, t = a ++ c :: b ∧ c ∉ a ∧ utf8Length a = n := by
  rw [find?, Option.map_eq_some_iff]
  constructor
  · rintro ⟨⟨a, b⟩, h, rfl⟩
    obtain ⟨rfl, hc⟩ := splitAtFirst_eq_some_iff.1 h
    exact ⟨a, b, rfl, hc, rfl⟩
  · rintro ⟨a, b, rfl, hc, rfl⟩
    exact ⟨(a, b), splitAtFirst_eq_some_iff.2 ⟨rfl, hc⟩, rfl⟩

theorem Text.find?_eq_none_iff {c : Char} {t : Text} : find? c t = none ↔ c ∉ t := by
  rw [find?, Option.map_eq_none_iff, splitAtFirst_eq_none_iff]

/-- The text is cut before a character that is found, and after it. -/
theorem Text.exists_cut?_of_find? {c : Char} {t : Text} {n : Nat} (h : find? c t = some n) :
    ∃ a b, c ∉ a ∧ cut? n t = some (a, c :: b) ∧ cut? (n + c.utf8Size) t = some (a ++ [c], b) := by
  obtain ⟨a, b, rfl, hc, rfl⟩ := find?_eq_some_iff.1 h
  refine ⟨a, b, hc, cut?_append a _, cut?_eq_some_iff.2 ⟨by simp, ?_⟩⟩
  rw [utf8Length_append]
  rfl

theorem Text.eq_firstLine_of_find? {t : Text} {n : Nat} (hn : find? '\n' t = some n) :
    ∃ u, t = firstLine t ++ '\n' :: u ∧ utf8Length (firstLine t) = n := by
  obtain ⟨line, u, rfl, hline, rfl⟩ := find?_eq_some_iff.1 hn
  rw [firstLine_append hline]
  exact ⟨u, rfl, rfl⟩

/-- A text cut where its first line ends: at the newline, or at the end when there is none. -/
def Text.cutLine? (t : Text) : Option (Text × Text) := cut? ((find? '\n' t).getD (utf8Length t)) t

theorem Text.cutLine?_eq (t : Text) :
    cutLine? t = some (firstLine t, t.drop (firstLine t).length) := by
  rw [cutLine?]
  cases hn : find? '\n' t with
  | none =>
    rw [firstLine_of_newline_not_mem (find?_eq_none_iff.1 hn), List.drop_length]
    exact cut?_eq_some_iff.2 ⟨(List.append_nil t).symm, rfl⟩
  | some n =>
    obtain ⟨u, hu, rfl⟩ := eq_firstLine_of_find? hn
    exact cut?_eq_some_iff.2 ⟨(List.prefix_iff_eq_append.1 ⟨_, hu.symm⟩).symm, rfl⟩

theorem Text.utf8Length_of_ascii {t : Text} (h : ∀ c ∈ t, c.utf8Size = 1) :
    utf8Length t = t.length := by
  induction t with
  | nil => rfl
  | cons c t ih =>
    obtain ⟨hc, ht⟩ := List.forall_mem_cons.1 h
    rw [utf8Length_cons, hc, ih ht, List.length_cons, Nat.add_comm]

theorem Text.cut?_take {n : Nat} {t : Text} (hn : n ≤ t.length)
    (h : ∀ c ∈ t.take n, c.utf8Size = 1) : cut? n t = some (t.take n, t.drop n) := by
  rw [cut?_eq_some_iff, utf8Length_of_ascii h, List.length_take]
  exact ⟨(List.take_append_drop n t).symm, Nat.min_eq_left hn⟩

/-! ## Running text -/

/-- Running text as one text, and how many of its bytes are before the current line. -/
structure Draft where
  text : Text
  mark : Nat

/-- What a step can do to the running text: add to it, end its line, or clear it. -/
inductive Draft.Next (d : Draft) : Draft → Prop
  | add (t : Text) : Next d ⟨d.text ++ t, d.mark⟩
  | endLine : Next d ⟨d.text ++ [' '], utf8Length (d.text ++ [' '])⟩
  | clear : Next d ⟨[], 0⟩

namespace State

/-- The running text that waits, as it is spelled. -/
def draft (mk : Markup) (s : State) : Draft :=
  ⟨expand mk s.buffer.all, utf8Length (expand mk s.buffer.held)⟩

variable {mk : Markup} {s t : State} {m : Move}

theorem next_draft_of_buffer_eq (h : t.buffer = s.buffer) : (s.draft mk).Next (t.draft mk) := by
  have hadd : (s.draft mk).Next ⟨(s.draft mk).text ++ [], (s.draft mk).mark⟩ := .add []
  rwa [List.append_nil, show (⟨(s.draft mk).text, (s.draft mk).mark⟩ : Draft) = t.draft mk by
    rw [draft, draft, h]] at hadd

theorem draft_of_empty (h : t.buffer = .empty) : t.draft mk = ⟨[], 0⟩ := by
  rw [draft, h]
  rfl

theorem draft_of_push {pieces : List Piece} (h : t.buffer = s.buffer.push pieces) :
    t.draft mk = ⟨(s.draft mk).text ++ expand mk pieces, (s.draft mk).mark⟩ := by
  simp [draft, h]

theorem draft_of_join (h : t.buffer = (s.buffer.push [.char ' ']).markLine) :
    t.draft mk = ⟨(s.draft mk).text ++ [' '], utf8Length ((s.draft mk).text ++ [' '])⟩ := by
  simp [draft, h, expand, Piece.expand]

theorem next_draft_of_empty (h : t.buffer = .empty) : (s.draft mk).Next (t.draft mk) := by
  rw [draft_of_empty h]
  exact .clear

theorem next_draft_of_push {pieces : List Piece} (h : t.buffer = s.buffer.push pieces) :
    (s.draft mk).Next (t.draft mk) := by
  rw [draft_of_push h]
  exact .add _

theorem next_draft_of_join (h : t.buffer = (s.buffer.push [.char ' ']).markLine) :
    (s.draft mk).Next (t.draft mk) := by
  rw [draft_of_join h]
  exact .endLine

theorem buffer_paragraphBreak (s : State) : s.paragraphBreak.next.buffer = .empty := by
  simp only [paragraphBreak, Move.next_andThen, next_release]
  split <;> rfl

theorem buffer_placeItem (marker : Marker) (indent : Nat) (s : State) :
    (s.release.andThen (placeItem marker indent)).next.buffer = .empty := by
  rw [Move.next_andThen, (onLists_placeItem _ _).next_eq, next_release]

theorem next_draft_of_blockRule (h : BlockRule s m) : (s.draft mk).Next (m.next.draft mk) := by
  apply next_draft_of_empty
  cases h with
  | paragraphBreak => exact buffer_paragraphBreak s
  | hashRule => simp [hashRule, next_release]
  | openFence => simp [openFence, next_release]
  | item => exact buffer_placeItem _ _ _

theorem next_draft_of_textRule (h : TextRule s m) : (s.draft mk).Next (m.next.draft mk) := by
  cases h with
  | underline => exact next_draft_of_empty (by simp [underlined, next_release])
  | join => exact next_draft_of_join rfl
  | push => exact next_draft_of_push rfl
  | link => exact next_draft_of_empty (by simp [next_release])

theorem next_draft_of_rule (h : Rule s m) : (s.draft mk).Next (m.next.draft mk) := by
  cases h with
  | fencedLine =>
    apply next_draft_of_buffer_eq
    simp only [fencedLine]
    split <;> rfl
  | backslash => exact next_draft_of_push rfl
  | block _ _ hm => exact next_draft_of_blockRule (s := s.midLine) hm
  | text _ hm => exact next_draft_of_textRule (s := s.midLine) hm

/-! ## Slices -/

/-- The slices that a step from a state takes: a text, the byte at which it is cut, and the two
parts into which reading takes it. -/
inductive Slices (mk : Markup) (s : State) : Text → Nat → Text → Text → Prop
  | line (k : Nat) {n : Nat} (hn : find? '\n' (s.input.advance k).rest = some n) :
      Slices mk s (s.input.advance k).rest n (s.input.advance k).restOfLine
        ((s.input.advance k).rest.drop (s.input.advance k).restOfLine.length)
  | below {n : Nat} {t : Text} (hn : find? '\n' s.input.rest = some n)
      (ht : afterLine? s.input.rest = some t) :
      Slices mk s s.input.rest (n + 1) (s.input.restOfLine ++ ['\n']) t
  | title : Slices mk s (s.draft mk).text (s.draft mk).mark (expand mk s.buffer.held)
      (expand mk s.buffer.line)
  | hashes : Slices mk s s.input.restOfLine (s.input.restOfLine.takeWhile (· == '#')).length
      (s.input.restOfLine.takeWhile (· == '#'))
      (s.input.restOfLine.drop (s.input.restOfLine.takeWhile (· == '#')).length)
  | fenceInfo (h : s.input.startsWith fence) : Slices mk s s.input.restOfLine (utf8Length fence)
      fence (s.input.restOfLine.drop fence.length)
  | delimiter {c : Char} {t : Text} {width : Nat} (hr : s.input.rest = c :: t)
      (hc : c = '*' ∨ c = '_') (hw : width = if t.head? = some c then 2 else 1) :
      Slices mk s s.input.rest width (s.input.rest.take width) (s.input.rest.drop width)
  | code {t code after : Text} {n : Nat} (hr : s.input.rest = codeMark :: t)
      (hs : splitAtFirst codeMark t = some (code, after)) (hn : find? codeMark t = some n) :
      Slices mk s t n code (codeMark :: after)
  | linkBody {lead t : Text} (hr : s.input.rest = lead ++ '[' :: t) :
      Slices mk s ('[' :: t) 1 ['['] t
  | label {lead t label after : Text} {n : Nat} (hr : s.input.rest = lead ++ '[' :: t)
      (hs : splitAtFirst ']' t = some (label, after)) (hn : find? ']' t = some n) :
      Slices mk s t n label (']' :: after)
  | afterLabel {lead t label after : Text} {n : Nat} (hr : s.input.rest = lead ++ '[' :: t)
      (hs : splitAtFirst ']' t = some (label, after)) (hn : find? ']' t = some n) :
      Slices mk s t (n + 1) (label ++ [']']) after
  | target {lead t label after target last : Text} {n : Nat} (hr : s.input.rest = lead ++ '[' :: t)
      (hl : splitAtFirst ']' t = some (label, '(' :: after))
      (hs : splitAtFirst ')' after = some (target, last)) (hn : find? ')' after = some n) :
      Slices mk s after n target (')' :: last)
  | linkSpan {lead t label after target last : Text} {close stop : Nat}
      (hr : s.input.rest = lead ++ '[' :: t) (hl : splitAtFirst ']' t = some (label, '(' :: after))
      (hs : splitAtFirst ')' after = some (target, last)) (hc : find? ']' t = some close)
      (hn : find? ')' after = some stop) : Slices mk s s.input.rest
        (utf8Length s.input.rest - utf8Length ('[' :: t) + 1 + (close + 2 + stop + 1))
        (s.input.rest.take (lead.length + 1 + linkBodyWidth label target)) last

theorem utf8Length_of_find? {c : Char} {t a b : Text} {n : Nat}
    (hs : splitAtFirst c t = some (a, b)) (hn : find? c t = some n) : utf8Length a = n := by
  rw [find?, hs] at hn
  exact Option.some.inj hn

theorem cut?_of_slices {u a b : Text} {n : Nat} (h : s.Slices mk u n a b) :
    cut? n u = some (a, b) := by
  cases h with
  | line k hn =>
    obtain ⟨u, hu, rfl⟩ := eq_firstLine_of_find? hn
    refine cut?_eq_some_iff.2 ⟨?_, rfl⟩
    exact (List.prefix_iff_eq_append.1 ⟨_, hu.symm⟩).symm
  | below hn ht =>
    obtain ⟨u, hu, rfl⟩ := eq_firstLine_of_find? hn
    obtain ⟨⟨line, v⟩, hs, rfl⟩ := Option.map_eq_some_iff.1 ht
    obtain ⟨hv, hline⟩ := splitAtFirst_eq_some_iff.1 hs
    rw [cut?_eq_some_iff, Zipper.restOfLine, hv, firstLine_append hline]
    refine ⟨by simp, ?_⟩
    rw [utf8Length_append]
    rfl
  | title => exact cut?_eq_some_iff.2 ⟨by simp [draft, Buffer.all_eq], rfl⟩
  | hashes =>
    have h := List.takeWhile_prefix (l := s.input.restOfLine) (· == '#')
    rw [cut?_eq_some_iff, utf8Length_of_ascii]
    · exact ⟨(List.prefix_iff_eq_append.1 h).symm, rfl⟩
    · intro c hc
      have := List.all_eq_true.1 List.all_takeWhile c hc
      rw [eq_of_beq this]
      rfl
  | fenceInfo h =>
    have h := List.isPrefixOf_iff_prefix.1 (Zipper.isPrefixOf_restOfLine (by decide) h)
    exact cut?_eq_some_iff.2 ⟨(List.prefix_iff_eq_append.1 h).symm, rfl⟩
  | @delimiter c t width hr hc hw =>
    have hsize : c.utf8Size = 1 := by
      rcases hc with rfl | rfl <;> rfl
    rw [hr]
    split at hw
    · rename_i ht
      obtain ⟨u, rfl⟩ := List.head?_eq_some_iff.1 ht
      subst hw
      refine cut?_take (by simp) ?_
      simp [hsize]
    · subst hw
      refine cut?_take (by simp) ?_
      simp [hsize]
  | code hr hs hn =>
    exact cut?_eq_some_iff.2 ⟨(splitAtFirst_eq_some_iff.1 hs).1, utf8Length_of_find? hs hn⟩
  | linkBody hr => exact cut?_eq_some_iff.2 ⟨rfl, rfl⟩
  | label hr hs hn =>
    exact cut?_eq_some_iff.2 ⟨(splitAtFirst_eq_some_iff.1 hs).1, utf8Length_of_find? hs hn⟩
  | afterLabel hr hs hn =>
    have hlabel := utf8Length_of_find? hs hn
    obtain ⟨rfl, -⟩ := splitAtFirst_eq_some_iff.1 hs
    refine cut?_eq_some_iff.2 ⟨by simp, ?_⟩
    rw [utf8Length_append, hlabel]
    rfl
  | target hr hl hs hn =>
    exact cut?_eq_some_iff.2 ⟨(splitAtFirst_eq_some_iff.1 hs).1, utf8Length_of_find? hs hn⟩
  | @linkSpan lead t label after target _ close stop hr hl hs hc hn =>
    have hlabel := utf8Length_of_find? hl hc
    have htarget := utf8Length_of_find? hs hn
    obtain ⟨hafter, -⟩ := splitAtFirst_eq_some_iff.1 hs
    obtain ⟨ht, -⟩ := splitAtFirst_eq_some_iff.1 hl
    have hspan : s.input.rest =
        (lead ++ '[' :: (label ++ ']' :: '(' :: (target ++ [')']))) ++ b := by
      rw [hr, ht, hafter]
      simp
    have hlength : (lead ++ '[' :: (label ++ ']' :: '(' :: (target ++ [')']))).length =
        lead.length + 1 + linkBodyWidth label target := by
      simp only [linkBodyWidth, List.length_append, List.length_cons, List.length_nil]
      omega
    rw [cut?_eq_some_iff, hr, utf8Length_append, Nat.add_sub_cancel, ← hr, ← hlength, hspan,
      List.take_left]
    refine ⟨rfl, ?_⟩
    have hsize : '['.utf8Size = 1 ∧ ']'.utf8Size = 1 ∧ '('.utf8Size = 1 ∧ ')'.utf8Size = 1 := by
      decide
    simp only [utf8Length_append, utf8Length_cons, utf8Length_nil, hlabel, htarget, hsize]
    omega

/-! ## Steps -/

/-- **A step moves forward** by some characters, which are there. -/
theorem exists_advance_of_step (hs : s.input.rest ≠ []) (h : s.step = .ok m) :
    ∃ k, 0 < k ∧ k ≤ s.input.rest.length ∧ m.next.input = s.input.advance k := by
  obtain ⟨n, hn⟩ := exists_advance_of_rule (rule_of_step hs h)
  have hlt := length_rest_step h hs
  rw [hn, Zipper.length_rest_advance] at hlt
  refine ⟨min n s.input.rest.length, by omega, Nat.min_le_right _ _, ?_⟩
  rw [hn, Zipper.advance_min]

theorem offset_lt_of_step (hs : s.input.rest ≠ []) (h : s.step = .ok m) :
    s.input.offset < m.next.input.offset := by
  obtain ⟨k, hk, hle, hn⟩ := exists_advance_of_step hs h
  have htake : utf8Length (s.input.rest.take k) ≠ 0 := by
    rw [Ne, utf8Length_eq_zero, List.take_eq_nil_iff]
    rintro (rfl | h)
    · omega
    · exact hs h
  rw [hn, Zipper.offset_advance]
  omega

/-! ## Readings -/

/-- What is within bounds where reading of a document stands. -/
structure InBounds (mk : Markup) (z : Zipper) (s : State) : Prop where
  /-- The place is found again from its bytes. -/
  place : z.seek? s.input.offset = some s.input
  offset_le : s.input.offset ≤ utf8Length z.source
  /-- Reading can come back to the place from any later one. -/
  back : ∀ n, (s.input.advance n).seek? s.input.offset = some s.input
  mark_le : (s.draft mk).mark ≤ utf8Length (s.draft mk).text
  mark : (cut? (s.draft mk).mark (s.draft mk).text).isSome
  slices : ∀ {t a b : Text} {n : Nat}, s.Slices mk t n a b → cut? n t = some (a, b)

theorem inBounds_of_source {z : Zipper} (h : s.input.source = z.source) : s.InBounds mk z where
  place := Zipper.seek?_eq_some_iff.2 ⟨h, rfl⟩
  offset_le := by
    rw [← h, Zipper.utf8Length_source]
    exact Nat.le_add_right _ _
  back n := Zipper.seek?_eq_some_iff.2 ⟨(Zipper.source_advance n s.input).symm, rfl⟩
  mark_le := by
    simp only [draft, Buffer.all_eq, expand_append, utf8Length_append]
    exact Nat.le_add_right _ _
  mark := by
    have hcut : cut? (s.draft mk).mark (s.draft mk).text = some _ := cut?_of_slices .title
    rw [hcut]
    rfl
  slices := cut?_of_slices

theorem Reads.inBounds {z : Zipper} (h : Reads (.initial z) m) : m.next.InBounds mk z := by
  obtain ⟨n, hn⟩ := h.exists_advance
  apply inBounds_of_source
  rw [hn, Zipper.source_advance]
  rfl

end State

open State (Reads)

/-- **Reading always ends, and stays within its bounds**, from any place in any text and for any
spelling of the font marks. -/
theorem Zipper.reading_in_bounds (mk : Markup) (z : Zipper) :
    ((∃ m, Reads (.initial z) m ∧ m.next.input.rest = [] ∧
        z.trace = ⟨m.raised ++ m.next.wrapUp.raised, m.warnings ++ m.next.wrapUp.warnings, none⟩) ∨
      ∃ m t, Reads (.initial z) m ∧ m.next.input.rest = codeMark :: t ∧ codeMark ∉ t ∧
        z.trace = ⟨m.raised, m.warnings, some ⟨m.next.input.position⟩⟩) ∧
    (∀ m, Reads (.initial z) m → m.next.InBounds mk z) ∧
    ∀ m n, Reads (.initial z) m → m.next.input.rest ≠ [] → m.next.step = .ok n →
      (∃ k, 0 < k ∧ k ≤ m.next.input.rest.length ∧ n.next.input = m.next.input.advance k) ∧
      m.next.input.offset < n.next.input.offset ∧ (m.next.draft mk).Next (n.next.draft mk) := by
  refine ⟨?_, fun m hm => hm.inBounds, ?_⟩
  · cases hf : z.trace.failure? with
    | none => exact .inl (exists_reads_of_success hf)
    | some e =>
      obtain ⟨m, hm, hne, herr, ht⟩ := exists_reads_of_failure hf
      obtain ⟨-, rfl, t, hrest, hmark⟩ := (State.step_eq_error_iff hne).1 herr
      exact .inr ⟨m, t, hm, hrest, hmark, ht⟩
  · intro m n _ hne hn
    refine ⟨State.exists_advance_of_step hne hn, State.offset_lt_of_step hne hn, ?_⟩
    exact State.next_draft_of_rule (State.rule_of_step hne hn)

/-- After a line that ends in a byte more than it has characters, a mark for bold. -/
theorem Zipper.reading_in_bounds_second_line :
    let z : Zipper := .start "é\n**b".toList
    ∃ m n, Reads (.initial z) m ∧ m.next.input.rest ≠ [] ∧ m.next.step = .ok n ∧
      m.next.input.offset = 3 ∧ (m.next.draft tagMarkup).mark = 3 ∧
      m.next.InBounds tagMarkup z ∧
      (∃ k, 0 < k ∧ k ≤ m.next.input.rest.length ∧ n.next.input = m.next.input.advance k) ∧
      m.next.input.offset < n.next.input.offset ∧
      (m.next.draft tagMarkup).Next (n.next.draft tagMarkup) := by
  intro z
  let first := (State.initial z).midLine.literal 'é'
  let second := first.next.lineEnd
  let m := first.andThen fun _ => second.andThen fun _ => .silent second.next
  have hm : Reads (.initial z) m := .step (by decide) rfl (.step (by decide) rfl (.stop _))
  have hne : m.next.input.rest ≠ [] := by decide
  have hn : m.next.step = .ok m.next.midLine.boldMark := rfl
  have h := reading_in_bounds tagMarkup z
  exact ⟨m, _, hm, hne, hn, by decide, by decide, h.2.1 m hm, h.2.2 m _ hm hne hn⟩

end Roffdown
