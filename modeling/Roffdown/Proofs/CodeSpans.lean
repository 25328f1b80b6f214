import Roffdown.Proofs.LastMark
import Roffdown.Proofs.Lookahead
import Roffdown.Proofs.Spelling

/-!
# Inline code in running text

Inline code is put into the running text that waits, between its font marks, and is raised with it.
Only then are blanks collapsed, those of the code as well.  So the code comes out as one piece
between its marks, and all of it but its blanks is as it was; whether the blanks are, the code alone
decides.

* `Settled`: code whose blanks are single spaces beside a letter or digit.
* `collapseAfter_eq_self_iff`: collapsing keeps these texts, and no others.
* `State.Carries`: states in which inline code waits, and `State.Carries.step`: it waits on, or is
  raised.
* `Zipper.inline_code_is_one_piece`: what becomes of every inline code that a reading meets.
-/

namespace Roffdown

open Markdown Text
open State (Reads)

/-! ## Blanks that are kept -/

/-- A text between two characters, whose blanks are single spaces with a letter or digit on at least
one side. -/
inductive Settled (q : Char) : Char → Text → Prop
  | nil (p : Char) : Settled q p []
  | char (p : Char) {c : Char} {t : Text} (hc : isBlank c = false) (h : Settled q c t) :
      Settled q p (c :: t)
  | space {p c : Char} {t : Text} (hw : isWordChar p || isWordChar c) (hc : isBlank c = false)
      (h : Settled q c t) : Settled q p (' ' :: c :: t)
  | last {p : Char} (hw : isWordChar p || isWordChar q) : Settled q p [' ']

theorem length_collapseAfter_le (p : Char) (blank : Bool) (t : Text) :
    (collapseAfter p blank t).length ≤ t.length + blank.toNat := by
  induction t generalizing p blank with
  | nil => exact Nat.zero_le _
  | cons c t ih =>
    rw [collapseAfter, List.length_cons]
    split
    · have := ih p true
      rw [Bool.toNat_true] at this
      omega
    · have hgap : (if blank then gap p c else []).length ≤ blank.toNat := by
        cases blank
        · exact Nat.le_refl 0
        · rw [if_pos rfl, gap]
          split
          · exact Nat.le_refl 1
          · exact Nat.zero_le 1
      have := ih c false
      rw [Bool.toNat_false] at this
      rw [List.length_append, List.length_cons]
      omega

section

variable {p q c d : Char} {t : Text}

theorem settled_cons_iff (hc : isBlank c = false) : Settled q p (c :: t) ↔ Settled q c t := by
  constructor
  · intro h
    cases h with
    | char _ _ h => exact h
    | space => cases hc
    | last => cases hc
  · exact .char p hc

theorem settled_singleton_iff (hc : isBlank c) :
    Settled q p [c] ↔ c = ' ' ∧ (isWordChar p || isWordChar q) := by
  constructor
  · intro h
    cases h with
    | char _ hn => rw [hc] at hn; cases hn
    | last hw => exact ⟨rfl, hw⟩
  · rintro ⟨rfl, hw⟩
    exact .last hw

theorem settled_cons_cons_iff (hc : isBlank c) : Settled q p (c :: d :: t) ↔
    c = ' ' ∧ (isWordChar p || isWordChar d) ∧ isBlank d = false ∧ Settled q d t := by
  constructor
  · intro h
    cases h with
    | char _ hn => rw [hc] at hn; cases hn
    | space hw hd h => exact ⟨rfl, hw, hd, h⟩
  · rintro ⟨rfl, hw, hd, h⟩
    exact .space hw hd h

end

section

variable {p c d : Char}

theorem collapseAfter_char_eq_self_iff (hc : isBlank c = false) (t : Text) :
    collapseAfter p false (c :: t) = c :: t ↔ collapseAfter c false t = t := by
  have hleft : collapseAfter p false (c :: t) = c :: collapseAfter c false t := by
    simp [collapseAfter, hc]
  rw [hleft, List.cons.injEq, and_iff_right rfl]

/-- Before another character a blank stays as it is when it is a space and a letter or digit stands
beside it. -/
theorem collapseAfter_blank_eq_self_iff (hc : isBlank c) (hd : isBlank d = false) (t : Text) :
    collapseAfter p false (c :: d :: t) = c :: d :: t ↔
      c = ' ' ∧ (isWordChar p || isWordChar d) ∧ collapseAfter d false t = t := by
  have hleft : collapseAfter p false (c :: d :: t) = gap p d ++ d :: collapseAfter d false t := by
    simp [collapseAfter, hc, hd]
  rw [hleft]
  by_cases hw : isWordChar p || isWordChar d
  · have hspace : ' ' = c ↔ c = ' ' := eq_comm
    rw [gap, if_pos hw, and_iff_right hw, ← hspace]
    simp
  · rw [gap, if_neg hw]
    constructor
    · intro h
      rw [(List.cons.inj h).1, hc] at hd
      cases hd
    · rintro ⟨-, hword, -⟩
      exact absurd hword hw

/-- Two blanks never stay two. -/
theorem collapseAfter_blanks_ne_self (hc : isBlank c) (hd : isBlank d) (t : Text) :
    collapseAfter p false (c :: d :: t) ≠ c :: d :: t := by
  intro h
  have hleft : collapseAfter p false (c :: d :: t) = collapseAfter p true t := by
    simp [collapseAfter, hc, hd]
  have hle := length_collapseAfter_le p true t
  rw [← hleft, h, List.length_cons, List.length_cons, Bool.toNat_true] at hle
  omega

end

/-- **Collapsing keeps a text between two characters just when its blanks are settled.** -/
theorem collapseAfter_eq_self_iff {q : Char} (hq : isBlank q = false) (p : Char) (t : Text) :
    collapseAfter p false (t ++ [q]) = t ++ [q] ↔ Settled q p t := by
  induction t generalizing p with
  | nil => simp [collapseAfter, hq, Settled.nil]
  | cons c t ih =>
    by_cases hc : isBlank c
    · cases t with
      | nil =>
        have hsingle := @collapseAfter_blank_eq_self_iff p c q hc hq []
        rw [settled_singleton_iff hc]
        exact hsingle.trans (and_congr_right fun _ => and_iff_left rfl)
      | cons d t =>
        rw [settled_cons_cons_iff hc]
        by_cases hd : isBlank d
        · refine iff_of_false (collapseAfter_blanks_ne_self hc hd _) fun h => ?_
          rw [hd] at h
          cases h.2.2.1
        · rw [Bool.not_eq_true] at hd
          have hrest : collapseAfter d false (t ++ [q]) = t ++ [q] ↔ Settled q d t :=
            (collapseAfter_char_eq_self_iff hd _).symm.trans ((ih p).trans (settled_cons_iff hd))
          rw [and_iff_right hd, ← hrest]
          exact collapseAfter_blank_eq_self_iff hc hd _
    · rw [Bool.not_eq_true] at hc
      rw [settled_cons_iff hc, ← ih c]
      exact collapseAfter_char_eq_self_iff hc _

theorem Settled.congr {p p' q q' : Char} {t : Text} (h : Settled q p t)
    (hp : isWordChar p' = isWordChar p) (hq : isWordChar q' = isWordChar q) : Settled q' p' t := by
  induction h generalizing p' with
  | nil => exact .nil p'
  | char p hc _ ih => exact .char p' hc (ih rfl)
  | space hw hc _ ih => exact .space (by rwa [hp]) hc (ih rfl)
  | last hw => exact .last (by rwa [hp, hq])

/-! ## Inline code between its marks -/

/-- Inline code as it is written: a backslash is spelled out. -/
def spelledCode (code : Text) : Text := code.flatMap fun c => if c = '\\' then ['\\', 'e'] else [c]

theorem expand_codePieces (mk : Markup) (code : Text) :
    expand mk (codePieces code) = mk .codeOn ++ spelledCode code ++ mk .codeOff := by
  have hcons (pieces : List Piece) :
      expand mk (.mark .codeOn :: pieces) = mk .codeOn ++ expand mk pieces := rfl
  have hlast : expand mk [.mark .codeOff] = mk .codeOff := List.append_nil _
  rw [codePieces, List.cons_append, hcons, expand_append, expand_chars, hlast, List.append_assoc]
  rfl

/-- The marks of code neither begin nor end with a blank, and have no blanks to collapse; where they
meet the code they have no letter or digit. -/
theorem Backend.exists_code_marks (b : Backend) : ∃ (on off : Text) (p q : Char),
    b.markup .codeOn = on ++ [p] ∧ b.markup .codeOff = q :: off ∧
      (isBlank p = false ∧ isWordChar p = false ∧ collapse (on ++ [p]) = on ++ [p]) ∧
      isBlank q = false ∧ isWordChar q = false ∧ collapse (q :: off) = q :: off := by
  cases b with
  | recorder => exact ⟨"<C".toList, "/C>".toList, '>', '<', by decide⟩
  | dialect d =>
    cases d with
    | mom => exact ⟨"\x60\\*[CODE".toList, "*[CODE OFF]'".toList, ']', '\\', by decide⟩
    | _ => exact ⟨"\x60\\f[CR".toList, "fP'".toList, ']', '\\', by decide⟩

/-- **Collapsed inline code stands between its marks**, with all its characters but the blanks, and
with its blanks just when they are settled. -/
theorem Backend.exists_collapse_code (b : Backend) (code : Text) : ∃ inner : Text,
    collapse (expand b.markup (codePieces code)) =
        b.markup .codeOn ++ inner ++ b.markup .codeOff ∧
      inner.filter (fun c => !isBlank c) = (spelledCode code).filter (fun c => !isBlank c) ∧
      (inner = spelledCode code ↔ Settled codeMark codeMark (spelledCode code)) := by
  obtain ⟨on, off, p, q, hon, hoff, ⟨hp, hpw, hcon⟩, hq, hqw, hcoff⟩ := b.exists_code_marks
  obtain ⟨inner, hinner⟩ := exists_collapseAfter_append hq p false (spelledCode code)
  have hfilter := filter_collapseAfter p false (spelledCode code ++ [q])
  rw [hinner, List.filter_append, List.filter_append] at hfilter
  have hself := collapseAfter_eq_self_iff hq p (spelledCode code)
  rw [hinner, List.append_left_inj] at hself
  refine ⟨inner, ?_, List.append_cancel_right hfilter, hself.trans ⟨?_, ?_⟩⟩
  · have hafter : collapseAfter q false off = off := by
      rw [collapse_cons_of_not_blank hq] at hcoff
      exact (List.cons.inj hcoff).2
    rw [expand_codePieces, hon, hoff]
    calc
      collapse (on ++ [p] ++ spelledCode code ++ q :: off)
        = collapse (on ++ p :: (spelledCode code ++ q :: off)) := by simp
      _ = on ++ [p] ++ (inner ++ [q] ++ off) := by
        rw [collapse_append_cons hp, hcon, collapseAfter_append_cons hq, hinner, hafter]
      _ = on ++ [p] ++ inner ++ q :: off := by simp
  · exact fun h => h.congr (by rw [hpw]; rfl) (by rw [hqw]; rfl)
  · exact fun h => h.congr (by rw [hpw]; rfl) (by rw [hqw]; rfl)

/-! ## Inline code that waits -/

/-- What inline code is raised in, that was put into running text after what waited there: the text
up to a place behind it, or the title that its line becomes. -/
inductive CodeCarrier (waiting : Buffer) (code : Text) : Signal → Prop
  | text (pieces : List Piece) :
      CodeCarrier waiting code (.text (waiting.all ++ codePieces code ++ pieces))
  | title (pieces : List Piece) :
      CodeCarrier waiting code (.title (waiting.line ++ codePieces code ++ pieces))

/-- A move raises the inline code, with no more than one text before it. -/
def Move.RaisesCode (waiting : Buffer) (code : Text) (m : Move) : Prop :=
  ∃ before r after, m.raised = before ++ r :: after ∧ before.length ≤ 1 ∧
    CodeCarrier waiting code r.item

namespace State

/-- The state before inline code that is closed. -/
structure AtCode (s : State) (code : Text) : Prop where
  inFence : s.inFence = false
  opened : ∃ after, s.input.rest = codeMark :: (code ++ codeMark :: after)
  closed : codeMark ∉ code
  noFence : s.freshLine = true → s.input.startsWith fence = false

/-- The state where inline code waits: it was put after what waited before, and since then the line
is another, or is still the same. -/
structure Carries (waiting : Buffer) (code : Text) (s : State) : Prop where
  inFence : s.inFence = false
  buffer : (∃ pieces, s.buffer.held = waiting.all ++ codePieces code ++ pieces) ∨
    s.buffer.held = waiting.held ∧
      ∃ pieces, s.buffer.line = waiting.line ++ codePieces code ++ pieces

variable {waiting : Buffer} {code : Text} {s : State} {m : Move}

theorem AtCode.step (h : s.AtCode code) : s.step = .ok (.silent { s.midLine.push (codePieces code)
    with input := s.input.advance (code.length + 2) }) := by
  obtain ⟨after, hr⟩ := h.opened
  have hinline := inlineCode_of_mark (s := s.midLine) hr h.closed
  have hback : s.input.next? ≠ some '\\' := by
    rw [Zipper.next?, hr]
    intro hmark
    cases hmark
  rw [step_eq, if_neg (by rw [h.inFence]; exact Bool.false_ne_true), if_neg hback]
  split
  · rename_i hl
    exact (lineRule_of_codeMark (s := s.midLine) hr (h.noFence hl)).trans hinline
  · rename_i hl
    rw [← midLine_eq_self (Bool.eq_false_iff.2 hl)]
    exact (textRule_of_codeMark (s := s.midLine) hr).trans hinline

theorem AtCode.carries (h : s.AtCode code) : Carries s.buffer code
    { s.midLine.push (codePieces code) with input := s.input.advance (code.length + 2) } where
  inFence := h.inFence
  buffer := by
    refine .inr ⟨Buffer.held_push _ _, [], ?_⟩
    rw [List.append_nil]
    exact Buffer.line_push _ _

theorem raised_release (h : s.buffer.all ≠ []) :
    s.release.raised = [⟨.text s.buffer.all, s.lists⟩] := by
  unfold release
  split
  · contradiction
  · rfl

theorem length_raised_release_le (s : State) : s.release.raised.length ≤ 1 := by
  unfold release
  split
  · exact Nat.zero_le 1
  · exact Nat.le_refl 1

/-- What waits up to a place behind the inline code is released. -/
theorem raisesCode_of_all {f : State → Move} (h : ∃ pieces, s.buffer.all =
    waiting.all ++ codePieces code ++ pieces) : (s.release.andThen f).RaisesCode waiting code := by
  obtain ⟨pieces, hall⟩ := h
  have hne : s.buffer.all ≠ [] := by
    rw [hall]
    simp [codePieces]
  refine ⟨[], ⟨.text s.buffer.all, s.lists⟩, (f s.release.next).raised, ?_, Nat.zero_le 1, ?_⟩
  · rw [Move.raised_andThen, raised_release hne]
    rfl
  · rw [hall]
    exact .text pieces

namespace Carries

variable (h : Carries waiting code s)

include h

theorem exists_all : ∃ pieces, s.buffer.all = waiting.all ++ codePieces code ++ pieces := by
  rw [Buffer.all_eq]
  rcases h.buffer with ⟨pieces, hheld⟩ | ⟨hheld, pieces, hline⟩
  · exact ⟨pieces ++ s.buffer.line, by rw [hheld, List.append_assoc]⟩
  · exact ⟨pieces, by rw [hheld, hline, Buffer.all_eq]; simp⟩

theorem raisesCode_of_blockRule (hm : BlockRule s.midLine m) : m.RaisesCode waiting code := by
  cases hm with
  | paragraphBreak => exact raisesCode_of_all (by exact h.exists_all)
  | hashRule => exact raisesCode_of_all (by exact h.exists_all)
  | openFence => exact raisesCode_of_all (by exact h.exists_all)
  | item => exact raisesCode_of_all (by exact h.exists_all)

/-- A line that is underlined is raised on its own, after the text before it. -/
theorem raisesCode_of_underlined {t : State} (ht : t.buffer = s.buffer) :
    t.underlined.RaisesCode waiting code := by
  rcases h.buffer with hheld | ⟨-, pieces, hline⟩
  · rw [← ht] at hheld
    exact raisesCode_of_all (by exact hheld)
  · refine ⟨(release { t with buffer := t.buffer.dropLine }).raised, ⟨.title t.buffer.line, _⟩, [],
      rfl, length_raised_release_le _, ?_⟩
    rw [ht, hline]
    exact .title pieces

/-- What is put after it changes nothing. -/
theorem push (pieces : List Piece) : Carries waiting code (s.push pieces) where
  inFence := h.inFence
  buffer := by
    rw [show (s.push pieces).buffer = s.buffer.push pieces from rfl, Buffer.held_push,
      Buffer.line_push]
    rcases h.buffer with hheld | ⟨hheld, old, hline⟩
    · exact .inl hheld
    · exact .inr ⟨hheld, old ++ pieces, by rw [hline, List.append_assoc]⟩

theorem step_of_textRule (hm : TextRule s.midLine m) :
    m.raised = [] ∧ Carries waiting code m.next ∨ m.RaisesCode waiting code := by
  cases hm with
  | underline => exact .inr (h.raisesCode_of_underlined rfl)
  | join =>
    obtain ⟨pieces, hall⟩ := h.exists_all
    refine .inl ⟨rfl, h.inFence, .inl ⟨pieces ++ [.char ' '], ?_⟩⟩
    show (Buffer.markLine _).held = _
    rw [Buffer.held_markLine, Buffer.all_push, show s.midLine.buffer.all = _ from hall,
      List.append_assoc]
  | push => exact .inl ⟨rfl, h.inFence, (h.push _).buffer⟩
  | link => exact .inr (raisesCode_of_all (by exact h.exists_all))

/-- **Inline code waits on, or is raised.** -/
theorem step (hs : s.input.rest ≠ []) (hm : s.step = .ok m) :
    m.raised = [] ∧ Carries waiting code m.next ∨ m.RaisesCode waiting code := by
  cases rule_of_step hs hm with
  | fencedLine hf =>
    rw [h.inFence] at hf
    cases hf
  | backslash => exact .inl ⟨rfl, h.inFence, (h.push _).buffer⟩
  | block _ _ hm => exact .inr (h.raisesCode_of_blockRule hm)
  | text _ hm => exact h.step_of_textRule hm

/-- As soon as a reading raises anything, it raises the inline code. -/
theorem reads (hr : Reads s m) :
    m.raised = [] ∧ Carries waiting code m.next ∨ m.RaisesCode waiting code := by
  induction hr with
  | stop s => exact .inl ⟨rfl, h⟩
  | @step s m n hs hm _ ih =>
    rcases h.step hs hm with ⟨hm, hnext⟩ | ⟨before, r, after, hm, hcarrier⟩
    · rcases ih hnext with ⟨hn, hend⟩ | ⟨before, r, after, hn, hcarrier⟩
      · exact .inl ⟨by rw [Move.raised_andThen, hm, hn]; rfl, hend⟩
      · exact .inr ⟨before, r, after, by rw [Move.raised_andThen, hm, hn]; rfl, hcarrier⟩
    · exact .inr ⟨before, r, after ++ n.raised, by simp [hm], hcarrier⟩

end Carries

end State

/-! ## Inline code that is raised -/

/-- What is written for inline code neither begins nor ends with a blank. -/
theorem Backend.not_blank_code (b : Backend) (code : Text) :
    (∀ c ∈ (expand b.markup (codePieces code)).head?, isBlank c = false) ∧
      ∀ c ∈ (expand b.markup (codePieces code)).getLast?, isBlank c = false := by
  have hmarks : (∃ c t, b.markup .codeOn = c :: t ∧ isBlank c = false) ∧
      ∃ t c, b.markup .codeOff = t ++ [c] ∧ isBlank c = false := by
    cases b with
    | recorder => exact ⟨⟨_, _, rfl, rfl⟩, "</C".toList, '>', by decide⟩
    | dialect d =>
      cases d with
      | mom => exact ⟨⟨_, _, rfl, rfl⟩, "\\*[CODE OFF]".toList, '\'', by decide⟩
      | _ => exact ⟨⟨_, _, rfl, rfl⟩, "\\fP".toList, '\'', by decide⟩
  obtain ⟨⟨c, t, hon, hc⟩, u, d, hoff, hd⟩ := hmarks
  rw [expand_codePieces, hon, hoff]
  constructor
  · intro e he
    obtain rfl : c = e := Option.some.inj he
    exact hc
  · intro e he
    rw [← List.append_assoc, List.getLast?_concat] at he
    obtain rfl : d = e := Option.some.inj he
    exact hd

/-- Running text with inline code in it has the code as one piece when blanks are collapsed. -/
theorem Backend.collapse_code_infix (b : Backend) (code : Text) (before after : List Piece) :
    collapse (expand b.markup (codePieces code)) <:+:
      collapse (expand b.markup (before ++ codePieces code ++ after)) := by
  obtain ⟨hhead, hlast⟩ := b.not_blank_code code
  rw [expand_append, expand_append]
  exact collapse_infix hhead hlast _ _

theorem Backend.collapse_with_code_ne_nil (b : Backend) (code : Text) (before after : List Piece) :
    collapse (expand b.markup (before ++ codePieces code ++ after)) ≠ [] := by
  rw [Ne, b.collapse_expand_eq_nil_iff]
  simp [codePieces, Piece.isShown]

/-- What inline code is raised in becomes a line of text or a title, and the code is one piece
of it. -/
theorem CodeCarrier.exists_event {waiting : Buffer} {code : Text} {signal : Signal}
    (h : CodeCarrier waiting code signal) (b : Backend) : ∃ e line,
      signal.event? b.markup = some e ∧ (e = .text line ∨ e = .heading .major line) ∧
        collapse (expand b.markup (codePieces code)) <:+: line := by
  cases h with
  | text pieces =>
    refine ⟨_, _, ?_, .inl rfl, b.collapse_code_infix code waiting.all pieces⟩
    rw [Signal.event?_text, if_neg (b.collapse_with_code_ne_nil _ _ _)]
  | title pieces =>
    refine ⟨_, _, ?_, .inr rfl, b.collapse_code_infix code waiting.line pieces⟩
    rw [Signal.event?_title, if_neg (b.collapse_with_code_ne_nil _ _ _)]

/-- The events of a move that raises inline code. -/
theorem Move.RaisesCode.exists_event {waiting : Buffer} {code : Text} {m : Move}
    (h : m.RaisesCode waiting code) (b : Backend) :
    ∃ (before after : List (Raised Event)) (r : Raised Event) (signal : Signal) (line : Text),
      Raised.events b.markup m.raised = before ++ r :: after ∧ before.length ≤ 1 ∧
      CodeCarrier waiting code signal ∧ signal.event? b.markup = some r.item ∧
      (r.item = .text line ∨ r.item = .heading .major line) ∧
      collapse (expand b.markup (codePieces code)) <:+: line := by
  obtain ⟨before, r, after, hm, hbefore, hcarrier⟩ := h
  obtain ⟨e, line, he, hline, hinfix⟩ := hcarrier.exists_event b
  refine ⟨Raised.events b.markup before, Raised.events b.markup after, ⟨e, r.lists⟩, r.item, line,
    ?_, ?_, hcarrier, he, hline, hinfix⟩
  · have hr : Raised.events b.markup (r :: after) =
        ⟨e, r.lists⟩ :: Raised.events b.markup after := by
      simp [Raised.events, he]
    rw [hm, Raised.events_append, hr]
  · exact Nat.le_trans (List.length_filterMap_le _ _) hbefore

/-- Where inline code waits, the rest of the document raises it, or fails and raises nothing. -/
theorem State.AtCode.exists_later {z : Zipper} {m : Move} {code : Text}
    (h : Reads (.initial z) m) (hc : m.next.AtCode code) : ∃ later : Move,
      z.trace.raised = m.raised ++ later.raised ∧
      (later.RaisesCode m.next.buffer code ∨ later.raised = [] ∧ z.trace.failure? ≠ none) := by
  have hs : m.next.input.rest ≠ [] := by
    obtain ⟨after, hr⟩ := hc.opened
    rw [hr]
    exact List.cons_ne_nil _ _
  have hread {n : Move} (hn : Reads _ n) := h.trans (.step hs hc.step hn)
  rcases State.reads_of_scan { m.next.midLine.push (codePieces code) with
      input := m.next.input.advance (code.length + 2) } with
    ⟨n, hn, hend, -⟩ | ⟨n, e, hn, hne, herr, -⟩
  · have ht := Zipper.trace_of_reads_to_end (hread hn) hend
    refine ⟨n.andThen State.wrapUp, by rw [ht]; simp, .inl ?_⟩
    rcases hc.carries.reads hn with ⟨hn, hcarries⟩ | ⟨before, r, after, hn, hcarrier⟩
    · obtain ⟨before, r, after, hwrap, hcarrier⟩ : n.next.wrapUp.RaisesCode m.next.buffer code :=
        State.raisesCode_of_all hcarries.exists_all
      exact ⟨before, r, after, by rw [Move.raised_andThen, hn, hwrap]; rfl, hcarrier⟩
    · exact ⟨before, r, after ++ n.next.wrapUp.raised, by simp [hn], hcarrier⟩
  · have ht := Zipper.trace_of_reads_to_error (hread hn) hne herr
    refine ⟨n, by rw [ht]; simp, ?_⟩
    rcases hc.carries.reads hn with ⟨hn, -⟩ | hraises
    · exact .inr ⟨hn, by rw [ht]; exact Option.some_ne_none e⟩
    · exact .inl hraises

/-- **Inline code is raised as one piece**, in the text or the title that it is part of, from any
place in any text and for every backend: it stands between its marks with all its characters but
the blanks, and with its blanks just when they are settled.  It is not raised only when the reading
fails before it raises anything else. -/
theorem Zipper.inline_code_is_one_piece (b : Backend) {z : Zipper} {m : Move} {code : Text}
    (h : Reads (.initial z) m) (hc : m.next.AtCode code) : ∃ inner : Text,
      inner.filter (fun c => !isBlank c) = (spelledCode code).filter (fun c => !isBlank c) ∧
      (inner = spelledCode code ↔ Settled codeMark codeMark (spelledCode code)) ∧
      ((z.trace.failure? ≠ none ∧ z.trace.events b.markup = Raised.events b.markup m.raised) ∨
        ∃ (before after : List (Raised Event)) (r : Raised Event) (signal : Signal) (line : Text),
          z.trace.events b.markup =
            Raised.events b.markup m.raised ++ (before ++ r :: after) ∧ before.length ≤ 1 ∧
          CodeCarrier m.next.buffer code signal ∧ signal.event? b.markup = some r.item ∧
          (r.item = .text line ∨ r.item = .heading .major line) ∧
          b.markup .codeOn ++ inner ++ b.markup .codeOff <:+: line) := by
  obtain ⟨inner, hinner, hfilter, hsettled⟩ := b.exists_collapse_code code
  refine ⟨inner, hfilter, hsettled, ?_⟩
  rw [← hinner]
  obtain ⟨later, hlater, hraises | ⟨hnone, hfail⟩⟩ := State.AtCode.exists_later h hc
  · obtain ⟨before, after, r, signal, line, hevents, hrest⟩ := hraises.exists_event b
    refine .inr ⟨before, after, r, signal, line, ?_, hrest⟩
    rw [Trace.events, hlater, Raised.events_append, hevents]
  · refine .inl ⟨hfail, ?_⟩
    rw [Trace.events, hlater, hnone, List.append_nil]

/-- Inline code in the title of a section, with a blank that is kept. -/
theorem Zipper.inline_code_is_one_piece_title :
    let z : Zipper := .start "x\ny \x60a, b\x60\n---".toList
    ∃ m, Reads (.initial z) m ∧ m.next.AtCode "a, b".toList ∧
      Settled codeMark codeMark (spelledCode "a, b".toList) ∧
      z.trace.events tagMarkup = [⟨.text "x".toList, .empty⟩,
        ⟨.heading .major "y <C>a, b</C>".toList, .empty⟩] ∧
      ∃ inner, (inner = spelledCode "a, b".toList ↔
          Settled codeMark codeMark (spelledCode "a, b".toList)) ∧
        ((z.trace.failure? ≠ none ∧ z.trace.events tagMarkup = Raised.events tagMarkup m.raised) ∨
        ∃ (before after : List (Raised Event)) (r : Raised Event) (signal : Signal) (line : Text),
          z.trace.events tagMarkup =
            Raised.events tagMarkup m.raised ++ (before ++ r :: after) ∧ before.length ≤ 1 ∧
          CodeCarrier m.next.buffer "a, b".toList signal ∧
          signal.event? tagMarkup = some r.item ∧
          (r.item = .text line ∨ r.item = .heading .major line) ∧
          "<C>".toList ++ inner ++ "</C>".toList <:+: line) := by
  intro z
  let m := ((State.initial z).firstSteps 4).get (by decide +kernel)
  have hm : Reads (.initial z) m := State.reads_of_firstSteps (Option.some_get _).symm
  have hc : m.next.AtCode "a, b".toList :=
    ⟨by decide +kernel, ⟨"\n---".toList, by decide +kernel⟩, by decide, by decide +kernel⟩
  have hsettled : Settled codeMark codeMark (spelledCode "a, b".toList) :=
    .char _ rfl (.char _ rfl (.space (by decide) rfl (.nil _)))
  obtain ⟨inner, -, hinner, hraised⟩ := inline_code_is_one_piece .recorder hm hc
  exact ⟨m, hm, hc, hsettled, by decide +kernel, inner, hinner, hraised⟩

/-- Of two spaces in inline code one is lost. -/
theorem Zipper.inline_code_loses_a_space :
    let z : Zipper := .start "\x60a  b\x60".toList
    (State.initial z).AtCode "a  b".toList ∧ '\n' ∉ "a  b".toList ∧ z.trace.failure? = none ∧
      z.trace.events tagMarkup = [⟨.text "<C>a b</C>".toList, .empty⟩] ∧
      ¬ tagMarkup .codeOn ++ spelledCode "a  b".toList ++ tagMarkup .codeOff <:+:
        "<C>a b</C>".toList := by
  intro z
  refine ⟨⟨rfl, ⟨[], by decide⟩, by decide, by decide⟩, by decide, by decide +kernel,
    by decide +kernel, ?_⟩
  intro h
  exact absurd h.length_le (by decide)

end Roffdown
