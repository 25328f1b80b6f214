import Roffdown.Proofs.Requests

/-!
# Text that is written to be plain

A backslash lets the character after it stand for itself, at the beginning of a line as well.  So
any text can be written in a way that nothing in it is taken for markup, and reading gives it back.

* `WrittenAs`: the ways to write a text, character by character.
* `State.step_of_isBareChar`, `State.step_of_escape`: what a step does with a character.
* `State.Gathers`: a reading that puts pieces into the running text and raises nothing.
* `Zipper.events_of_gathers`: a document in which all is running text.
* `Zipper.written_text_is_plain`: the text is the only event of the document, and its only line.
-/

namespace Roffdown

open Markdown Roff Text
open State (Reads)

/-! ## Ways to write a text -/

/-- The characters that are never taken for markup, wherever they stand. -/
def isBareChar (c : Char) : Bool := !"\\*_\x60[!#+-\n".toList.contains c && !c.isDigit

/-- The letters that stand for other characters after a backslash. -/
def escapeLetters : Text := "nrtfbae".toList

/-- A text and a way to write it: each character is written as itself or after a backslash. -/
inductive WrittenAs : Text → Text → Prop
  | nil : WrittenAs [] []
  | bare {c : Char} {t e : Text} (hc : isBareChar c) (h : WrittenAs t e) :
      WrittenAs (c :: t) (c :: e)
  | escaped {c : Char} {t e : Text} (hc : c ∉ escapeLetters) (h : WrittenAs t e) :
      WrittenAs (c :: t) ('\\' :: c :: e)

/-- Every text can be written so. -/
theorem exists_writtenAs (t : Text) : ∃ e, WrittenAs t e := by
  induction t with
  | nil => exact ⟨[], .nil⟩
  | cons c t ih =>
    obtain ⟨e, he⟩ := ih
    by_cases hc : c ∈ escapeLetters
    · have hbare : escapeLetters.all isBareChar := by decide
      exact ⟨c :: e, .bare (List.all_eq_true.1 hbare c hc) he⟩
    · exact ⟨'\\' :: c :: e, .escaped hc he⟩

theorem not_mem_of_isBareChar {c : Char} (hc : isBareChar c) :
    c ∉ "\\*_\x60[!#+-\n".toList ∧ c.isDigit = false := by
  simpa only [isBareChar, Bool.and_eq_true, Bool.not_eq_true', List.contains_eq_mem,
    decide_eq_false_iff_not] using hc

theorem Markdown.escaped_eq_self {c : Char} (hc : c ∉ escapeLetters) : escaped c = c := by
  unfold escaped
  split <;> first | rfl | exact absurd (by decide) hc

/-! ## Steps -/

namespace State

variable {s : State} {c : Char} {t e : Text}

/-- Such a character begins no block where no list is open. -/
theorem blockRule?_of_isBareChar (hc : isBareChar c) (hr : s.input.rest = c :: t)
    (hl : s.lists.isEmpty) : s.blockRule? = none := by
  obtain ⟨hmem, hdigit⟩ := not_mem_of_isBareChar hc
  have hne {d : Char} (hd : d ∈ "\\*_\x60[!#+-\n".toList) : c ≠ d := by
    rintro rfl
    exact hmem hd
  have hbullet : isBullet c = false := by
    simp [isBullet, hne (d := '*') (by decide), hne (d := '+') (by decide),
      hne (d := '-') (by decide)]
  have hmarker : marker? (c :: t) = none := by
    simp [marker?, hbullet, hdigit]
  exact blockRule?_eq_none hr (hne (by decide)) (hne (by decide)) (hne (by decide)) hmarker hl

theorem textRule_of_isBareChar (hc : isBareChar c) (hr : s.input.rest = c :: t) :
    s.textRule = .ok (s.literal c) := by
  obtain ⟨hmem, -⟩ := not_mem_of_isBareChar hc
  have hne {d : Char} (hd : d ∈ "\\*_\x60[!#+-\n".toList) : c ≠ d := by
    rintro rfl
    exact hmem hd
  unfold textRule
  rw [hr]
  simp [hne (d := '\n') (by decide), hne (d := '*') (by decide), hne (d := '_') (by decide),
    hne (d := codeMark) (by decide), hne (d := '[') (by decide), hne (d := '!') (by decide)]

/-- **Such a character is put into the running text**, also where a line begins. -/
theorem step_of_isBareChar (hc : isBareChar c) (hf : s.inFence = false)
    (hl : s.freshLine → s.lists.isEmpty) (hr : s.input.rest = c :: t) :
    s.step = .ok (s.midLine.literal c) := by
  have hback : c ≠ '\\' := by
    rintro rfl
    cases hc
  rw [step_eq_textRule hr hback hf fun hfresh => blockRule?_of_isBareChar hc hr (hl hfresh)]
  exact textRule_of_isBareChar hc hr

/-- **After a backslash any character is put into the running text**, but for the letters that stand
for others. -/
theorem step_of_escape (hc : c ∉ escapeLetters) (hf : s.inFence = false)
    (hr : s.input.rest = '\\' :: c :: t) :
    s.step = .ok (.silent { s.push [.char c] with
      input := s.input.advance 2, freshLine := false }) := by
  have hnext : s.input.next? = some '\\' := congrArg List.head? hr
  have hsecond : s.input.nth? 1 = some c := by
    rw [Zipper.nth?, hr]
    rfl
  rw [step_eq, if_neg (Bool.eq_false_iff.1 hf), if_pos hnext, backslash, hsecond,
    Option.elim_some, escaped_eq_self hc]

/-! ## Running text that waits -/

/-- Reading leads from a state to another, raises nothing, and puts pieces into the running text. -/
structure Gathers (s : State) (pieces : List Piece) (s' : State) : Prop where
  reads : ∃ m, Reads s m ∧ m.raised = [] ∧ m.next = s'
  buffer : s'.buffer.all = s.buffer.all ++ pieces
  lists : s'.lists = s.lists
  inFence : s'.inFence = s.inFence

variable {s' r : State} {p q : List Piece}

theorem Gathers.refl (s : State) : s.Gathers [] s :=
  ⟨⟨.silent s, .stop s, rfl, rfl⟩, (List.append_nil _).symm, rfl, rfl⟩

theorem Gathers.trans (h : s.Gathers p s') (h' : s'.Gathers q r) : s.Gathers (p ++ q) r := by
  obtain ⟨m, hm, hraised, rfl⟩ := h.reads
  obtain ⟨n, hn, hraised', rfl⟩ := h'.reads
  refine ⟨⟨_, hm.trans hn, ?_, rfl⟩, ?_, h'.lists.trans h.lists, h'.inFence.trans h.inFence⟩
  · rw [Move.raised_andThen, hraised, hraised', List.append_nil]
  · rw [h'.buffer, h.buffer, List.append_assoc]

theorem gathers_of_step (hr : s.input.rest = c :: t) (h : s.step = .ok (.silent s'))
    (hb : s'.buffer.all = s.buffer.all ++ p) (hl : s'.lists = s.lists)
    (hf : s'.inFence = s.inFence) : s.Gathers p s' := by
  have hne : s.input.rest ≠ [] := by
    rw [hr]
    exact List.cons_ne_nil c t
  exact ⟨⟨_, .step hne h (.stop s'), rfl, rfl⟩, hb, hl, hf⟩

/-- A text that is so written is read to its end, and waits. -/
theorem exists_gathers_of_writtenAs (h : WrittenAs t e) (hf : s.inFence = false)
    (hl : s.freshLine → s.lists.isEmpty) (hr : s.input.rest = e) :
    ∃ s', s.Gathers (t.map .char) s' ∧ s'.input.rest = [] := by
  induction h generalizing s with
  | nil => exact ⟨s, .refl s, hr⟩
  | @bare c t e hc h ih =>
    have hfirst : s.Gathers [.char c] (s.midLine.literal c).next :=
      gathers_of_step hr (step_of_isBareChar hc hf hl hr) (Buffer.all_push _ _) rfl rfl
    obtain ⟨s', hothers, hend⟩ := ih (s := (s.midLine.literal c).next) hf
      (fun h => absurd h Bool.false_ne_true) (congrArg (List.drop 1) hr)
    exact ⟨s', hfirst.trans hothers, hend⟩
  | @escaped c t e hc h ih =>
    have hfirst : s.Gathers [.char c]
        { s.push [.char c] with input := s.input.advance 2, freshLine := false } :=
      gathers_of_step hr (step_of_escape hc hf hr) (Buffer.all_push _ _) rfl rfl
    obtain ⟨s', hothers, hend⟩ := ih
      (s := { s.push [.char c] with input := s.input.advance 2, freshLine := false }) hf
      (fun h => absurd h Bool.false_ne_true) (congrArg (List.drop 2) hr)
    exact ⟨s', hfirst.trans hothers, hend⟩

end State

/-! ## Documents of running text -/

/-- **A document in which all is running text** tells it at the end, unless it is blank. -/
theorem Zipper.events_of_gathers {z : Zipper} {pieces : List Piece} {s : State}
    (h : (State.initial z).Gathers pieces s) (hend : s.input.rest = []) :
    z.trace.failure? = none ∧ ∀ mk : Markup,
      z.trace.events mk = if collapse (expand mk pieces) = [] then []
        else [⟨.text (collapse (expand mk pieces)), .empty⟩] := by
  obtain ⟨m, hm, hraised, rfl⟩ := h.reads
  rw [trace_of_reads_to_end hm hend]
  refine ⟨rfl, fun mk => ?_⟩
  have hlists : m.next.lists = .empty := h.lists
  have hall : m.next.buffer.all = pieces := h.buffer
  have hwrap : m.next.wrapUp.raised = m.next.release.raised := by
    rw [State.wrapUp, Move.raised_andThen, State.next_release]
    simp [h.inFence, State.initial, hlists, OpenLists.depth, State.closeMany]
  rw [Trace.events, hraised, List.nil_append, hwrap, Raised.events_release,
    Raised.events_singleton, Signal.event?_text, hlists, hall]
  split <;> rfl

theorem Dialect.lines_text (d : Dialect) (line : Text) (l : OpenLists) :
    d.package.lines (.text line) l = [textLine line] := by
  cases d <;> rfl

theorem Roff.textLine_eq (line : Text) : textLine line =
    if line.head? = some '.' ∨ line.head? = some '\x27' then "\\&".toList ++ line else line := by
  cases line with
  | nil => rfl
  | cons c t => simp [textLine, isControl]

/-- **A text that is written to be plain is plain text.**  It is the only event of the document,
unless it is blank, and each dialect writes it on one line, which is no request. -/
theorem Zipper.written_text_is_plain {t e : Text} (h : WrittenAs t e) :
    let trace := (Zipper.start e).trace
    let line := collapse t
    trace.failure? = none ∧ '\n' ∉ line ∧
      (∀ mk, trace.events mk = if line = [] then [] else [⟨.text line, .empty⟩]) ∧
      ∀ d : Dialect, trace.lines d.package = if line = [] then [] else
        [if line.head? = some '.' ∨ line.head? = some '\x27' then "\\&".toList ++ line
          else line] := by
  intro trace line
  obtain ⟨s, hs, hend⟩ :=
    State.exists_gathers_of_writtenAs (s := .initial (.start e)) h rfl (fun _ => rfl) rfl
  obtain ⟨hok, hevents⟩ := events_of_gathers hs hend
  have hone (mk : Markup) :
      trace.events mk = if line = [] then [] else [⟨.text line, .empty⟩] := by
    have hmk := hevents mk
    rwa [expand_chars] at hmk
  refine ⟨hok, newline_not_mem_collapse t, hone, fun d => ?_⟩
  rw [Trace.lines, hone]
  split
  · rfl
  · rw [List.flatMap_singleton, d.lines_text, textLine_eq]

/-- A text of markup, with a newline and a point that would begin a request. -/
theorem Zipper.written_text_is_plain_markup :
    let t := ".- *a*\n1. \x60\\".toList
    let e := ".\\- \\*a\\*\\\n\\1. \\\x60\\\\".toList
    WrittenAs t e ∧ (start e).trace.failure? = none ∧
      (start e).trace.events tagMarkup = [⟨.text ".-*a* 1.\x60\\".toList, .empty⟩] ∧
      (start e).trace.lines Dialect.mom.package = ["\\&.-*a* 1.\x60\\".toList] := by
  intro t e
  have h : WrittenAs t e := by
    refine .bare (by decide) (.escaped (by decide) (.bare (by decide) (.escaped (by decide) ?_)))
    refine .bare (by decide) (.escaped (by decide) (.escaped (by decide) (.escaped (by decide) ?_)))
    refine .bare (by decide) (.bare (by decide) (.escaped (by decide) (.escaped (by decide) ?_)))
    exact .nil
  obtain ⟨hok, -, hevents, hlines⟩ := written_text_is_plain h
  refine ⟨h, hok, ?_, ?_⟩
  · rw [hevents]
    decide +kernel
  · rw [hlines]
    decide +kernel

end Roffdown
