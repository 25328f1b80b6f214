import Roffdown.Markdown.Trace

/-!
# Readings

What holds of every state that reading reaches is shown along the steps that lead there.  `Reads`
is the relation of these steps, and `Rule` lists what a single step can be; each property of a whole
reading then needs one case for each rule.

* `Zipper.exists_reads_of_success`: the trace of a document that is read to its end.
* `Zipper.trace_of_reads`: the trace after a reading that ends as it began.
* `State.rule_of_step`: every step follows one of the rules, and the text at the place fits it.
* `State.step_eq_error_iff`: a step fails only at a code mark that is the last one.
* `State.OnLists`: moves that concern the lists alone.
* `State.fenceIsBare_of_rule`: inside of a fenced block no running text waits.
* `Raised.events_release`: what running text becomes when it is released.
-/

namespace Roffdown

open Markdown Text

/-- Two choices with the same condition are related when what they choose between is. -/
theorem rel_ite {α β : Type} {R : α → β → Prop} {c' c : Prop} [Decidable c'] [Decidable c]
    {a' b' : α} {a b : β} (hc : c' ↔ c) (ha : c → R a' a) (hb : ¬ c → R b' b) :
    R (if c' then a' else b') (if c then a else b) := by
  by_cases h : c
  · rw [if_pos h, if_pos (hc.2 h)]
    exact ha h
  · rw [if_neg h, if_neg (mt hc.1 h)]
    exact hb h

namespace State

/-! ## Steps one after the other -/

/-- A reading from a state to a later one, told as a single move. -/
inductive Reads : State → Move → Prop
  | stop (s : State) : Reads s (.silent s)
  | step {s : State} {m n : Move} (hs : s.input.rest ≠ []) (hm : s.step = .ok m)
      (hn : Reads m.next n) : Reads s (m.andThen fun _ => n)

theorem Reads.trans {s : State} {m n : Move} (h : Reads s m) (hn : Reads m.next n) :
    Reads s (m.andThen fun _ => n) := by
  induction h with
  | stop s => exact hn
  | step hs hm _ ih =>
    rw [Move.andThen_assoc]
    exact .step hs hm (ih hn)

theorem Reads.snoc {s : State} {m n : Move} (h : Reads s m) (hs : m.next.input.rest ≠ [])
    (hn : m.next.step = .ok n) : Reads s (m.andThen fun _ => n) := by
  have hone := h.trans (.step hs hn (.stop n.next))
  rwa [show (n.andThen fun _ => .silent n.next) = n from n.andThen_silent] at hone

/-- The first steps of a reading, unless it ends or fails before. -/
def firstSteps : Nat → State → Option Move
  | 0, s => some (.silent s)
  | n + 1, s =>
    match s.input.rest, s.step with
    | _ :: _, .ok m => (firstSteps n m.next).map fun k => m.andThen fun _ => k
    | _, _ => none

theorem reads_of_firstSteps {n : Nat} {s : State} {m : Move} (h : s.firstSteps n = some m) :
    Reads s m := by
  induction n generalizing s m with
  | zero =>
    cases h
    exact .stop s
  | succ n ih =>
    unfold firstSteps at h
    split at h
    · rename_i hr hm
      obtain ⟨k, hk, rfl⟩ := Option.map_eq_some_iff.1 h
      exact .step (by rw [hr]; exact List.cons_ne_nil _ _) hm (ih hk)
    · cases h

theorem scan_of_reads {s : State} {m : Move} (h : Reads s m) : s.scan = m.next.scan.after m := by
  induction h with
  | stop s => simp [Scan.after]
  | step hne hm _ ih => rw [scan_of_step hne hm, ih]; simp [Scan.after]

/-- A scan is a reading to the end of the text, or to a step that fails. -/
theorem reads_of_scan (s : State) :
    (∃ m, Reads s m ∧ m.next.input.rest = [] ∧ s.scan = ⟨m.raised, m.warnings, .ok m.next⟩) ∨
      ∃ m e, Reads s m ∧ m.next.input.rest ≠ [] ∧ m.next.step = .error e ∧
        s.scan = ⟨m.raised, m.warnings, .error e⟩ := by
  induction hn : s.input.rest.length using Nat.strongRecOn generalizing s with
  | ind n ih =>
    subst hn
    by_cases hs : s.input.rest = []
    · exact .inl ⟨.silent s, .stop s, hs, scan_of_end hs⟩
    cases hm : s.step with
    | error e => exact .inr ⟨.silent s, e, .stop s, hs, hm, scan_of_error hs hm⟩
    | ok m =>
      rw [scan_of_step hs hm]
      rcases ih _ (length_rest_step hm hs) m.next rfl with
        ⟨n, hr, hend, he⟩ | ⟨n, e, hr, hne, herr, he⟩
      · exact .inl ⟨_, .step hs hm hr, hend, by rw [he]; rfl⟩
      · exact .inr ⟨_, e, .step hs hm hr, hne, herr, by rw [he]; rfl⟩

end State

open State (Reads)

theorem Zipper.exists_reads_of_success {z : Zipper} (h : z.trace.failure? = none) :
    ∃ m, Reads (.initial z) m ∧ m.next.input.rest = [] ∧
      z.trace = ⟨m.raised ++ m.next.wrapUp.raised, m.warnings ++ m.next.wrapUp.warnings, none⟩ := by
  rcases State.reads_of_scan (.initial z) with ⟨m, hr, hend, he⟩ | ⟨m, e, -, -, -, he⟩
  · exact ⟨m, hr, hend, by rw [trace, he]⟩
  · simp [trace, he] at h

theorem Zipper.exists_reads_of_failure {z : Zipper} {e : UnclosedCode}
    (h : z.trace.failure? = some e) :
    ∃ m, Reads (.initial z) m ∧ m.next.input.rest ≠ [] ∧ m.next.step = .error e ∧
      z.trace = ⟨m.raised, m.warnings, some e⟩ := by
  rcases State.reads_of_scan (.initial z) with ⟨m, -, -, he⟩ | ⟨m, e', hr, hne, herr, he⟩
  · simp [trace, he] at h
  · have ht : z.trace = ⟨m.raised, m.warnings, some e'⟩ := by rw [trace, he]
    obtain rfl : e' = e := by simpa [ht] using h
    exact ⟨m, hr, hne, herr, ht⟩

/-- The trace of a reading that reaches the end of the text. -/
theorem Zipper.trace_of_reads_to_end {z : Zipper} {m : Move} (h : Reads (.initial z) m)
    (hend : m.next.input.rest = []) : z.trace =
      ⟨m.raised ++ m.next.wrapUp.raised, m.warnings ++ m.next.wrapUp.warnings, none⟩ := by
  have hs := State.scan_of_reads h
  rw [State.scan_of_end hend] at hs
  rw [trace, hs]
  simp [State.Scan.after]

/-- The trace of a reading that reaches a step that fails. -/
theorem Zipper.trace_of_reads_to_error {z : Zipper} {m : Move} {e : UnclosedCode}
    (h : Reads (.initial z) m) (hne : m.next.input.rest ≠ []) (he : m.next.step = .error e) :
    z.trace = ⟨m.raised, m.warnings, some e⟩ := by
  have hs := State.scan_of_reads h
  rw [State.scan_of_error hne he] at hs
  rw [trace, hs]
  simp [State.Scan.after]

/-- What a reading raises is what is raised first of all. -/
theorem Zipper.exists_raised_of_reads {z : Zipper} {m : Move} (h : Reads (.initial z) m) :
    ∃ later, z.trace.raised = m.raised ++ later := by
  rcases State.reads_of_scan m.next with ⟨n, hn, hend, -⟩ | ⟨n, e, hn, hne, he, -⟩
  · refine ⟨n.raised ++ n.next.wrapUp.raised, ?_⟩
    rw [trace_of_reads_to_end (h.trans hn) hend, ← List.append_assoc]
    rfl
  · refine ⟨n.raised, ?_⟩
    rw [trace_of_reads_to_error (h.trans hn) hne he]
    rfl

/-- A reading that ends as reading begins, where nothing is open or waits, begins the trace. -/
theorem Zipper.trace_of_reads {z : Zipper} {m : Move} (h : Reads (.initial z) m)
    (hm : m.next = .initial m.next.input) : z.trace =
      ⟨m.raised ++ m.next.input.trace.raised, m.warnings ++ m.next.input.trace.warnings,
        m.next.input.trace.failure?⟩ := by
  have hs : (State.initial z).scan = (State.initial m.next.input).scan.after m := by
    rw [← hm]
    exact State.scan_of_reads h
  simp only [trace, hs, State.Scan.after]
  cases (State.initial m.next.input).scan.stop with
  | error e => rfl
  | ok s => simp only [List.append_assoc]

namespace State

/-! ## The rules -/

/-- The state where the rules for the beginning of a line have had their turn. -/
def midLine (s : State) : State := { s with freshLine := false }

/-- At the beginning of a line the rules for lines come first. -/
theorem step_eq (s : State) : s.step =
    if s.inFence then .ok s.fencedLine
    else if s.input.next? = some '\\' then .ok s.backslash
    else if s.freshLine then s.midLine.blockRule?.elim s.midLine.textRule .ok
    else s.textRule := by
  unfold step midLine
  cases State.blockRule? { s with freshLine := false } <;> rfl

theorem midLine_eq_self {s : State} (h : s.freshLine = false) : s.midLine = s := by
  cases s
  simp_all [midLine]

/-- Outside of fenced blocks a step is one of running text where no rule for the beginning of a line
applies, unless it begins with a backslash. -/
theorem step_eq_textRule {s : State} {c : Char} {t : Text} (hr : s.input.rest = c :: t)
    (hc : c ≠ '\\') (hf : s.inFence = false)
    (h : s.freshLine = true → s.midLine.blockRule? = none) : s.step = s.midLine.textRule := by
  have hback : s.input.next? ≠ some '\\' := by
    rw [Zipper.next?, hr, List.head?_cons]
    exact mt Option.some.inj hc
  rw [step_eq, if_neg (Bool.eq_false_iff.1 hf), if_neg hback]
  split
  · rename_i hl
    rw [h hl, Option.elim_none]
  · rename_i hl
    rw [midLine_eq_self (Bool.eq_false_iff.2 hl)]

/-- The rules for the beginning of a line, with the text that each needs. -/
inductive BlockRule (s : State) : Move → Prop
  | paragraphBreak {t : Text} (hr : s.input.rest = '\n' :: t) : BlockRule s s.paragraphBreak
  | hashRule {t : Text} (hr : s.input.rest = '#' :: t) : BlockRule s s.hashRule
  | openFence (hr : s.input.startsWith fence) : BlockRule s s.openFence
  | item {blanks t : Text} {marker : Marker} (hr : s.input.rest = blanks ++ t)
      (hb : ∀ c ∈ blanks, isIndent c) (hm : marker? t = some marker) : BlockRule s
        ({ s with input := s.input.advance (blanks.length + marker.width) }.release.andThen
          (placeItem marker (indentWidth blanks)))

/-- What is put into the running text for a part of the text. -/
inductive Taken : Text → List Piece → Prop
  | plain (t : Text) : Taken t (t.map .char)
  | mark {t : Text} (x : FontMark) (h : ∀ c ∈ t, c = '*' ∨ c = '_') : Taken t [.mark x]
  | code {code : Text} (h : codeMark ∉ code) :
      Taken (codeMark :: (code ++ [codeMark])) (codePieces code)

/-- The rules for running text: most of them put something into it and raise nothing. -/
inductive TextRule (s : State) : Move → Prop
  | underline {t : Text} (hr : s.input.rest = '\n' :: t) (hu : isUnderline (firstLine t)) :
      TextRule s { s with
        input := (s.input.advance 1).splitLine.2, freshLine := true : State }.underlined
  | join {t : Text} (hr : s.input.rest = '\n' :: t) : TextRule s (.silent { s with
      input := s.input.advance 1, freshLine := true,
      buffer := (s.buffer.push [.char ' ']).markLine })
  | push {n : Nat} {pieces : List Piece} {bold italic : Bool}
      (h : Taken (s.input.rest.take n) pieces) : TextRule s (.silent { s.push pieces with
        input := s.input.advance n, bold := bold, italic := italic })
  | link {lead t label target : Text} (hr : s.input.rest = lead ++ '[' :: t)
      (hl : lead = [] ∨ lead = ['!']) (hb : linkBody? t = some (label, target)) : TextRule s
        ({ s with
          input := s.input.advance (lead.length + 1 + linkBodyWidth label target) }.release.andThen
            (announce [linkEvent label target]))

/-- All rules, with the states in which they apply. -/
inductive Rule (s : State) : Move → Prop
  | fencedLine (hf : s.inFence = true) : Rule s s.fencedLine
  | backslash {t : Text} (hf : s.inFence = false) (hr : s.input.rest = '\\' :: t) :
      Rule s s.backslash
  | block {m : Move} (hf : s.inFence = false) (hl : s.freshLine = true)
      (hm : BlockRule s.midLine m) : Rule s m
  | text {m : Move} (hf : s.inFence = false) (hm : TextRule s.midLine m) : Rule s m

theorem lineEnd_of_underline {s : State} (h : s.input.lineBelow?.any isUnderline) : s.lineEnd =
    { s with input := (s.input.advance 1).splitLine.2, freshLine := true : State }.underlined :=
  if_pos h

theorem lineEnd_of_not_underline {s : State} (h : ¬ s.input.lineBelow?.any isUnderline) :
    s.lineEnd = .silent { s with
      input := s.input.advance 1, freshLine := true,
      buffer := (s.buffer.push [.char ' ']).markLine } :=
  if_neg h

theorem blockRule?_of_newline {s : State} {t : Text} (hr : s.input.rest = '\n' :: t) :
    s.blockRule? = some s.paragraphBreak := by simp [blockRule?, hr]

theorem blockRule?_of_hash {s : State} {t : Text} (hr : s.input.rest = '#' :: t) :
    s.blockRule? = some s.hashRule := by simp [blockRule?, hr]

theorem blockRule?_of_other {s : State} {c : Char} {t : Text} (hr : s.input.rest = c :: t)
    (hn : c ≠ '\n') (hh : c ≠ '#') : s.blockRule? =
      if s.input.startsWith fence then some s.openFence else s.item? := by
  rw [blockRule?, hr]
  split
  · simp_all
  · simp_all
  · rfl

theorem fencedLine_of_fence {s : State} (h : s.input.startsWith fence) : s.fencedLine =
    State.announce [.fenceClose]
      { s with input := s.input.splitLine.2, inFence := false, freshLine := true } :=
  if_pos h

theorem fencedLine_of_not_fence {s : State} (h : ¬ s.input.startsWith fence) : s.fencedLine =
    State.announce [.fenceLine s.input.splitLine.1] { s with input := s.input.splitLine.2 } :=
  if_neg h

theorem item?_eq {s : State} {blanks : Text}
    (h : (if s.lists.isEmpty then [] else s.input.rest.takeWhile isIndent) = blanks) :
    s.item? = (marker? (s.input.rest.drop blanks.length)).map fun marker =>
      { s with input := s.input.advance (blanks.length + marker.width) }.release.andThen
        (placeItem marker (indentWidth blanks)) := by
  subst h
  rfl

/-- Apart from newlines, hashes and fences, only the markers of items begin a block. -/
theorem blockRule?_eq_item? {s : State} {c : Char} {t : Text} (hr : s.input.rest = c :: t)
    (hn : c ≠ '\n') (hh : c ≠ '#') (hc : c ≠ codeMark) : s.blockRule? = s.item? := by
  have hfence : s.input.startsWith fence = false := by
    rw [Bool.eq_false_iff]
    intro h
    obtain ⟨u, hu⟩ := List.isPrefixOf_iff_prefix.1 h
    rw [hr] at hu
    exact hc (List.cons.inj hu).1.symm
  rw [blockRule?_of_other hr hn hh, hfence]
  rfl

/-- Where no list is open, no blanks can stand before a marker. -/
theorem blockRule?_eq_none {s : State} {c : Char} {t : Text} (hr : s.input.rest = c :: t)
    (hn : c ≠ '\n') (hh : c ≠ '#') (hc : c ≠ codeMark) (hmarker : marker? (c :: t) = none)
    (hl : s.lists.isEmpty) : s.blockRule? = none := by
  rw [blockRule?_eq_item? hr hn hh hc, item?_eq (if_pos hl), hr, List.length_nil, List.drop_zero,
    hmarker, Option.map_none]

/-- The blanks and the marker of an item, and what it does. -/
theorem exists_marker_of_item? {s : State} {m : Move} (h : s.item? = some m) :
    ∃ blanks t marker, s.input.rest = blanks ++ t ∧ (∀ c ∈ blanks, isIndent c) ∧
      marker? t = some marker ∧
      m = ({ s with input := s.input.advance (blanks.length + marker.width) }.release.andThen
        (placeItem marker (indentWidth blanks))) := by
  obtain ⟨marker, hm, rfl⟩ := Option.map_eq_some_iff.1 h
  by_cases he : s.lists.isEmpty
  · simp only [he, if_true] at hm ⊢
    exact ⟨[], _, marker, rfl, by simp, hm, rfl⟩
  · simp only [he, Bool.false_eq_true, if_false] at hm ⊢
    rw [drop_length_takeWhile] at hm
    exact ⟨_, _, marker, List.takeWhile_append_dropWhile.symm,
      List.all_eq_true.1 List.all_takeWhile, hm, rfl⟩

theorem blockRule_of_item? {s : State} {m : Move} (h : s.item? = some m) : BlockRule s m := by
  obtain ⟨blanks, t, marker, hr, hb, hm, rfl⟩ := exists_marker_of_item? h
  exact .item hr hb hm

theorem blockRule_of_blockRule? {s : State} {m : Move} (h : s.blockRule? = some m) :
    BlockRule s m := by
  unfold blockRule? at h
  split at h
  · cases h
    exact .paragraphBreak ‹_›
  · cases h
    exact .hashRule ‹_›
  · split at h
    · cases h
      exact .openFence ‹_›
    · exact blockRule_of_item? h

theorem textRule_of_lineEnd {s : State} {t : Text} (hr : s.input.rest = '\n' :: t) :
    TextRule s s.lineEnd := by
  by_cases h : s.input.lineBelow?.any isUnderline
  · rw [lineEnd_of_underline h]
    rw [Zipper.lineBelow?, hr] at h
    exact .underline hr h
  · rw [lineEnd_of_not_underline h]
    exact .join hr

theorem textRule_of_boldMark {s : State} {c : Char} {t : Text} (hr : s.input.rest = c :: c :: t)
    (hc : c = '*' ∨ c = '_') : TextRule s s.boldMark := by
  have ht : ∀ x ∈ s.input.rest.take 2, x = '*' ∨ x = '_' := by simpa [hr] using hc
  unfold boldMark
  split
  · exact .push (.mark _ ht)
  · split
    · exact .push (.mark _ ht)
    · exact .push (.plain _)

theorem textRule_of_italicMark {s : State} {c : Char} {t : Text} (hr : s.input.rest = c :: t)
    (hc : c = '*' ∨ c = '_') : TextRule s s.italicMark := by
  have ht : ∀ x ∈ s.input.rest.take 1, x = '*' ∨ x = '_' := by simpa [hr] using hc
  unfold italicMark
  split
  · exact .push (.mark _ ht)
  · split
    · exact .push (.mark _ ht)
    · exact .push (.plain _)

theorem textRule_of_inlineCode {s : State} {m : Move} {t : Text}
    (hr : s.input.rest = codeMark :: t) (h : s.inlineCode = .ok m) : TextRule s m := by
  unfold inlineCode at h
  rw [hr, List.drop_one, List.tail_cons] at h
  split at h
  · contradiction
  · rename_i code after hsp
    obtain ⟨rfl, hc⟩ := splitAtFirst_eq_some_iff.1 hsp
    have ht : s.input.rest.take (code.length + 2) = codeMark :: (code ++ [codeMark]) := by
      have he : s.input.rest = codeMark :: (code ++ [codeMark]) ++ after := by simp [hr]
      rw [he]
      exact List.take_left' (by simp)
    cases h
    refine .push ?_
    rw [ht]
    exact .code hc

theorem textRule_of_bracket {s : State} {lead t : Text} (hr : s.input.rest = lead ++ '[' :: t)
    (hl : lead = [] ∨ lead = ['!']) : TextRule s (s.bracket lead.length) := by
  have hd : s.input.rest.drop (lead.length + 1) = t := by
    rw [hr, ← List.drop_drop, List.drop_left]
    rfl
  unfold bracket
  rw [hd]
  split
  · exact .link hr hl ‹_›
  · exact .push (.plain _)

theorem textRule_of_textRule {s : State} {m : Move} (h : s.textRule = .ok m)
    (hs : s.input.rest ≠ []) : TextRule s m := by
  unfold textRule at h
  split at h
  · contradiction
  rename_i c t hr
  split at h
  · subst c
    cases h
    exact textRule_of_lineEnd hr
  split at h
  · rename_i hc
    cases h
    split
    · rename_i ht
      obtain ⟨t, rfl⟩ := List.head?_eq_some_iff.1 ht
      exact textRule_of_boldMark hr hc
    · exact textRule_of_italicMark hr hc
  split at h
  · subst c
    exact textRule_of_inlineCode hr h
  split at h
  · subst c
    cases h
    exact @textRule_of_bracket s [] t hr (.inl rfl)
  split at h
  · rename_i hc
    obtain ⟨rfl, ht⟩ := hc
    obtain ⟨t, rfl⟩ := List.head?_eq_some_iff.1 ht
    cases h
    exact @textRule_of_bracket s ['!'] t hr (.inr rfl)
  · cases h
    refine .push (n := 1) ?_
    rw [hr]
    exact .plain [c]

/-- **Every step follows a rule.** -/
theorem rule_of_step {s : State} {m : Move} (hs : s.input.rest ≠ []) (h : s.step = .ok m) :
    Rule s m := by
  unfold step at h
  split at h
  · cases h
    exact .fencedLine ‹_›
  rename_i hf
  rw [Bool.not_eq_true] at hf
  split at h
  · rename_i hc
    cases h
    obtain ⟨t, ht⟩ := List.head?_eq_some_iff.1 hc
    exact .backslash hf ht
  split at h
  · split at h
    · cases h
      exact .block hf ‹_› (blockRule_of_blockRule? ‹_›)
    · exact .text hf (textRule_of_textRule h hs)
  · rename_i hl
    rw [Bool.not_eq_true] at hl
    rw [← midLine_eq_self hl] at h
    exact .text hf (textRule_of_textRule h hs)

/-! ## Where a step leads -/

theorem exists_advance_of_blockRule {s : State} {m : Move} (h : BlockRule s m) :
    ∃ n, m.next.input = s.input.advance n := by
  cases h with
  | paragraphBreak => exact ⟨1, input_paragraphBreak s⟩
  | hashRule => exact ⟨_, input_hashRule s⟩
  | openFence => exact ⟨_, input_openFence s⟩
  | item => exact ⟨_, by rw [Move.next_andThen, input_placeItem, next_release]⟩

theorem exists_advance_of_textRule {s : State} {m : Move} (h : TextRule s m) :
    ∃ n, m.next.input = s.input.advance n := by
  cases h with
  | underline =>
    rw [underlined, Move.next_andThen, next_raise, next_release]
    exact ⟨_, Zipper.advance_advance 1 _ s.input⟩
  | join => exact ⟨1, rfl⟩
  | push => exact ⟨_, rfl⟩
  | link => exact ⟨_, by rw [Move.next_andThen, next_announce, next_release]⟩

theorem exists_advance_of_rule {s : State} {m : Move} (h : Rule s m) :
    ∃ n, m.next.input = s.input.advance n := by
  cases h with
  | fencedLine => exact ⟨_, input_fencedLine s⟩
  | backslash => exact ⟨2, rfl⟩
  | block _ _ hm => exact exists_advance_of_blockRule (s := s.midLine) hm
  | text _ hm => exact exists_advance_of_textRule (s := s.midLine) hm

/-- Reading only moves forward in the text. -/
theorem Reads.exists_advance {s : State} {m : Move} (h : Reads s m) :
    ∃ n, m.next.input = s.input.advance n := by
  induction h with
  | stop s => exact ⟨0, s.input.advance_zero.symm⟩
  | step hs hm _ ih =>
    obtain ⟨k, hk⟩ := exists_advance_of_rule (rule_of_step hs hm)
    obtain ⟨n, hn⟩ := ih
    exact ⟨k + n, by rw [Move.next_andThen, hn, hk, Zipper.advance_advance]⟩

/-! ## Where reading fails -/

theorem textRule_eq_error_iff {s : State} (hs : s.input.rest ≠ []) {e : UnclosedCode} :
    s.textRule = .error e ↔ e = ⟨s.input.position⟩ ∧
      ∃ t, s.input.rest = codeMark :: t ∧ codeMark ∉ t := by
  obtain ⟨c, t, hr⟩ := List.exists_cons_of_ne_nil hs
  simp only [textRule, hr]
  by_cases hc : c = codeMark
  · subst hc
    rw [if_neg (by decide), if_neg (by decide), if_pos rfl, inlineCode, hr, List.drop_one,
      List.tail_cons]
    cases hsp : splitAtFirst codeMark t with
    | none =>
      rw [splitAtFirst_eq_none_iff] at hsp
      constructor
      · rintro ⟨⟩
        exact ⟨rfl, t, rfl, hsp⟩
      · rintro ⟨rfl, -⟩
        rfl
    | some p =>
      constructor
      · nofun
      · rintro ⟨-, t', ht, hn⟩
        cases ht
        rw [splitAtFirst_eq_none_iff.2 hn] at hsp
        contradiction
  · constructor
    · intro h
      rw [if_neg hc] at h
      repeat' split at h
      all_goals cases h
    · rintro ⟨-, t', ht, -⟩
      cases ht
      contradiction

/-- A code mark begins no item of a list. -/
theorem item?_of_codeMark {s : State} {t : Text} (hr : s.input.rest = codeMark :: t) :
    s.item? = none := by
  have hb : (if s.lists.isEmpty then [] else s.input.rest.takeWhile isIndent) = [] := by
    rw [hr]
    split <;> rfl
  rw [item?_eq hb, hr]
  rfl

theorem blockRule?_of_codeMark {s : State} {t : Text} (hr : s.input.rest = codeMark :: t)
    (ht : codeMark ∉ t) : s.blockRule? = none := by
  have hf : s.input.startsWith fence = false := by
    rw [Bool.eq_false_iff]
    intro h
    obtain ⟨u, hu⟩ := List.isPrefixOf_iff_prefix.1 h
    rw [hr] at hu
    cases hu
    exact ht List.mem_cons_self
  rw [blockRule?_of_other hr (by decide) (by decide), hf, item?_of_codeMark hr]
  rfl

/-- **A step fails only at the last code mark of the text**, outside of fenced blocks. -/
theorem step_eq_error_iff {s : State} (hs : s.input.rest ≠ []) {e : UnclosedCode} :
    s.step = .error e ↔ s.inFence = false ∧ e = ⟨s.input.position⟩ ∧
      ∃ t, s.input.rest = codeMark :: t ∧ codeMark ∉ t := by
  rw [step_eq]
  by_cases hf : s.inFence
  · rw [if_pos hf]
    constructor
    · intro h
      cases h
    · rintro ⟨hf', -⟩
      rw [hf] at hf'
      contradiction
  rw [if_neg hf, and_iff_right (Bool.eq_false_iff.2 hf)]
  by_cases hn : s.input.next? = some '\\'
  · rw [if_pos hn]
    constructor
    · intro h
      cases h
    · rintro ⟨-, t, hr, -⟩
      rw [Zipper.next?, hr] at hn
      cases hn
  rw [if_neg hn]
  by_cases hl : s.freshLine
  · rw [if_pos hl]
    -- A rule for lines never fails, and none begins with a code mark that is the last one.
    have ht := textRule_eq_error_iff (s := s.midLine) hs (e := e)
    cases hb : s.midLine.blockRule? with
    | none => exact ht
    | some m =>
      constructor
      · intro h
        cases h
      · rintro ⟨-, t, hr, hc⟩
        rw [blockRule?_of_codeMark (s := s.midLine) hr hc] at hb
        contradiction
  · rw [if_neg hl]
    exact textRule_eq_error_iff hs

end State

/-! ## Moves that concern the lists alone -/

/-- Whether an event of lists or items. -/
def Event.isOfList : Event → Bool
  | .listOpen _ | .itemOpen | .itemClose | .listClose => true
  | _ => false

namespace State

/-- A move that is decided by the open lists, changes nothing else of the state, and raises events
of one kind but no running text. -/
structure OnLists (P : Event → Prop) (f : State → Move) : Prop where
  frame : ∀ s t : State, s.lists = t.lists →
    f s = ⟨(f t).raised, (f t).warnings, { s with lists := (f t).next.lists }⟩
  events : ∀ s, ∀ r ∈ (f s).raised, ∃ e, r.item = .event e ∧ P e

variable {P Q : Event → Prop} {f g : State → Move}

theorem OnLists.next_eq (h : OnLists P f) (s : State) :
    (f s).next = { s with lists := (f s).next.lists } := by
  conv => lhs; rw [h.frame s s rfl]

theorem OnLists.item_eq (h : OnLists P f) (s : State) :
    ∀ r ∈ (f s).raised, ∃ e, r.item = .event e := by
  intro r hr
  obtain ⟨e, he, -⟩ := h.events s r hr
  exact ⟨e, he⟩

theorem OnLists.mono (h : OnLists P f) (hPQ : ∀ e, P e → Q e) : OnLists Q f where
  frame := h.frame
  events := by
    intro s r hr
    obtain ⟨e, he, hP⟩ := h.events s r hr
    exact ⟨e, he, hPQ e hP⟩

/-- Such a move does not mind a change of the rest of the state. -/
theorem OnLists.map (h : OnLists P f) {g : State → State}
    (hl : ∀ s : State, (g s).lists = s.lists)
    (hg : ∀ (s : State) (l : OpenLists), g { s with lists := l } = { g s with lists := l })
    (s : State) : f (g s) = ⟨(f s).raised, (f s).warnings, g (f s).next⟩ := by
  rw [h.frame (g s) s (hl s)]
  conv => rhs; rw [h.next_eq s, hg]

theorem OnLists.andThen (hf : OnLists P f) (hg : OnLists P g) :
    OnLists P fun s => (f s).andThen g where
  frame := by
    intro s t h
    have hn : (f s).next = { s with lists := (f t).next.lists } := by rw [hf.frame s t h]
    have hl : (f s).next.lists = (f t).next.lists := by rw [hn]
    simp only [Move.andThen]
    rw [hg.frame _ _ hl, hn, hf.frame s t h]
  events := by
    intro s r hr
    rcases List.mem_append.1 hr with hr | hr
    · exact hf.events s r hr
    · exact hg.events _ r hr

theorem onLists_silent : OnLists P .silent where
  frame := by
    intro s t h
    simp [Move.silent, ← h]
  events := fun _ _ hr => absurd hr List.not_mem_nil

theorem onLists_announce {events : List Event} (h : ∀ e ∈ events, P e) :
    OnLists P (announce events) where
  frame := by
    intro s t h
    simp [announce, raise, ← h]
  events := by
    intro s r hr
    simp only [announce, raise, List.map_map, List.mem_map] at hr
    obtain ⟨e, he, rfl⟩ := hr
    exact ⟨e, rfl, h e he⟩

theorem onLists_warn (w : Warning) : OnLists P (warn w) where
  frame := by
    intro s t h
    simp [warn, ← h]
  events := fun _ _ hr => absurd hr List.not_mem_nil

/-- Changing the lists by a function of them. -/
theorem onLists_change (f : OpenLists → OpenLists) :
    OnLists P fun s => .silent { s with lists := f s.lists } where
  frame := by
    intro s t h
    simp [Move.silent, h]
  events := fun _ _ hr => absurd hr List.not_mem_nil

theorem onLists_change_announce (f : OpenLists → OpenLists) {events : List Event}
    (h : ∀ e ∈ events, P e) : OnLists P fun s => announce events { s with lists := f s.lists } := by
  simpa using (onLists_change f).andThen (onLists_announce h)

/-- A choice between such moves that the lists decide is such a move. -/
theorem onLists_of_lists {f : OpenLists → State → Move} (h : ∀ l, OnLists P (f l)) :
    OnLists P fun s => f s.lists s where
  frame := by
    intro s t he
    simp only [he]
    exact (h t.lists).frame s t he
  events := fun s => (h s.lists).events s

theorem onLists_closeInnermost : OnLists (·.isOfList) closeInnermost :=
  (onLists_announce (by decide)).andThen (onLists_change _)

theorem onLists_closeMany (n : Nat) : OnLists (·.isOfList) (closeMany n) := by
  induction n with
  | zero => exact onLists_silent
  | succ n ih => exact onLists_closeInnermost.andThen ih

theorem onLists_closeAll : OnLists (·.isOfList) fun s => s.closeMany s.lists.depth :=
  onLists_of_lists fun l => onLists_closeMany l.depth

theorem onLists_nextItem : OnLists (·.isOfList) nextItem :=
  (onLists_announce (by decide)).andThen (onLists_change_announce OpenLists.countItem (by decide))

/-- What a line that is empty does to the lists. -/
theorem onLists_breakList : OnLists (fun e => e.isOfList ∨ e = .paragraphEnd) fun s : State =>
    (if s.lists.isEmpty then Move.silent s else s.closeInnermost).andThen
      (announce [.paragraphEnd]) := by
  refine OnLists.andThen ?_ (onLists_announce (by simp))
  refine onLists_of_lists (f := fun l s => if l.isEmpty then .silent s else s.closeInnermost) ?_
  intro l
  split
  · exact onLists_silent
  · exact onLists_closeInnermost.mono fun _ => .inl

theorem placeItem_eq (marker : Marker) (indent : Nat) (s : State) : s.placeItem marker indent =
    (s.closeMany (s.lists.deeperThan indent)).andThen fun s =>
      if s.lists.innermost?.all fun o => o.indent < indent then
        (s.lists.opened? ⟨marker.style, marker.number, indent⟩).elim
          ((s.warn .tooDeep).andThen nextItem)
          fun lists => { s with lists := lists }.announce [.listOpen marker.style, .itemOpen]
      else s.nextItem := by
  unfold placeItem
  congr 1
  funext t
  cases t.lists.opened? ⟨marker.style, marker.number, indent⟩ <;> rfl

theorem onLists_placeItem (marker : Marker) (indent : Nat) :
    OnLists (·.isOfList) (placeItem marker indent) := by
  have hplace (l : OpenLists) : OnLists (·.isOfList) fun s =>
      if l.innermost?.all fun o => o.indent < indent then
        (l.opened? ⟨marker.style, marker.number, indent⟩).elim ((s.warn .tooDeep).andThen nextItem)
          fun lists => { s with lists := lists }.announce [.listOpen marker.style, .itemOpen]
      else s.nextItem := by
    split
    · cases l.opened? ⟨marker.style, marker.number, indent⟩ with
      | some lists => exact onLists_change_announce (fun _ => lists) (by simp [Event.isOfList])
      | none => exact (onLists_warn _).andThen onLists_nextItem
    · exact onLists_nextItem
  -- What is placed depends on the lists that are left when the deeper ones are closed.
  have hplaced := onLists_of_lists hplace
  rw [funext (placeItem_eq marker indent)]
  exact onLists_of_lists fun l => (onLists_closeMany (l.deeperThan indent)).andThen hplaced

/-! ## Fenced blocks -/

theorem inFence_paragraphBreak (s : State) : s.paragraphBreak.next.inFence = s.inFence := by
  have h := onLists_breakList.next_eq
  rw [paragraphBreak, Move.next_andThen, h, next_release]

theorem inFence_placeItem (marker : Marker) (indent : Nat) (s : State) :
    (s.placeItem marker indent).next.inFence = s.inFence := by
  rw [(onLists_placeItem marker indent).next_eq s]

theorem inFence_of_textRule {s : State} {m : Move} (h : TextRule s m) :
    m.next.inFence = s.inFence := by
  cases h with
  | underline => rw [underlined, Move.next_andThen, next_raise, next_release]
  | join => rfl
  | push => rfl
  | link => rw [Move.next_andThen, next_announce, next_release]

/-- Inside of a fenced block no running text waits. -/
def FenceIsBare (s : State) : Prop := s.inFence = true → s.buffer.all = []

theorem fenceIsBare_of_not {s : State} (h : s.inFence = false) : s.FenceIsBare := by
  intro hf
  rw [h] at hf
  contradiction

theorem fenceIsBare_of_blockRule {s : State} {m : Move} (hf : s.inFence = false)
    (h : BlockRule s m) : m.next.FenceIsBare := by
  cases h with
  | paragraphBreak => exact fenceIsBare_of_not ((inFence_paragraphBreak s).trans hf)
  | hashRule => exact fenceIsBare_of_not (by simp [hashRule, next_release, hf])
  | openFence =>
    intro _
    simp [openFence, next_release]
  | item =>
    refine fenceIsBare_of_not ?_
    rw [Move.next_andThen, inFence_placeItem, next_release]
    exact hf

theorem fenceIsBare_of_rule {s : State} {m : Move} (hb : s.FenceIsBare) (h : Rule s m) :
    m.next.FenceIsBare := by
  cases h with
  | fencedLine =>
    by_cases h : s.input.startsWith fence
    · rw [fencedLine_of_fence h]
      exact fenceIsBare_of_not rfl
    · rw [fencedLine_of_not_fence h]
      exact hb
  | backslash hf => exact fenceIsBare_of_not hf
  | block hf _ hm => exact fenceIsBare_of_blockRule (s := s.midLine) hf hm
  | text hf hm => exact fenceIsBare_of_not ((inFence_of_textRule hm).trans hf)

theorem Reads.fenceIsBare {s : State} {m : Move} (h : Reads s m) (hb : s.FenceIsBare) :
    m.next.FenceIsBare := by
  induction h with
  | stop s => exact hb
  | step hs hm _ ih => exact ih (fenceIsBare_of_rule hb (rule_of_step hs hm))

end State

/-! ## What the rules raise -/

theorem Signal.event?_text (mk : Markup) (pieces : List Piece) :
    (Signal.text pieces).event? mk = if collapse (expand mk pieces) = [] then none
      else some (.text (collapse (expand mk pieces))) := by
  simp only [event?]
  split <;> simp_all

theorem Signal.event?_title (mk : Markup) (pieces : List Piece) :
    (Signal.title pieces).event? mk = if collapse (expand mk pieces) = [] then none
      else some (.heading .major (collapse (expand mk pieces))) := by
  simp only [event?]
  split <;> simp_all

theorem Raised.events_singleton (mk : Markup) (signal : Signal) (l : OpenLists) :
    Raised.events mk [⟨signal, l⟩] = ((signal.event? mk).map fun e => ⟨e, l⟩).toList := by
  simp only [Raised.events, List.filterMap_cons]
  cases signal.event? mk <;> rfl

@[simp] theorem Raised.events_announce (mk : Markup) (events : List Event) (s : State) :
    Raised.events mk (s.announce events).raised = events.map fun e => ⟨e, s.lists⟩ := by
  simp [Raised.events, State.announce, State.raise, Signal.event?, Function.comp_def]

/-- Running text is released as if it were raised even when there is none. -/
theorem Raised.events_release (mk : Markup) (s : State) :
    Raised.events mk s.release.raised = Raised.events mk [⟨.text s.buffer.all, s.lists⟩] := by
  unfold State.release
  split
  · rename_i h
    simp [Raised.events, Signal.event?, h]
  · rename_i h
    simp [State.raise, Move.andThen, Move.silent]

end Roffdown
