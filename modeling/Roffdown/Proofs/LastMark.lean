import Roffdown.Proofs.Splicing

/-!
# Inline code that is never closed

Reading fails only at a code mark with no other after it, so the error tells where the last code
mark of the document is.  One more mark at the end of the document closes that inline code.  Above
it nothing changes: a step that stops before the last code mark looks beyond it only for a bracket
that closes a link and for a line that underlines a title, and finds neither in a code mark.

* `Zipper.exists_position`: lines and columns, counted in the text above.
* `State.keeps_step`: the step that is taken with one more code mark at the end.
* `State.reads_within_mark`: a reading that stops before the last code mark.
* `Zipper.fails_at_last_mark`: where reading fails, and what a code mark at the end does.
-/

namespace Roffdown

open Markdown Text
open State (Reads)

/-! ## Text with one more code mark -/

namespace Text

variable {c : Char} {t u : Text}

/-- One more character completes nothing but what is all of the text and that character. -/
theorem exists_append_singleton_iff (hu : u ≠ t ++ [c]) :
    (∃ after, t ++ [c] = u ++ after) ↔ ∃ after, t = u ++ after := by
  constructor
  · rintro ⟨after, h⟩
    rcases List.eq_nil_or_concat after with rfl | ⟨v, d, rfl⟩
    · rw [List.append_nil] at h
      exact absurd h.symm hu
    · rw [List.concat_eq_append, ← List.append_assoc] at h
      exact ⟨v, (List.append_inj' h rfl).1⟩
  · rintro ⟨after, rfl⟩
    exact ⟨after ++ [c], List.append_assoc ..⟩

end Text

namespace Markdown

variable {t : Text}

theorem mem_of_isUnderline {line : Text} (h : isUnderline line) {d : Char} (hd : d ∈ line) :
    isBlank d ∨ d = '=' ∨ d = '-' ∨ d = '*' := by
  have hsplit := List.takeWhile_append_dropWhile (p := isBlank) (l := line.reverse)
  rw [← List.mem_reverse, ← hsplit, List.mem_append] at hd
  rcases hd with hd | hd
  · exact .inl (List.all_eq_true.1 List.all_takeWhile d hd)
  right
  unfold isUnderline at h
  split at h
  · cases h
  · rename_i c u hu
    rw [trimEnd, List.reverse_eq_iff] at hu
    simp only [Bool.and_eq_true, Bool.or_eq_true, beq_iff_eq, List.all_eq_true, or_assoc] at h
    obtain ⟨⟨hc, -⟩, hall⟩ := h
    rw [hu, List.mem_reverse] at hd
    rcases List.mem_cons.1 hd with rfl | hd
    · exact hc
    · rwa [hall d hd]

theorem not_isUnderline_of_codeMark_mem {line : Text} (h : codeMark ∈ line) :
    ¬ isUnderline line := by
  intro hu
  have := mem_of_isUnderline hu h
  revert this
  decide

/-- A code mark closes no link. -/
theorem linkBody?_append_mark (t : Text) : linkBody? (t ++ [codeMark]) = linkBody? t := by
  refine Option.ext fun ⟨label, target⟩ => ?_
  rw [linkBody?_eq_some_iff, linkBody?_eq_some_iff]
  refine and_congr_left fun _ => ?_
  have hu : label ++ ']' :: '(' :: target ++ [')'] ≠ t ++ [codeMark] := by
    intro h
    have hlast := (List.append_inj' h rfl).2
    revert hlast
    decide
  simpa using exists_append_singleton_iff hu

/-- A code mark completes a fence only after two others. -/
theorem isPrefixOf_append_mark (h : t ≠ [codeMark, codeMark]) :
    fence.isPrefixOf (t ++ [codeMark]) = fence.isPrefixOf t := by
  have hu : fence ≠ t ++ [codeMark] := by
    intro hf
    exact h (List.append_inj' (show [codeMark, codeMark] ++ [codeMark] = _ from hf) rfl).1.symm
  have hiff := exists_append_singleton_iff hu
  rw [Bool.eq_iff_iff, List.isPrefixOf_iff_prefix, List.isPrefixOf_iff_prefix]
  constructor
  · rintro ⟨after, ha⟩
    obtain ⟨v, hv⟩ := hiff.1 ⟨after, ha.symm⟩
    exact ⟨v, hv.symm⟩
  · exact fun hp => hp.trans (List.prefix_append t _)

end Markdown

/-! ## The step -/

/-- A line after which something is left is ended by a newline. -/
theorem Zipper.newline_mem_of_splitLine {z : Zipper} (h : z.splitLine.2.rest ≠ []) :
    '\n' ∈ z.rest := by
  rcases eq_firstLine_or z.rest with hz | ⟨u, hz⟩
  · rw [splitLine, rest_advance, restOfLine, ← hz, List.drop_of_length_le (Nat.le_succ _)] at h
    contradiction
  · rw [hz]
    exact List.mem_append_right _ List.mem_cons_self

namespace State

variable {s : State} {m : Move}

theorem mem_rest_of_advance {c : Char} {n : Nat} (h : m.next.input = s.input.advance n)
    (hc : c ∈ m.next.input.rest) : c ∈ s.input.rest := by
  rw [h] at hc
  exact List.mem_of_mem_drop hc

theorem textRule_of_codeMark {t : Text} (hr : s.input.rest = codeMark :: t) :
    s.textRule = s.inlineCode := by
  rw [textRule, hr]
  rfl

/-- At the beginning of a line a code mark that opens no fence begins inline code. -/
theorem lineRule_of_codeMark {t : Text} (hr : s.input.rest = codeMark :: t)
    (hf : s.input.startsWith fence = false) :
    s.blockRule?.elim s.textRule .ok = s.inlineCode := by
  have hb : s.blockRule? = none := by
    rw [blockRule?_of_other hr (by decide) (by decide), hf, item?_of_codeMark hr]
    rfl
  rw [hb, Option.elim_none, textRule_of_codeMark hr]

/-- Two code marks at the end are inline code, though a third would make them a fence. -/
theorem rest_eq_nil_of_two_marks (hr : s.input.rest = [codeMark, codeMark])
    (h : s.blockRule?.elim s.textRule .ok = .ok m) : m.next.input.rest = [] := by
  have hf : s.input.startsWith fence = false := by
    rw [Zipper.startsWith, hr]
    rfl
  rw [lineRule_of_codeMark hr hf, inlineCode, hr] at h
  cases h
  change s.input.rest.drop 2 = []
  rw [hr]
  rfl

/-- A rule for lines that stops before a code mark does not mind one more at the end. -/
theorem blockRule?_within_mark (hmark : codeMark ∈ s.input.rest)
    (htwo : s.input.rest ≠ [codeMark, codeMark])
    (hnext : ∀ m, s.blockRule? = some m → codeMark ∈ m.next.input.rest) :
    (s.within [] [codeMark]).blockRule? = s.blockRule?.map (Move.within [] [codeMark]) := by
  have hs : s.input.rest ≠ [] := List.ne_nil_of_mem hmark
  obtain ⟨c, t, hr⟩ := List.exists_cons_of_ne_nil hs
  have hr' : (s.within [] [codeMark]).input.rest = c :: (t ++ [codeMark]) :=
    congrArg (· ++ [codeMark]) hr
  have hline {z : Zipper} (h : codeMark ∈ z.splitLine.2.rest) :
      [codeMark] = [] ∨ '\n' ∈ z.rest :=
    .inr (Zipper.newline_mem_of_splitLine (List.ne_nil_of_mem h))
  by_cases hn : c = '\n'
  · subst hn
    rw [blockRule?_of_newline hr, blockRule?_of_newline hr', paragraphBreak_within hs]
    rfl
  by_cases hh : c = '#'
  · subst hh
    have hz := hnext _ (blockRule?_of_hash hr)
    rw [input_hashRule] at hz
    rw [blockRule?_of_hash hr, blockRule?_of_hash hr', hashRule_within (hline hz)]
    rfl
  have hf : (s.within [] [codeMark]).input.startsWith fence = s.input.startsWith fence :=
    isPrefixOf_append_mark htwo
  have hb := blockRule?_of_other hr hn hh
  rw [blockRule?_of_other hr' hn hh, hf]
  by_cases h : s.input.startsWith fence
  · rw [if_pos h] at hb ⊢
    have hz := hnext _ hb
    rw [input_openFence] at hz
    rw [hb, openFence_within (hline hz)]
    rfl
  · rw [if_neg h] at hb ⊢
    rw [hb, item?_within (.inr ⟨codeMark, hmark, rfl⟩)]

/-- A step of running text moves over the character at the place. -/
theorem mark_mem_tail_of_textRule {c : Char} {t : Text} (hr : s.input.rest = c :: t)
    (h : s.textRule = .ok m) (hm : codeMark ∈ m.next.input.rest) : codeMark ∈ t := by
  have hs : s.input.rest ≠ [] := by simp [hr]
  obtain ⟨n, hn⟩ := exists_advance_of_textRule (textRule_of_textRule h hs)
  have hlt := length_rest_textRule h hs
  rw [hn, Zipper.rest_advance] at hm hlt
  cases n with
  | zero => exact absurd hlt (Nat.lt_irrefl _)
  | succ n =>
    rw [hr, List.drop_succ_cons] at hm
    exact List.mem_of_mem_drop hm

/-- A step that makes a move makes it with one more code mark at the end as well. -/
def Keeps (m : Move) (r' r : Except UnclosedCode Move) : Prop :=
  r = .ok m → r' = .ok (m.within [] [codeMark])

theorem keeps_of_eq {m' n n' : Move} (h : n' = n.within [] [codeMark]) :
    Keeps m' (.ok n') (.ok n) := by
  rintro ⟨⟩
  rw [h]

section

variable (hs : s.input.rest ≠ []) (hm : codeMark ∈ m.next.input.rest)

include hs hm

theorem keeps_textRule : Keeps m (s.within [] [codeMark]).textRule s.textRule := by
  intro h
  obtain ⟨c, t, hr⟩ := List.exists_cons_of_ne_nil hs
  have ht : codeMark ∈ t := mark_mem_tail_of_textRule hr h hm
  have hr' : (s.within [] [codeMark]).input.rest = c :: (t ++ [codeMark]) :=
    congrArg (· ++ [codeMark]) hr
  have hlen : s.input.rest.length = t.length + 1 := by rw [hr, List.length_cons]
  have hh : (t ++ [codeMark]).head? = t.head? := by
    obtain ⟨x, u, rfl⟩ := List.exists_cons_of_ne_nil (List.ne_nil_of_mem ht)
    rfl
  revert h
  change Keeps m _ _
  unfold textRule
  simp only [hr, hr', hh]
  refine rel_ite Iff.rfl (fun hc => keeps_of_eq ?_) fun _ => ?_
  · subst hc
    refine lineEnd_within hr ?_
    -- The line below ends before the last mark, or holds it and underlines nothing.
    by_cases hn : '\n' ∈ t
    · exact .inr (.inl hn)
    · have hn' : '\n' ∉ t ++ [codeMark] := by simpa [codeMark] using hn
      rw [firstLine_of_newline_not_mem hn, firstLine_of_newline_not_mem hn']
      exact .inr (.inr ⟨not_isUnderline_of_codeMark_mem ht,
        not_isUnderline_of_codeMark_mem (List.mem_append_left _ ht)⟩)
  refine rel_ite Iff.rfl (fun _ => keeps_of_eq ?_) fun _ => ?_
  · by_cases hd : t.head? = some c
    · obtain ⟨u, rfl⟩ := List.head?_eq_some_iff.1 hd
      rw [if_pos hd, if_pos hd]
      exact boldMark_within (.inl rfl) (by rw [hlen, List.length_cons]; omega)
    · rw [if_neg hd, if_neg hd]
      exact italicMark_within (.inl rfl) (by omega)
  refine rel_ite Iff.rfl (fun _ h => ?_) fun _ => ?_
  · exact carried_inlineCode hs m h (.inr (.inl (List.ne_nil_of_mem hm)))
  refine rel_ite Iff.rfl (fun _ => keeps_of_eq ?_) fun _ => ?_
  · exact bracket_within (by omega) (linkBody?_append_mark _)
  refine rel_ite Iff.rfl (fun hd => keeps_of_eq ?_) fun _ => keeps_of_eq ?_
  · obtain ⟨u, rfl⟩ := List.head?_eq_some_iff.1 hd.2
    exact bracket_within (by rw [hlen, List.length_cons]; omega) (linkBody?_append_mark _)
  · exact literal_within (.inr (by omega))

/-- At the beginning of a line a step that stops before a code mark does not mind one more. -/
theorem keeps_lineRule : Keeps m
    ((s.within [] [codeMark]).blockRule?.elim (s.within [] [codeMark]).textRule .ok)
    (s.blockRule?.elim s.textRule .ok) := by
  intro h
  have htwo : s.input.rest ≠ [codeMark, codeMark] := by
    intro hr
    rw [rest_eq_nil_of_two_marks hr h] at hm
    contradiction
  -- Whichever rule applies, it moves forward, so the mark that it leaves was there before.
  cases hb : s.blockRule? with
  | none =>
    rw [hb, Option.elim_none] at h
    obtain ⟨k, hk⟩ := exists_advance_of_textRule (textRule_of_textRule h hs)
    have hmark := mem_rest_of_advance hk hm
    rw [blockRule?_within_mark hmark htwo (by simp [hb]), hb]
    exact keeps_textRule hs hm h
  | some n =>
    obtain rfl : n = m := by simpa [hb] using h
    obtain ⟨k, hk⟩ := exists_advance_of_blockRule (blockRule_of_blockRule? hb)
    have hmark := mem_rest_of_advance hk hm
    rw [blockRule?_within_mark hmark htwo (by simpa [hb] using hm), hb]
    rfl

/-- **A step that stops before a code mark does not mind one more at the end.** -/
theorem keeps_step : Keeps m (s.within [] [codeMark]).step s.step := by
  rw [step_eq, step_eq]
  refine rel_ite Iff.rfl (fun _ => ?_) fun _ => ?_
  · rintro ⟨⟩
    rw [input_fencedLine] at hm
    have hn := Zipper.newline_mem_of_splitLine (List.ne_nil_of_mem hm)
    exact congrArg Except.ok (fencedLine_within (.inr hn))
  refine rel_ite ?_ (fun _ => ?_) fun _ => ?_
  · obtain ⟨c, t, hr⟩ := List.exists_cons_of_ne_nil hs
    have hr' : (s.within [] [codeMark]).input.rest = c :: (t ++ [codeMark]) :=
      congrArg (· ++ [codeMark]) hr
    rw [Zipper.next?, Zipper.next?, hr, hr']
    rfl
  · rintro ⟨⟩
    have hlt : 2 < s.input.rest.length := by
      refine Nat.lt_of_not_le fun hle => ?_
      change codeMark ∈ s.input.rest.drop 2 at hm
      rw [List.drop_of_length_le hle] at hm
      contradiction
    exact congrArg Except.ok (backslash_within (.inr (Nat.le_of_lt hlt)))
  refine rel_ite Iff.rfl (fun _ => ?_) fun _ => ?_
  · exact keeps_lineRule (s := s.midLine) hs hm
  · exact keeps_textRule hs hm

end

/-! ## Readings -/

/-- **A reading that stops before a code mark does not mind one more at the end.** -/
theorem reads_within_mark (h : Reads s m) (hm : codeMark ∈ m.next.input.rest) :
    Reads (s.within [] [codeMark]) (m.within [] [codeMark]) := by
  induction h with
  | stop s => exact .stop _
  | @step s m n hs hstep hn ih =>
    obtain ⟨k, hk⟩ := hn.exists_advance
    have hmark : codeMark ∈ m.next.input.rest := mem_rest_of_advance (m := n) hk hm
    have hne : (s.within [] [codeMark]).input.rest ≠ [] := List.append_ne_nil_of_left_ne_nil hs _
    exact .step hne (keeps_step hs hmark hstep) (ih hm)

/-- A code mark that opens no fence begins inline code, anywhere in a line. -/
theorem step_of_codeMark {t : Text} (hf : s.inFence = false) (hr : s.input.rest = codeMark :: t)
    (hfence : s.input.startsWith fence = false) :
    s.step = s.inlineCode ∨ s.step = s.midLine.inlineCode := by
  have hn : s.input.next? ≠ some '\\' := by
    rw [Zipper.next?, hr]
    intro h
    cases h
  rw [step_eq, if_neg (Bool.eq_false_iff.1 hf), if_neg hn]
  split
  · exact .inr (lineRule_of_codeMark (s := s.midLine) hr hfence)
  · exact .inl (textRule_of_codeMark hr)

/-- A code mark at the end closes the inline code that the last one before it opens. -/
theorem inlineCode_of_closed {t : Text} (hr : s.input.rest = codeMark :: (t ++ [codeMark]))
    (ht : codeMark ∉ t) : ∃ m, s.inlineCode = .ok m ∧ m.next.input.rest = [] := by
  have hsplit : splitAtFirst codeMark (t ++ [codeMark]) = some (t, []) :=
    splitAtFirst_eq_some_iff.2 ⟨rfl, ht⟩
  rw [inlineCode, hr, List.drop_one, List.tail_cons, hsplit]
  refine ⟨_, rfl, ?_⟩
  change s.input.rest.drop (t.length + 2) = []
  rw [hr, List.drop_of_length_le]
  simp

theorem exists_step_of_closed {t : Text} (hf : s.inFence = false)
    (hr : s.input.rest = codeMark :: (t ++ [codeMark])) (ht : codeMark ∉ t) :
    ∃ m, s.step = .ok m ∧ m.next.input.rest = [] := by
  have hfence : s.input.startsWith fence = false := by
    rw [Bool.eq_false_iff, Zipper.startsWith, hr, Ne, List.isPrefixOf_iff_prefix]
    intro hp
    cases t with
    | nil =>
      revert hp
      decide
    | cons c t =>
      rw [show fence = [codeMark, codeMark, codeMark] from rfl, List.cons_append,
        List.cons_prefix_cons, List.cons_prefix_cons] at hp
      rw [hp.2.1] at ht
      exact ht List.mem_cons_self
  rcases step_of_codeMark hf hr hfence with h | h
  · rw [h]
    exact inlineCode_of_closed hr ht
  · rw [h]
    exact inlineCode_of_closed (s := s.midLine) hr ht

end State

/-! ## The place of the error -/

/-- The line and column of a place, counted in the text above it. -/
theorem Zipper.exists_position (z : Zipper) : ∃ above line,
    z.before.reverse = above ++ line ∧ EndsLine above ∧ '\n' ∉ line ∧
      z.position = ⟨(above ++ line).count '\n' + 1, line.length + 1⟩ := by
  obtain ⟨above, hsplit, ha⟩ : ∃ above, z.before = firstLine z.before ++ above.reverse ∧
      EndsLine above := by
    rcases eq_firstLine_or z.before with h | ⟨u, h⟩
    · exact ⟨[], by simpa using h, .inl rfl⟩
    · exact ⟨u.reverse ++ ['\n'], by simpa using h, .inr List.getLast?_concat⟩
  have hb : z.before.reverse = above ++ (firstLine z.before).reverse := by
    conv => lhs; rw [hsplit, List.reverse_append, List.reverse_reverse]
  refine ⟨above, (firstLine z.before).reverse, hb, ha, ?_, ?_⟩
  · rw [List.mem_reverse]
    exact newline_not_mem_firstLine z.before
  · rw [← hb, List.count_reverse, List.length_reverse]
    rfl

/-- **Reading fails at the last code mark, and one more at the end closes it.**  The error tells the
line and column of the last code mark of the document, which is not before the place where reading
begins.  With a code mark at the end the document is read from there without an error, and what was
raised up to the error is raised first. -/
theorem Zipper.fails_at_last_mark {z : Zipper} {e : UnclosedCode} (h : z.trace.failure? = some e) :
    (∃ above line below, z.source = above ++ line ++ codeMark :: below ∧ codeMark ∉ below ∧
      z.before.length ≤ (above ++ line).length ∧ EndsLine above ∧ '\n' ∉ line ∧
      e.place = ⟨(above ++ line).count '\n' + 1, line.length + 1⟩) ∧
    (⟨z.before, z.rest ++ [codeMark]⟩ : Zipper).trace.failure? = none ∧
    ∀ mk : Markup, z.trace.events mk <+:
      (⟨z.before, z.rest ++ [codeMark]⟩ : Zipper).trace.events mk := by
  obtain ⟨m, hm, hne, herr, ht⟩ := exists_reads_of_failure h
  obtain ⟨hf, rfl, t, hr, hc⟩ := (State.step_eq_error_iff hne).1 herr
  constructor
  · obtain ⟨n, hn⟩ := hm.exists_advance
    obtain ⟨above, line, hb, habove, hline, hp⟩ := m.next.input.exists_position
    have hsource : z.source = m.next.input.source := by
      rw [hn, source_advance]
      rfl
    refine ⟨above, line, t, ?_, hc, ?_, habove, hline, hp⟩
    · rw [hsource, source, hb, hr]
    · rw [← hb, List.length_reverse, hn, before_advance, List.length_append]
      exact Nat.le_add_left _ _
  · have hz : z.within [] [codeMark] = ⟨z.before, z.rest ++ [codeMark]⟩ := by simp [within]
    have hmark : codeMark ∈ m.next.input.rest := by
      rw [hr]
      exact List.mem_cons_self
    have hm' : Reads (.initial ⟨z.before, z.rest ++ [codeMark]⟩) (m.within [] [codeMark]) := by
      rw [← hz]
      exact State.reads_within_mark hm hmark
    have hr' : (m.next.within [] [codeMark]).input.rest = codeMark :: (t ++ [codeMark]) :=
      congrArg (· ++ [codeMark]) hr
    obtain ⟨n, hn, hend⟩ := State.exists_step_of_closed (s := m.next.within _ _) hf hr' hc
    have hlast : Reads (.initial ⟨z.before, z.rest ++ [codeMark]⟩)
        ((m.within [] [codeMark]).andThen fun _ => n) :=
      hm'.snoc (List.append_ne_nil_of_left_ne_nil hne _) hn
    rw [trace_of_reads_to_end hlast hend, ht]
    refine ⟨rfl, fun mk => ?_⟩
    simp only [Trace.events, Move.raised_andThen, List.append_assoc, Raised.events_append]
    exact List.prefix_append _ _

/-- Inline code in the second line, after some that is closed. -/
theorem Zipper.fails_at_last_mark_second_line :
    let z : Zipper := ⟨"\né".toList, "``a`b".toList⟩
    let closed : Zipper := ⟨z.before, z.rest ++ [codeMark]⟩
    z.trace.failure? = some ⟨⟨2, 4⟩⟩ ∧
    (∃ above line below, z.source = above ++ line ++ codeMark :: below ∧ codeMark ∉ below ∧
      z.before.length ≤ (above ++ line).length ∧ EndsLine above ∧ '\n' ∉ line ∧
      (⟨2, 4⟩ : Position) = ⟨(above ++ line).count '\n' + 1, line.length + 1⟩) ∧
    closed.trace.failure? = none ∧
    ∀ mk : Markup, z.trace.events mk <+: closed.trace.events mk := by
  intro z closed
  have h : z.trace.failure? = some ⟨⟨2, 4⟩⟩ := by decide +kernel
  exact ⟨h, fails_at_last_mark h⟩

end Roffdown
