import Roffdown.Proofs.FlatBlocks
import Roffdown.Proofs.Lookahead

/-!
# Where an underline counts

An underline is recognised from the line above it: the newline of a line of running text looks at
the line below.  The newlines of other lines do not look, so an underline below an empty line, below
a header or below a fenced block is read as running text, and one of asterisks switches bold.

* `State.Finishes`: the states that read a newline outside of inline code, by the line it ends.
* `State.ReadsAsText`: what becomes of an underline that does not count.
* `State.underline_counts_below_text`: what each of these newlines does to an underline below it.
-/

namespace Roffdown

open Markdown Text
open State (Reads)

/-- The lines that end in a newline, by what reading does with it. -/
inductive LineKind
  | runningText
  | empty
  | hashes
  | fenceEnd
deriving DecidableEq

namespace State

/-- The next step reads the newline of a line, and the text below comes after it. -/
inductive Finishes (s : State) (below : Text) : LineKind → Prop
  | runningText (hf : s.inFence = false) (hl : s.freshLine = false)
      (hr : s.input.rest = '\n' :: below) : Finishes s below .runningText
  | empty (hf : s.inFence = false) (hl : s.freshLine = true)
      (hr : s.input.rest = '\n' :: below) : Finishes s below .empty
  | hashes {line : Text} (hf : s.inFence = false) (hl : s.freshLine = true)
      (hr : s.input.rest = '#' :: line ++ '\n' :: below) (hline : '\n' ∉ line) :
      Finishes s below .hashes
  | fenceEnd {after : Text} (hf : s.inFence = true)
      (hr : s.input.rest = fence ++ after ++ '\n' :: below) (hafter : '\n' ∉ after) :
      Finishes s below .fenceEnd

/-- A line is put into the running text as it stands, if it is one of `=` or `-`; one of `*`
switches bold. -/
structure ReadsAsText (s : State) (line : Text) : Prop where
  chars : line.head? ≠ some '*' → ∃ m, Reads s m ∧ m.raised = [] ∧ m.next = { s.midLine with
    input := s.input.advance line.length, buffer := s.buffer.push (line.map .char) }
  asterisks : line.head? = some '*' → ∃ m, s.step = .ok m ∧ m.raised = [] ∧
    m.next.bold = !s.bold ∧
    m.next.buffer = s.buffer.push [.mark (if s.bold then .styleOff else .boldOn)]

variable {s : State} {kind : LineKind} {below : Text}

/-! ## At the beginning of the line -/

/-- A text that begins with an underline has the same character twice. -/
theorem exists_cons_of_isUnderline {t : Text} (hu : isUnderline (firstLine t)) :
    ∃ c u, t = c :: c :: u ∧ (firstLine t).head? = some c ∧ (c = '=' ∨ c = '-' ∨ c = '*') := by
  obtain ⟨c, u, hline, hc⟩ := eq_of_isUnderline hu
  obtain ⟨v, hv⟩ : firstLine t <+: t := List.takeWhile_prefix _
  exact ⟨c, u ++ v, by rw [← hv, hline]; rfl, by rw [hline]; rfl, hc⟩

/-- No rule for the beginning of a line takes an underline. -/
theorem blockRule?_of_isUnderline (hu : isUnderline (firstLine s.input.rest)) :
    s.blockRule? = none := by
  obtain ⟨c, u, hr, -, hc⟩ := exists_cons_of_isUnderline hu
  have hblanks : (if s.lists.isEmpty then [] else s.input.rest.takeWhile isIndent) = [] := by
    rw [hr]
    split
    · rfl
    · rcases hc with rfl | rfl | rfl <;> rfl
  rw [blockRule?_eq_item? hr (by rcases hc with rfl | rfl | rfl <;> decide)
    (by rcases hc with rfl | rfl | rfl <;> decide)
    (by rcases hc with rfl | rfl | rfl <;> decide), item?_eq hblanks, List.length_nil,
    List.drop_zero, hr]
  rcases hc with rfl | rfl | rfl <;> rfl

theorem isPlainChar_of_blank {c : Char} (hb : isBlank c) (hn : c ≠ '\n') : isPlainChar c := by
  simp only [isBlank, Bool.or_eq_true, beq_iff_eq] at hb
  rcases hb with ((((rfl | rfl) | rfl) | rfl) | rfl) | rfl <;> first | decide | contradiction

/-- An underline that is not of asterisks stands for itself in running text. -/
theorem isPlainChar_of_mem_underline {line : Text} (hu : isUnderline line)
    (hstar : line.head? ≠ some '*') (hline : '\n' ∉ line) : ∀ c ∈ line, isPlainChar c := by
  obtain ⟨hc, hn, hblanks⟩ := isUnderline_iff.1 hu
  rename_i c n blanks
  intro d hd
  rcases List.mem_append.1 hd with hd' | hd'
  · obtain rfl := List.eq_of_mem_replicate hd'
    have hne : d ≠ '*' := by
      rintro rfl
      obtain ⟨k, rfl⟩ := Nat.exists_eq_add_of_le hn
      exact hstar (by rw [Nat.add_comm, List.replicate_succ]; rfl)
    rcases hc with rfl | rfl | rfl
    · decide
    · decide
    · contradiction
  · refine isPlainChar_of_blank (hblanks d hd') ?_
    rintro rfl
    exact hline hd

/-- What does not begin with an asterisk is put into the running text to the end of its line. -/
theorem reads_chars_of_isUnderline (hf : s.inFence = false) (hl : s.freshLine = true)
    (hu : isUnderline (firstLine s.input.rest))
    (hstar : (firstLine s.input.rest).head? ≠ some '*') :
    ∃ m, Reads s m ∧ m.raised = [] ∧ m.next = { s.midLine with
      input := s.input.advance (firstLine s.input.rest).length,
      buffer := s.buffer.push ((firstLine s.input.rest).map .char) } := by
  obtain ⟨c, t, hline, -⟩ := eq_of_isUnderline hu
  have hplain := isPlainChar_of_mem_underline hu hstar (newline_not_mem_firstLine _)
  obtain ⟨u, hrest, hbelow⟩ : ∃ u, s.input.rest = c :: c :: t ++ u ∧ u.head? ≠ some '[' := by
    rcases eq_firstLine_or s.input.rest with h | ⟨u, h⟩
    · exact ⟨[], by rw [← hline, List.append_nil]; exact h, by simp⟩
    · exact ⟨'\n' :: u, by rw [← hline]; exact h, by simp⟩
  rw [hline] at hplain ⊢
  obtain ⟨hc, ht⟩ := List.forall_mem_cons.1 hplain
  have hhead : (c :: t ++ u).head? ≠ some '[' := by
    intro h
    obtain rfl := Option.some.inj h
    cases hc
  have hfirst : s.step = .ok (s.midLine.literal c) := by
    rw [step_of_blockRule?_eq_none hf hl (blockRule?_of_isUnderline hu)]
    exact step_of_isPlainChar (s := s.midLine) hf rfl hrest hc hhead
  have hne : s.input.rest ≠ [] := by
    rw [hrest]
    exact List.cons_ne_nil _ _
  obtain ⟨m, hm, hraised, hnext⟩ := reads_plain_append (s := (s.midLine.literal c).next) hf rfl
    (congrArg (List.drop 1) hrest) ht hbelow
  refine ⟨_, .step hne hfirst hm, ?_, ?_⟩
  · rw [Move.raised_andThen, hraised]
    rfl
  · rw [Move.next_andThen, hnext]
    simp [literal, push, Buffer.push, Zipper.advance_advance, Nat.add_comm, midLine]

/-- An underline of asterisks switches bold. -/
theorem step_of_asterisks (hf : s.inFence = false) (hu : isUnderline (firstLine s.input.rest))
    (hstar : (firstLine s.input.rest).head? = some '*') : s.step = .ok s.midLine.boldMark := by
  obtain ⟨c, u, hr, hhead, -⟩ := exists_cons_of_isUnderline hu
  obtain rfl : c = '*' := Option.some.inj (hhead.symm.trans hstar)
  rw [step_eq_textRule hr (by decide) hf fun _ => blockRule?_of_isUnderline hu, textRule,
    show s.midLine.input.rest = '*' :: '*' :: u from hr]
  rfl

/-- **At the beginning of a line an underline is read as text.** -/
theorem readsAsText_of_isUnderline (hf : s.inFence = false) (hl : s.freshLine = true)
    (hprev : s.input.previous? = some '\n') (hu : isUnderline (firstLine s.input.rest)) :
    s.ReadsAsText (firstLine s.input.rest) where
  chars := reads_chars_of_isUnderline hf hl hu
  asterisks hstar := by
    refine ⟨_, step_of_asterisks hf hu hstar, ?_⟩
    have hopen : s.midLine.canOpenEmphasis := by
      show s.input.previous?.all isBoundary
      rw [hprev]
      rfl
    unfold boldMark
    rw [hopen, show s.midLine.bold = s.bold from rfl]
    cases s.bold <;> exact ⟨rfl, rfl, rfl⟩

/-! ## At the newline above the line -/

/-- What is raised when a line of running text is underlined: the text above it, and the line itself
as a title, if there is anything on it. -/
theorem events_underlined (mk : Markup) (s : State) : Raised.events mk s.underlined.raised =
    Raised.events mk [⟨.text s.buffer.held, s.lists⟩] ++
      if collapse (expand mk s.buffer.line) = [] then []
      else [⟨.heading .major (collapse (expand mk s.buffer.line)), s.lists⟩] := by
  rw [underlined, Move.raised_andThen, Raised.events_append, Raised.events_release, next_release]
  congr 1
  rw [raise, List.map_cons, List.map_nil, Raised.events_singleton, Signal.event?_title]
  split <;> rfl

/-- The state at the beginning of a line, where no running text waits and emphasis is as before. -/
structure BeginsLine (s t : State) : Prop where
  inFence : t.inFence = false
  freshLine : t.freshLine = true
  buffer : t.buffer.all = []
  bold : t.bold = s.bold
  italic : t.italic = s.italic

/-- The line that is underlined becomes a title, and reading goes on below the underline. -/
theorem exists_step_of_runningText (mk : Markup) (hf : s.inFence = false)
    (hl : s.freshLine = false) (hr : s.input.rest = '\n' :: below)
    (hu : isUnderline (firstLine below)) : ∃ m, s.step = .ok m ∧ s.BeginsLine m.next ∧
      m.next.input = (s.input.advance 1).splitLine.2 ∧
      Raised.events mk m.raised = Raised.events mk [⟨.text s.buffer.held, s.lists⟩] ++
        if collapse (expand mk s.buffer.line) = [] then []
        else [⟨.heading .major (collapse (expand mk s.buffer.line)), s.lists⟩] := by
  refine ⟨_, step_of_underline hf hl hr hu, ?_, ?_, events_underlined mk _⟩
  · rw [underlined, Move.next_andThen, next_raise, next_release]
    exact ⟨hf, rfl, rfl, rfl, rfl⟩
  · rw [underlined, Move.next_andThen, next_raise, next_release]

theorem next_paragraphBreak (s : State) : ∃ lists, s.paragraphBreak.next =
    { s with input := s.input.advance 1, freshLine := true, buffer := .empty, lists := lists } := by
  have h := onLists_breakList.next_eq
  rw [paragraphBreak, Move.next_andThen, h, next_release]
  exact ⟨_, rfl⟩

/-- After the newline of an empty line the underline is still to be read. -/
theorem exists_step_of_empty (hf : s.inFence = false) (hl : s.freshLine = true)
    (hr : s.input.rest = '\n' :: below) : ∃ m, s.step = .ok m ∧ s.BeginsLine m.next ∧
      m.next.input.rest = below ∧ m.next.input.previous? = some '\n' := by
  obtain ⟨lists, hnext⟩ := next_paragraphBreak s.midLine
  refine ⟨_, step_of_newline_of_freshLine hf hl hr, ?_⟩
  rw [hnext]
  refine ⟨⟨hf, rfl, rfl, rfl, rfl⟩, ?_, ?_⟩
  · show s.input.rest.drop 1 = below
    rw [hr]
    rfl
  · show ((s.input.rest.take 1).reverse ++ s.input.before).head? = some '\n'
    rw [hr]
    rfl

/-- After a line with hashes too. -/
theorem exists_step_of_hashes {line : Text} (hf : s.inFence = false) (hl : s.freshLine = true)
    (hr : s.input.rest = '#' :: line ++ '\n' :: below) (hline : '\n' ∉ line) :
    ∃ m, s.step = .ok m ∧ s.BeginsLine m.next ∧
      m.next.input.rest = below ∧ m.next.input.previous? = some '\n' := by
  have hhash : s.midLine.blockRule? = some s.midLine.hashRule := blockRule?_of_hash hr
  have hback : s.input.next? ≠ some '\\' := by
    rw [Zipper.next?, hr]
    intro h
    cases h
  have hsplit := Zipper.splitLine_of_newline (z := s.midLine.input) hr
    (List.not_mem_cons_of_ne_of_not_mem (by decide) hline)
  refine ⟨_, step_of_blockRule? hf hl hback hhash, ?_⟩
  rw [hashRule, hsplit, Move.next_andThen, next_announce, next_release]
  exact ⟨⟨hf, rfl, rfl, rfl, rfl⟩, rfl, rfl⟩

/-- And after the line that closes a fenced block. -/
theorem exists_step_of_fenceEnd {after : Text} (hb : s.FenceIsBare) (hf : s.inFence = true)
    (hr : s.input.rest = fence ++ after ++ '\n' :: below) (hafter : '\n' ∉ after) :
    ∃ m, s.step = .ok m ∧ s.BeginsLine m.next ∧
      m.next.input.rest = below ∧ m.next.input.previous? = some '\n' := by
  have hfence : s.input.startsWith fence := by
    rw [Zipper.startsWith, List.isPrefixOf_iff_prefix, hr, List.append_assoc]
    exact List.prefix_append _ _
  have hsplit := Zipper.splitLine_of_newline hr (List.not_mem_append (by decide) hafter)
  refine ⟨_, by rw [step_eq, if_pos hf], ?_⟩
  rw [fencedLine_of_fence hfence, next_announce, hsplit]
  exact ⟨⟨rfl, rfl, hb hf, rfl, rfl⟩, rfl, rfl⟩

/-- None of these newlines looks at the line below. -/
theorem Finishes.exists_step (hk : s.Finishes below kind) (hb : s.FenceIsBare)
    (hne : kind ≠ .runningText) : ∃ m, s.step = .ok m ∧ s.BeginsLine m.next ∧
      m.next.input.rest = below ∧ m.next.input.previous? = some '\n' := by
  cases hk with
  | runningText => contradiction
  | empty hf hl hr => exact exists_step_of_empty hf hl hr
  | hashes hf hl hr hline => exact exists_step_of_hashes hf hl hr hline
  | fenceEnd hf hr hafter => exact exists_step_of_fenceEnd hb hf hr hafter

end State

/-- **An underline counts below running text alone**, at any place that reading comes to.  There the
line above becomes a title, or the underline is passed over when nothing is on that line.  Below an
empty line, a line with hashes or the end of a fenced block it is read as text, and an underline
of asterisks switches bold. -/
theorem Zipper.underline_counts_below_text (mk : Markup) {z : Zipper} {r : Move} {kind : LineKind}
    {below : Text} (h : Reads (.initial z) r) (hk : r.next.Finishes below kind)
    (hu : isUnderline (firstLine below)) : ∃ m, r.next.step = .ok m ∧ r.next.BeginsLine m.next ∧
      (kind = .runningText → m.next.input = (r.next.input.advance 1).splitLine.2 ∧
        Raised.events mk m.raised =
          Raised.events mk [⟨.text r.next.buffer.held, r.next.lists⟩] ++
            if collapse (expand mk r.next.buffer.line) = [] then []
            else [⟨.heading .major (collapse (expand mk r.next.buffer.line)), r.next.lists⟩]) ∧
      (kind ≠ .runningText → m.next.input.rest = below ∧ m.next.ReadsAsText (firstLine below)) := by
  by_cases hkind : kind = .runningText
  · subst hkind
    cases hk with
    | runningText hf hl hr =>
      obtain ⟨m, hm, hbegins, hinput, hevents⟩ := State.exists_step_of_runningText mk hf hl hr hu
      exact ⟨m, hm, hbegins, fun _ => ⟨hinput, hevents⟩, fun hne => absurd rfl hne⟩
  · have hbare := h.fenceIsBare (State.fenceIsBare_of_not rfl)
    obtain ⟨m, hm, hbegins, hrest, hprev⟩ := hk.exists_step hbare hkind
    refine ⟨m, hm, hbegins, fun he => absurd he hkind, fun _ => ⟨hrest, ?_⟩⟩
    rw [← hrest] at hu ⊢
    exact State.readsAsText_of_isUnderline hbegins.inFence hbegins.freshLine hprev hu

/-- The same three asterisks below a line of running text and below an empty line. -/
theorem Zipper.underline_counts_below_text_twice :
    let z : Zipper := .start "x\n***\n\n***\ny".toList
    ∃ r m r' m' : Move, Reads (.initial z) r ∧
      r.next.Finishes "***\n\n***\ny".toList .runningText ∧ r.next.step = .ok m ∧
      Raised.events tagMarkup m.raised = [⟨.heading .major "x".toList, .empty⟩] ∧
      m.next.input.rest = "\n***\ny".toList ∧
      Reads (.initial z) r' ∧ r'.next.Finishes "***\ny".toList .empty ∧ r'.next.step = .ok m' ∧
      m'.next.bold = false ∧ ∃ n, m'.next.step = .ok n ∧ n.next.bold = true := by
  intro z
  let r := ((State.initial z).firstSteps 1).get (by decide +kernel)
  let r' := ((State.initial z).firstSteps 2).get (by decide +kernel)
  have hr : Reads (.initial z) r := State.reads_of_firstSteps (Option.some_get _).symm
  have hr' : Reads (.initial z) r' := State.reads_of_firstSteps (Option.some_get _).symm
  have hk : r.next.Finishes "***\n\n***\ny".toList .runningText :=
    .runningText (by decide +kernel) (by decide +kernel) (by decide +kernel)
  have hk' : r'.next.Finishes "***\ny".toList .empty :=
    .empty (by decide +kernel) (by decide +kernel) (by decide +kernel)
  obtain ⟨m, hm, -, htitle, -⟩ := underline_counts_below_text tagMarkup hr hk (by decide +kernel)
  obtain ⟨m', hm', hbegins, -, htext⟩ :=
    underline_counts_below_text tagMarkup hr' hk' (by decide +kernel)
  obtain ⟨hinput, hevents⟩ := htitle rfl
  obtain ⟨-, htext⟩ := htext (by decide)
  obtain ⟨n, hn, -, hbold, -⟩ := htext.asterisks (by decide +kernel)
  have hoff : m'.next.bold = false := hbegins.bold.trans (by decide +kernel)
  refine ⟨r, m, r', m', hr, hk, hm, ?_, ?_, hr', hk', hm', hoff, n, hn, ?_⟩
  · rw [hevents]
    decide +kernel
  · rw [hinput]
    decide +kernel
  · rw [hbold, hoff]
    rfl

/-- An underline below an empty line becomes a line of text; one of asterisks below a header or a
fenced block turns bold on for the text after it. -/
theorem Zipper.underline_is_text_below_other_lines :
    isUnderline "---".toList ∧ isUnderline "***".toList ∧
      (start "\n---\n".toList).trace.events tagMarkup =
        [⟨.paragraphEnd, .empty⟩, ⟨.text "---".toList, .empty⟩] ∧
      (start "# T\n***\nx".toList).trace.events tagMarkup =
        [⟨.heading .major "T".toList, .empty⟩, ⟨.text "<B>* x".toList, .empty⟩] ∧
      (start "```\n```\n***\nx".toList).trace.events tagMarkup =
        [⟨.fenceOpen, .empty⟩, ⟨.fenceClose, .empty⟩, ⟨.text "<B>* x".toList, .empty⟩] := by
  decide +kernel

end Roffdown
