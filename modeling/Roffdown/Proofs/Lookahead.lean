import Roffdown.Proofs.FlatBlocks
import Roffdown.Proofs.LastMark

/-!
# What a step looks at

A step looks at the character before its place and at the two after it, at the rest of its line, at
the line below when a line of running text ends, and at the mark that closes inline code.  So places
where these are the same lead to the same move, equally far, whatever else the two texts hold.

* `Zipper.Alike`: places that look the same, as far as the line and the character before it.
* `Markdown.marker?_firstLine`, `Markdown.linkBody?_firstLine`: a line tells markers and links.
* `State.elsewhere`, `Move.elsewhere`: the same state, reading another text.
* `State.Moves`: the same move from two places, equally far.
* `State.exists_moves_step`: the step from places that look the same.
-/

namespace Roffdown

open Markdown Text

/-! ## First lines -/

namespace Text

variable {a t u : Text}

theorem firstLine_append_of_mem (h : '\n' ∈ a) (t : Text) : firstLine (a ++ t) = firstLine a :=
  takeWhile_append h rfl

theorem firstLine_append_congr (a : Text) (h : firstLine t = firstLine u) :
    firstLine (a ++ t) = firstLine (a ++ u) := by
  by_cases ha : '\n' ∈ a
  · rw [firstLine_append_of_mem ha, firstLine_append_of_mem ha]
  · unfold firstLine at h ⊢
    rw [takeWhile_bne_append ha, takeWhile_bne_append ha, h]

/-- A run that ends before a newline is one of the first line. -/
theorem takeWhile_firstLine {p : Char → Bool} (hp : p '\n' = false) (t : Text) :
    (firstLine t).takeWhile p = t.takeWhile p := by
  induction t with
  | nil => rfl
  | cons c t ih =>
    by_cases hc : c = '\n'
    · subst hc
      rw [List.takeWhile_cons_of_neg (by rw [hp]; exact Bool.false_ne_true)]
      rfl
    · have hline : firstLine (c :: t) = c :: firstLine t :=
        List.takeWhile_cons_of_pos (by simpa using hc)
      rw [hline, List.takeWhile_cons, List.takeWhile_cons, ih]

theorem firstLine_dropWhile {p : Char → Bool} (hp : p '\n' = false) (t : Text) :
    firstLine (t.dropWhile p) = (firstLine t).dropWhile p := by
  induction t with
  | nil => rfl
  | cons c t ih =>
    by_cases hc : c = '\n'
    · subst hc
      rw [List.dropWhile_cons_of_neg (by rw [hp]; exact Bool.false_ne_true)]
      rfl
    · have hline : firstLine (c :: t) = c :: firstLine t :=
        List.takeWhile_cons_of_pos (by simpa using hc)
      rw [hline, List.dropWhile_cons, List.dropWhile_cons, ← ih]
      split
      · rfl
      · exact hline

/-- What has no newline begins a text when it begins the first line. -/
theorem prefix_firstLine_iff (ha : '\n' ∉ a) : a <+: firstLine t ↔ a <+: t := by
  constructor
  · intro h
    exact h.trans (List.takeWhile_prefix _)
  · intro h
    rcases eq_firstLine_or t with ht | ⟨u, ht⟩
    · rwa [← ht]
    · rw [ht] at h
      exact prefix_of_prefix_line ha h

theorem exists_firstLine_eq_iff (ha : '\n' ∉ a) :
    (∃ after, firstLine t = a ++ after) ↔ ∃ after, t = a ++ after := by
  have hbegins := prefix_firstLine_iff (t := t) ha
  exact (exists_congr fun _ => eq_comm).trans (hbegins.trans (exists_congr fun _ => eq_comm))

end Text

namespace Markdown

variable {t u : Text}

theorem marker?_of_isBullet {c : Char} (hc : isBullet c) (t : Text) :
    marker? (c :: t) = if t.takeWhile isIndent = [] then none
      else some ⟨.bulleted, 1, 1 + (t.takeWhile isIndent).length⟩ := by
  rw [marker?, if_pos hc]
  cases t.takeWhile isIndent <;> rfl

theorem marker?_of_digits {digits : Text} (hne : digits ≠ []) (hd : ∀ c ∈ digits, c.isDigit)
    (t : Text) : marker? (digits ++ '.' :: t) =
      some ⟨.numbered, min (toNat 10 digits) OpenList.maxNumber,
        digits.length + 1 + (t.takeWhile isIndent).length⟩ := by
  obtain ⟨c, u, rfl⟩ := List.exists_cons_of_ne_nil hne
  have hc := not_isBullet_of_isDigit (hd c List.mem_cons_self)
  have ht : (c :: u ++ '.' :: t).takeWhile Char.isDigit = c :: u := by
    rw [List.takeWhile_append_of_pos hd, List.takeWhile_cons_of_neg (by decide), List.append_nil]
  have hr : (c :: u ++ '.' :: t).dropWhile Char.isDigit = '.' :: t := by
    rw [List.dropWhile_append_of_pos hd, List.dropWhile_cons_of_neg (by decide)]
  rw [List.cons_append, marker?, hc, if_neg Bool.false_ne_true, ← List.cons_append, ht, hr]
  rfl

/-- A marker is told by the line that it begins. -/
theorem marker?_firstLine (t : Text) : marker? (firstLine t) = marker? t := by
  cases t with
  | nil => rfl
  | cons c t =>
    by_cases hn : c = '\n'
    · subst hn
      rfl
    have hline : firstLine (c :: t) = c :: firstLine t :=
      List.takeWhile_cons_of_pos (by simpa using hn)
    by_cases hc : isBullet c
    · rw [hline, marker?_of_isBullet hc, marker?_of_isBullet hc, takeWhile_firstLine rfl]
    · have hdigits := takeWhile_firstLine (show Char.isDigit '\n' = false from rfl) (c :: t)
      have hafter := firstLine_dropWhile (show Char.isDigit '\n' = false from rfl) (c :: t)
      rw [hline] at hdigits hafter ⊢
      rw [marker?, marker?, if_neg hc, if_neg hc, hdigits, ← hafter]
      cases (c :: t).takeWhile Char.isDigit with
      | nil => rfl
      | cons d digits =>
        cases (c :: t).dropWhile Char.isDigit with
        | nil => rfl
        | cons x after =>
          by_cases hx : x = '.'
          · subst hx
            have hblanks := takeWhile_firstLine (show isIndent '\n' = false from rfl) after
            simp only [show firstLine ('.' :: after) = '.' :: firstLine after from rfl, hblanks]
          · by_cases hnx : x = '\n'
            · subst hnx
              rfl
            · have hrest : firstLine (x :: after) = x :: firstLine after :=
                List.takeWhile_cons_of_pos (by simpa using hnx)
              rw [hrest]
              simp [hx]

/-- So is a link. -/
theorem linkBody?_firstLine (t : Text) : linkBody? (firstLine t) = linkBody? t := by
  refine Option.ext fun ⟨label, target⟩ => ?_
  rw [linkBody?_eq_some_iff, linkBody?_eq_some_iff]
  refine and_congr_left fun ⟨_, hl, _, hg⟩ => ?_
  have hu : '\n' ∉ label ++ ']' :: '(' :: (target ++ [')']) := by simp [hl, hg]
  simpa using exists_firstLine_eq_iff hu

end Markdown

/-! ## The same state, reading another text -/

/-- The state, reading from another place. -/
def State.elsewhere (z : Zipper) (s : State) : State := { s with input := z }

/-- The move, of a reading that is at another place then. -/
def Move.elsewhere (z : Zipper) (m : Move) : Move := ⟨m.raised, m.warnings, m.next.elsewhere z⟩

@[simp] theorem State.input_elsewhere (z : Zipper) (s : State) : (s.elsewhere z).input = z := rfl

@[simp] theorem State.buffer_elsewhere (z : Zipper) (s : State) :
    (s.elsewhere z).buffer = s.buffer := rfl

@[simp] theorem State.freshLine_elsewhere (z : Zipper) (s : State) :
    (s.elsewhere z).freshLine = s.freshLine := rfl

@[simp] theorem State.inFence_elsewhere (z : Zipper) (s : State) :
    (s.elsewhere z).inFence = s.inFence := rfl

@[simp] theorem State.bold_elsewhere (z : Zipper) (s : State) : (s.elsewhere z).bold = s.bold := rfl

@[simp] theorem State.italic_elsewhere (z : Zipper) (s : State) :
    (s.elsewhere z).italic = s.italic := rfl

@[simp] theorem State.midLine_elsewhere (z : Zipper) (s : State) :
    (s.elsewhere z).midLine = s.midLine.elsewhere z := rfl

@[simp] theorem Move.next_elsewhere (z : Zipper) (m : Move) :
    (m.elsewhere z).next = m.next.elsewhere z := rfl

theorem Move.andThen_congr {m : Move} {f g : State → Move} (h : f m.next = g m.next) :
    m.andThen f = m.andThen g := by
  simp only [andThen, h]

theorem Move.andThen_elsewhere {z : Zipper} {f : State → Move}
    (h : ∀ s : State, f (s.elsewhere z) = (f s).elsewhere z) (m : Move) :
    (m.elsewhere z).andThen f = (m.andThen f).elsewhere z := by
  simp only [andThen, elsewhere, h]

/-- Places that look the same, as far as the line and the character before it. -/
structure Zipper.Alike (z w : Zipper) : Prop where
  previous : w.previous? = z.previous?
  line : firstLine w.rest = firstLine z.rest
  take_two : w.rest.take 2 = z.rest.take 2

namespace State

variable {s : State} {z : Zipper}

theorem release_elsewhere : (s.elsewhere z).release = s.release.elsewhere z := by
  unfold release
  rw [buffer_elsewhere]
  split <;> rfl

theorem OnLists.elsewhere {P : Event → Prop} {f : State → Move} (h : OnLists P f) (s : State) :
    f (s.elsewhere z) = (f s).elsewhere z :=
  h.map (g := State.elsewhere z) (fun _ => rfl) (fun _ _ => rfl) s

theorem release_andThen_elsewhere {P : Event → Prop} {f : State → Move} (h : OnLists P f)
    (s : State) (z : Zipper) :
    (s.elsewhere z).release.andThen f = (s.release.andThen f).elsewhere z := by
  rw [release_elsewhere]
  exact Move.andThen_elsewhere h.elsewhere _

theorem wrapUp_elsewhere (s : State) (z : Zipper) :
    (s.elsewhere z).wrapUp = s.wrapUp.elsewhere z := by
  unfold wrapUp
  rw [release_elsewhere]
  refine Move.andThen_elsewhere (fun s => ?_) _
  rw [← Move.andThen_elsewhere onLists_closeAll.elsewhere]
  refine congrArg (Move.andThen · _) ?_
  change (if s.inFence then _ else _) = (if s.inFence then _ else _ : Move).elsewhere z
  split <;> rfl

/-! ## Rules where the places look the same -/

/-- The same move from two places, equally far. -/
def Moves (s : State) (z : Zipper) (m m' : Move) : Prop :=
  ∃ n, m.next.input = s.input.advance n ∧ m' = m.elsewhere (z.advance n)

theorem moves_release_andThen {P : Event → Prop} {f : State → Move} (h : OnLists P f) (t : State)
    (n : Nat) : Moves s z ({ t with input := s.input.advance n : State }.release.andThen f)
      ({ t with input := z.advance n : State }.release.andThen f) := by
  refine ⟨n, ?_, release_andThen_elsewhere h { t with input := s.input.advance n } (z.advance n)⟩
  rw [Move.next_andThen, h.next_eq, next_release]

theorem moves_paragraphBreak : Moves s z s.paragraphBreak (s.elsewhere z).paragraphBreak :=
  moves_release_andThen onLists_breakList { s with freshLine := true } 1

section

variable (h : s.input.Alike z)

include h

theorem splitLine_of_alike : z.splitLine =
    (s.input.splitLine.1, z.advance (s.input.restOfLine.length + 1)) := by
  have hline : z.restOfLine = s.input.restOfLine := h.line
  rw [Zipper.splitLine, hline]
  rfl

theorem moves_hashRule : Moves s z s.hashRule (s.elsewhere z).hashRule := by
  have hsplit := splitLine_of_alike h
  unfold hashRule
  rw [input_elsewhere, hsplit]
  exact moves_release_andThen (onLists_announce fun _ _ => trivial) { s with freshLine := true } _

theorem moves_openFence : Moves s z s.openFence (s.elsewhere z).openFence := by
  have hsplit := splitLine_of_alike h
  unfold openFence
  rw [input_elsewhere, hsplit]
  exact moves_release_andThen (onLists_announce fun _ _ => trivial) { s with inFence := true } _

theorem startsWith_fence_of_alike : z.startsWith fence = s.input.startsWith fence := by
  have hn : '\n' ∉ fence := by decide
  rw [Bool.eq_iff_iff, Zipper.startsWith, Zipper.startsWith, List.isPrefixOf_iff_prefix,
    List.isPrefixOf_iff_prefix, ← prefix_firstLine_iff hn, h.line, prefix_firstLine_iff hn]

theorem moves_fencedLine : Moves s z s.fencedLine (s.elsewhere z).fencedLine := by
  have hsplit := splitLine_of_alike h
  have hfence := startsWith_fence_of_alike h
  by_cases hs : s.input.startsWith fence
  · rw [fencedLine_of_fence hs, fencedLine_of_fence (s := s.elsewhere z) (hfence.trans hs),
      input_elsewhere, hsplit]
    exact ⟨_, rfl, rfl⟩
  · rw [fencedLine_of_not_fence hs, fencedLine_of_not_fence (s := s.elsewhere z) (by
      rw [input_elsewhere, hfence]
      exact hs), input_elsewhere, hsplit]
    exact ⟨_, rfl, rfl⟩

theorem rel_item? : Option.Rel (Moves s z) s.item? (s.elsewhere z).item? := by
  have hindent : isIndent '\n' = false := rfl
  obtain ⟨blanks, hb, hb', hline⟩ : ∃ blanks,
      (if s.lists.isEmpty then [] else s.input.rest.takeWhile isIndent) = blanks ∧
      (if s.lists.isEmpty then [] else z.rest.takeWhile isIndent) = blanks ∧
      firstLine (z.rest.drop blanks.length) = firstLine (s.input.rest.drop blanks.length) := by
    by_cases he : s.lists.isEmpty
    · refine ⟨[], if_pos he, if_pos he, ?_⟩
      exact h.line
    · have hrun : z.rest.takeWhile isIndent = s.input.rest.takeWhile isIndent := by
        rw [← takeWhile_firstLine hindent, h.line, takeWhile_firstLine hindent]
      refine ⟨s.input.rest.takeWhile isIndent, if_neg he, (if_neg he).trans hrun, ?_⟩
      rw [drop_length_takeWhile, ← hrun, drop_length_takeWhile, firstLine_dropWhile hindent,
        firstLine_dropWhile hindent, h.line]
  have hmarker :
      marker? (z.rest.drop blanks.length) = marker? (s.input.rest.drop blanks.length) := by
    rw [← marker?_firstLine, hline, marker?_firstLine]
  rw [item?_eq hb, item?_eq (s := s.elsewhere z) hb',
    input_elsewhere, hmarker]
  cases marker? (s.input.rest.drop blanks.length) with
  | none => exact .none
  | some marker => exact .some (moves_release_andThen (onLists_placeItem _ _) s _)

theorem exists_cons_of_alike {c : Char} {t : Text} (hr : s.input.rest = c :: t) :
    ∃ u, z.rest = c :: u ∧ u.head? = t.head? := by
  have htwo := h.take_two
  rw [hr] at htwo
  cases hz : z.rest with
  | nil =>
    rw [hz] at htwo
    cases htwo
  | cons d u =>
    rw [hz] at htwo
    obtain ⟨rfl, hone⟩ := List.cons.inj htwo
    refine ⟨u, rfl, ?_⟩
    have hhead := congrArg List.head? hone
    rwa [List.head?_take, List.head?_take] at hhead

theorem rel_blockRule? (hs : s.input.rest ≠ []) :
    Option.Rel (Moves s z) s.blockRule? (s.elsewhere z).blockRule? := by
  obtain ⟨c, t, hr⟩ := List.exists_cons_of_ne_nil hs
  obtain ⟨u, hz, -⟩ := exists_cons_of_alike h hr
  by_cases hn : c = '\n'
  · subst hn
    rw [blockRule?_of_newline hr, blockRule?_of_newline (s := s.elsewhere z) hz]
    exact .some moves_paragraphBreak
  by_cases hh : c = '#'
  · subst hh
    rw [blockRule?_of_hash hr, blockRule?_of_hash (s := s.elsewhere z) hz]
    exact .some (moves_hashRule h)
  rw [blockRule?_of_other hr hn hh, blockRule?_of_other (s := s.elsewhere z) hz hn hh,
    input_elsewhere, startsWith_fence_of_alike h]
  split
  · exact .some (moves_openFence h)
  · exact rel_item? h

/-! ## Rules for running text where the places look the same -/

theorem moves_backslash : Moves s z s.backslash (s.elsewhere z).backslash := by
  have hnext : z.nth? 1 = s.input.nth? 1 := by
    have htwo := congrArg (fun t => t[1]?) h.take_two
    simpa [Zipper.nth?] using htwo
  unfold backslash
  rw [input_elsewhere, hnext]
  exact ⟨2, rfl, rfl⟩

theorem canOpenEmphasis_of_alike : (s.elsewhere z).canOpenEmphasis = s.canOpenEmphasis := by
  unfold canOpenEmphasis
  rw [input_elsewhere, h.previous]

theorem moves_boldMark : Moves s z s.boldMark (s.elsewhere z).boldMark := by
  unfold boldMark
  rw [canOpenEmphasis_of_alike h, input_elsewhere, h.take_two, bold_elsewhere]
  split
  · exact ⟨2, rfl, rfl⟩
  · split <;> exact ⟨2, rfl, rfl⟩

theorem take_one_of_alike : z.rest.take 1 = s.input.rest.take 1 := by
  have htwo := congrArg (List.take 1) h.take_two
  rwa [List.take_take, List.take_take] at htwo

theorem moves_italicMark : Moves s z s.italicMark (s.elsewhere z).italicMark := by
  unfold italicMark
  rw [canOpenEmphasis_of_alike h, input_elsewhere, take_one_of_alike h, italic_elsewhere]
  split
  · exact ⟨1, rfl, rfl⟩
  · split <;> exact ⟨1, rfl, rfl⟩

/-- A link is told by the line that it stands in. -/
theorem moves_bracket {lead : Nat} (hl : linkBody? (z.rest.drop (lead + 1)) =
    linkBody? (s.input.rest.drop (lead + 1))) :
    Moves s z (s.bracket lead) ((s.elsewhere z).bracket lead) := by
  unfold bracket
  rw [input_elsewhere, hl, take_one_of_alike h]
  cases linkBody? (s.input.rest.drop (lead + 1)) with
  | none => exact ⟨1, rfl, rfl⟩
  | some body => exact moves_release_andThen (onLists_announce fun _ _ => trivial) s _

/-- Running text, but for the end of a line and inline code. -/
theorem exists_moves_textRule {c : Char} {t : Text} (hr : s.input.rest = c :: t) (hn : c ≠ '\n')
    (hc : c ≠ codeMark) : ∃ m m', s.textRule = .ok m ∧ (s.elsewhere z).textRule = .ok m' ∧
      Moves s z m m' := by
  obtain ⟨u, hz, hhead⟩ := exists_cons_of_alike h hr
  have hline : firstLine u = firstLine t := by
    have hboth := h.line
    rw [hr, hz, firstLine, firstLine, List.takeWhile_cons_of_pos (by simpa using hn),
      List.takeWhile_cons_of_pos (by simpa using hn)] at hboth
    exact (List.cons.inj hboth).2
  have hz' : (s.elsewhere z).input.rest = c :: u := hz
  simp only [textRule, hr, hz', hn, hc, hhead, if_false]
  by_cases hmark : c = '*' ∨ c = '_'
  · rw [if_pos hmark, if_pos hmark]
    by_cases htwo : t.head? = some c
    · rw [if_pos htwo, if_pos htwo]
      exact ⟨_, _, rfl, rfl, moves_boldMark h⟩
    · rw [if_neg htwo, if_neg htwo]
      exact ⟨_, _, rfl, rfl, moves_italicMark h⟩
  rw [if_neg hmark, if_neg hmark]
  by_cases hb : c = '['
  · rw [if_pos hb, if_pos hb]
    refine ⟨_, _, rfl, rfl, moves_bracket h ?_⟩
    rw [hr, hz]
    show linkBody? u = linkBody? t
    rw [← linkBody?_firstLine, hline, linkBody?_firstLine]
  rw [if_neg hb, if_neg hb]
  by_cases himage : c = '!' ∧ t.head? = some '['
  · rw [if_pos himage, if_pos himage]
    refine ⟨_, _, rfl, rfl, moves_bracket h ?_⟩
    obtain ⟨t, rfl⟩ := List.head?_eq_some_iff.1 himage.2
    obtain ⟨u, rfl⟩ := List.head?_eq_some_iff.1 (hhead.trans himage.2)
    rw [hr, hz]
    show linkBody? u = linkBody? t
    have hrest : firstLine u = firstLine t := (List.cons.inj hline).2
    rw [← linkBody?_firstLine, hrest, linkBody?_firstLine]
  · rw [if_neg himage, if_neg himage]
    exact ⟨_, _, rfl, rfl, ⟨1, rfl, rfl⟩⟩

end

theorem inlineCode_of_mark {code after : Text}
    (hr : s.input.rest = codeMark :: (code ++ codeMark :: after)) (hc : codeMark ∉ code) :
    s.inlineCode = .ok (.silent { s.push (codePieces code) with
      input := s.input.advance (code.length + 2) }) := by
  have hsplit : splitAtFirst codeMark (code ++ codeMark :: after) = some (code, after) :=
    splitAtFirst_eq_some_iff.2 ⟨rfl, hc⟩
  rw [inlineCode, hr, List.drop_one, List.tail_cons, hsplit]

theorem exists_code_of_inlineCode {m : Move} {t : Text} (hr : s.input.rest = codeMark :: t)
    (hm : s.inlineCode = .ok m) :
    ∃ code after, t = code ++ codeMark :: after ∧ codeMark ∉ code := by
  rw [inlineCode, hr, List.drop_one, List.tail_cons] at hm
  cases hsplit : splitAtFirst codeMark t with
  | none =>
    rw [hsplit] at hm
    cases hm
  | some parts => exact ⟨parts.1, parts.2, splitAtFirst_eq_some_iff.1 hsplit⟩

/-- Inline code, when it is closed in the same place. -/
theorem exists_moves_inlineCode {m : Move} {t : Text} (hr : s.input.rest = codeMark :: t)
    (hcode : ∀ code after, s.input.rest = codeMark :: (code ++ codeMark :: after) →
      m.next.input.rest = after → ∃ after', z.rest = codeMark :: (code ++ codeMark :: after'))
    (hm : s.inlineCode = .ok m) : ∃ m', (s.elsewhere z).inlineCode = .ok m' ∧ Moves s z m m' := by
  obtain ⟨code, after, rfl, hc⟩ := exists_code_of_inlineCode hr hm
  obtain rfl := Except.ok.inj ((inlineCode_of_mark hr hc).symm.trans hm)
  have hafter : s.input.rest.drop (code.length + 2) = after := by
    rw [hr, ← List.cons_append, List.append_cons]
    exact List.drop_left' (by simp)
  obtain ⟨after', hz⟩ := hcode code after hr hafter
  exact ⟨_, inlineCode_of_mark (s := s.elsewhere z) hz hc, code.length + 2, rfl, rfl⟩

/-- Running text, but for the end of a line. -/
theorem exists_moves_of_textRule {m : Move} {c : Char} {t : Text} (h : s.input.Alike z)
    (hr : s.input.rest = c :: t) (hn : c ≠ '\n')
    (hcode : ∀ code after, s.input.rest = codeMark :: (code ++ codeMark :: after) →
      m.next.input.rest = after → ∃ after', z.rest = codeMark :: (code ++ codeMark :: after'))
    (hm : s.textRule = .ok m) : ∃ m', (s.elsewhere z).textRule = .ok m' ∧ Moves s z m m' := by
  by_cases hc : c = codeMark
  · subst hc
    obtain ⟨u, hz, -⟩ := exists_cons_of_alike h hr
    rw [textRule_of_codeMark hr] at hm
    rw [textRule_of_codeMark (s := s.elsewhere z) hz]
    exact exists_moves_inlineCode hr hcode hm
  · obtain ⟨n, m', hn, hm', hmoves⟩ := exists_moves_textRule h hr hn hc
    obtain rfl := Except.ok.inj (hn.symm.trans hm)
    exact ⟨m', hm', hmoves⟩

/-! ## The end of a line -/

theorem step_of_newline_of_freshLine {t : Text} (hf : s.inFence = false) (hl : s.freshLine = true)
    (hr : s.input.rest = '\n' :: t) : s.step = .ok s.midLine.paragraphBreak := by
  refine step_of_blockRule? hf hl ?_ (blockRule?_of_newline (s := s.midLine) hr)
  rw [Zipper.next?, hr]
  intro h
  cases h

theorem underlined_elsewhere (s : State) (z : Zipper) :
    (s.elsewhere z).underlined = s.underlined.elsewhere z := by
  have hrelease := release_elsewhere (s := { s with buffer := s.buffer.dropLine }) (z := z)
  unfold underlined
  rw [show { s.elsewhere z with buffer := (s.elsewhere z).buffer.dropLine } =
    ({ s with buffer := s.buffer.dropLine } : State).elsewhere z from rfl, hrelease]
  rfl

/-- A line below is looked at only to tell whether it underlines, and to step over it then. -/
theorem moves_lineEnd {t u : Text} (hr : s.input.rest = '\n' :: t) (hz : z.rest = '\n' :: u)
    (hbelow : firstLine u = firstLine t ∨
      ¬ isUnderline (firstLine u) ∧ ¬ isUnderline (firstLine t)) :
    Moves s z s.lineEnd (s.elsewhere z).lineEnd := by
  have hs : s.input.lineBelow? = some (firstLine t) := lineBelow?_of_newline hr
  have hs' : (s.elsewhere z).input.lineBelow? = some (firstLine u) := lineBelow?_of_newline hz
  by_cases hu : isUnderline (firstLine t)
  · have hline : firstLine u = firstLine t := hbelow.resolve_right fun h => h.2 hu
    rw [lineEnd_of_underline (by rw [hs]; exact hu),
      lineEnd_of_underline (by rw [hs', hline]; exact hu)]
    have hsplit : (s.input.advance 1).splitLine.2 =
        s.input.advance (1 + ((firstLine t).length + 1)) := by
      rw [Zipper.splitLine, Zipper.restOfLine, Zipper.rest_advance, hr, Zipper.advance_advance]
      rfl
    have hsplit' : (z.advance 1).splitLine.2 = z.advance (1 + ((firstLine t).length + 1)) := by
      rw [← hline, Zipper.splitLine, Zipper.restOfLine, Zipper.rest_advance, hz,
        Zipper.advance_advance]
      rfl
    rw [hsplit, input_elsewhere, hsplit']
    exact ⟨_, by rw [underlined, Move.next_andThen, next_raise, next_release],
      underlined_elsewhere { s with input := s.input.advance _, freshLine := true } _⟩
  · have hu' : ¬ isUnderline (firstLine u) := by
      rcases hbelow with h | h
      · rwa [h]
      · exact h.1
    rw [lineEnd_of_not_underline (by rw [hs]; exact hu),
      lineEnd_of_not_underline (by rw [hs']; exact hu')]
    exact ⟨1, rfl, rfl⟩

/-- The step at the end of a line. -/
theorem exists_moves_newline {m : Move} {t u : Text} (hf : s.inFence = false)
    (hr : s.input.rest = '\n' :: t) (hz : z.rest = '\n' :: u)
    (hbelow : s.freshLine = false → firstLine u = firstLine t ∨
      ¬ isUnderline (firstLine u) ∧ ¬ isUnderline (firstLine t))
    (hm : s.step = .ok m) : ∃ m', (s.elsewhere z).step = .ok m' ∧ Moves s z m m' := by
  cases hl : s.freshLine with
  | true =>
    obtain rfl := Except.ok.inj ((step_of_newline_of_freshLine hf hl hr).symm.trans hm)
    exact ⟨_, step_of_newline_of_freshLine (s := s.elsewhere z) hf hl hz,
      moves_paragraphBreak (s := s.midLine)⟩
  | false =>
    obtain rfl := Except.ok.inj ((step_of_newline_of_midLine hf hl hr).symm.trans hm)
    exact ⟨_, step_of_newline_of_midLine (s := s.elsewhere z) hf hl hz,
      moves_lineEnd hr hz (hbelow hl)⟩

/-! ## The step where the places look the same -/

theorem exists_moves_step {m : Move} (h : s.input.Alike z) (hs : s.input.rest ≠ [])
    (hn : s.inFence = false → s.input.rest.head? ≠ some '\n')
    (hcode : ∀ code after, s.input.rest = codeMark :: (code ++ codeMark :: after) →
      m.next.input.rest = after → ∃ after', z.rest = codeMark :: (code ++ codeMark :: after'))
    (hm : s.step = .ok m) : ∃ m', (s.elsewhere z).step = .ok m' ∧ Moves s z m m' := by
  obtain ⟨c, t, hr⟩ := List.exists_cons_of_ne_nil hs
  obtain ⟨u, hz, -⟩ := exists_cons_of_alike h hr
  have hnext : (s.elsewhere z).input.next? = s.input.next? := by
    show z.rest.head? = s.input.rest.head?
    rw [hr, hz]
    rfl
  rw [step_eq] at hm ⊢
  rw [hnext, inFence_elsewhere, freshLine_elsewhere]
  by_cases hf : s.inFence
  · rw [if_pos hf] at hm ⊢
    obtain rfl := Except.ok.inj hm
    exact ⟨_, rfl, moves_fencedLine h⟩
  rw [if_neg hf] at hm ⊢
  by_cases hb : s.input.next? = some '\\'
  · rw [if_pos hb] at hm ⊢
    obtain rfl := Except.ok.inj hm
    exact ⟨_, rfl, moves_backslash h⟩
  rw [if_neg hb] at hm ⊢
  have hne : c ≠ '\n' := by
    rintro rfl
    exact hn (Bool.eq_false_iff.2 hf) (by rw [hr]; rfl)
  by_cases hl : s.freshLine
  · rw [if_pos hl] at hm ⊢
    have hrel : Option.Rel (Moves s z) s.midLine.blockRule? (s.midLine.elsewhere z).blockRule? :=
      rel_blockRule? (s := s.midLine) h hs
    rw [midLine_elsewhere]
    cases hrule : s.midLine.blockRule? with
    | none =>
      rw [hrule] at hm hrel
      cases hrule' : (s.midLine.elsewhere z).blockRule? with
      | none => exact exists_moves_of_textRule (s := s.midLine) h hr hne hcode hm
      | some m' =>
        rw [hrule'] at hrel
        cases hrel
    | some n =>
      rw [hrule] at hm hrel
      obtain rfl := Except.ok.inj hm
      cases hrule' : (s.midLine.elsewhere z).blockRule? with
      | none =>
        rw [hrule'] at hrel
        cases hrel
      | some m' =>
        rw [hrule'] at hrel
        cases hrel with
        | some hmoves => exact ⟨m', rfl, hmoves⟩
  · rw [if_neg hl] at hm ⊢
    exact exists_moves_of_textRule h hr hne hcode hm

end State

end Roffdown
