import Roffdown.Proofs.Links

/-!
# Slicing

The rules told in bytes.  A rule slices what it needs off the text at offsets that it finds, and
the running text is one text with an offset for its mark, kept from each step to the next.
`Slicing` has each rule with the slices that it takes and with what it makes of their two parts;
every step is one of these rules, so a slice that a rule asks for is always there.

* `Markdown.linkSlicing`: the search for a link, with all that it slices off on the way.
* `State.slicing_of_step`: a step takes the slices of its rule.
* `State.KeepsDraft`: a reading beside which the running text and its mark are kept.
* `Zipper.exists_kept`: beside every reading exactly one running text is kept, cut by its mark.
-/

namespace Roffdown

open Markdown Text
open State (Reads)

/-! ## Links and markers -/

namespace Markdown

/-- The search for a link in the text after its opening bracket, as far as it gets, and what it
gives: label, target and length. -/
inductive LinkSlicing (t : Text) : Option (Text × Text × Nat) → Prop
  | noLabel (hclose : find? ']' t = none) : LinkSlicing t none
  | noTarget {label after : Text} {close : Nat} (hclose : find? ']' t = some close)
      (hlabel : cut? close t = some (label, ']' :: after))
      (hafter : cut? (close + 1) t = some (label ++ [']'], after))
      (hopen : after.head? ≠ some '(') : LinkSlicing t none
  | unclosed {label after : Text} {close : Nat} (hclose : find? ']' t = some close)
      (hlabel : cut? close t = some (label, ']' :: '(' :: after))
      (hafter : cut? (close + 1) t = some (label ++ [']'], '(' :: after))
      (hstop : find? ')' after = none) : LinkSlicing t none
  | closed {label target after last : Text} {close stop : Nat} (hclose : find? ']' t = some close)
      (hlabel : cut? close t = some (label, ']' :: '(' :: after))
      (hafter : cut? (close + 1) t = some (label ++ [']'], '(' :: after))
      (hstop : find? ')' after = some stop)
      (htarget : cut? stop after = some (target, ')' :: last)) : LinkSlicing t
        (if '\n' ∈ label ∨ '\n' ∈ target then none
        else some (label, target, close + 2 + stop + 1))

variable {t label target after last : Text} {close stop : Nat}

theorem utf8Length_linkTail (label target : Text) :
    utf8Length (linkTail label target) = utf8Length label + 2 + utf8Length target + 1 := by
  simp only [linkTail, utf8Length_append]
  rfl

/-- A link whose two ends are found: it counts when neither part has a newline. -/
theorem linkSpan?_of_closed (hlabel : ']' ∉ label) (htarget : ')' ∉ target)
    (ht : t = label ++ ']' :: '(' :: (target ++ ')' :: last)) : linkSpan? t =
      if '\n' ∈ label ∨ '\n' ∈ target then none
      else some (label, target, utf8Length label + 2 + utf8Length target + 1) := by
  have hbody : linkBody? t =
      if '\n' ∈ label ∨ '\n' ∈ target then none else some (label, target) := by
    rw [linkBody?, splitAtFirst_eq_some_iff.2 ⟨ht, hlabel⟩]
    simp only [splitAtFirst_eq_some_iff.2 ⟨rfl, htarget⟩]
  have htake : t.take (linkBodyWidth label target) = linkTail label target := by
    rw [← length_linkTail, ht, show label ++ ']' :: '(' :: (target ++ ')' :: last) =
      linkTail label target ++ last by simp [linkTail], List.take_left]
  rw [linkSpan?, hbody]
  split
  · rfl
  · rw [Option.map_some, htake, utf8Length_linkTail]

theorem linkSpan?_of_none (h : linkBody? t = none) : linkSpan? t = none := by
  rw [linkSpan?, h, Option.map_none]

/-- The search behind a label that a parenthesis follows. -/
theorem linkSlicing_of_open (hclose : find? ']' t = some close) (hl : ']' ∉ label)
    (hlabel : cut? close t = some (label, ']' :: '(' :: after))
    (hafter : cut? (close + 1) t = some (label ++ [']'], '(' :: after)) :
    LinkSlicing t (linkSpan? t) := by
  obtain ⟨ht, rfl⟩ := cut?_eq_some_iff.1 hlabel
  cases hstop : find? ')' after with
  | none =>
    have hbody : linkBody? t = none := by
      rw [linkBody?, splitAtFirst_eq_some_iff.2 ⟨ht, hl⟩]
      simp only [splitAtFirst_eq_none_iff.2 (find?_eq_none_iff.1 hstop)]
    rw [linkSpan?_of_none hbody]
    exact .unclosed hclose hlabel hafter hstop
  | some stop =>
    obtain ⟨target, last, htg, htarget, -⟩ := exists_cut?_of_find? hstop
    obtain ⟨rfl, rfl⟩ := cut?_eq_some_iff.1 htarget
    rw [linkSpan?_of_closed hl htg ht]
    exact .closed hclose hlabel hafter hstop htarget

/-- **The search for a link** slices off its label and its target, and gives its length. -/
theorem linkSlicing (t : Text) : LinkSlicing t (linkSpan? t) := by
  cases hclose : find? ']' t with
  | none =>
    have hbody : linkBody? t = none := by
      rw [linkBody?, splitAtFirst_eq_none_iff.2 (find?_eq_none_iff.1 hclose)]
    rw [linkSpan?_of_none hbody]
    exact .noLabel hclose
  | some close =>
    obtain ⟨label, after, hl, hlabel, hafter⟩ := exists_cut?_of_find? hclose
    by_cases hopen : after.head? = some '('
    · obtain ⟨after, rfl⟩ := List.head?_eq_some_iff.1 hopen
      exact linkSlicing_of_open hclose hl hlabel hafter
    · obtain ⟨ht, -⟩ := cut?_eq_some_iff.1 hlabel
      have hbody : linkBody? t = none := by
        rw [linkBody?, splitAtFirst_eq_some_iff.2 ⟨ht, hl⟩]
        split
        · rename_i he
          obtain ⟨-, rfl⟩ := Prod.mk.inj (Option.some.inj he)
          exact absurd rfl hopen
        · rfl
      rw [linkSpan?_of_none hbody]
      exact .noTarget hclose hlabel hafter hopen

/-- The marker of an item, and the slices that it is read from. -/
inductive MarkerSlicing (t : Text) : Marker → Prop
  | bullet {c : Char} {blanks after : Text} (hc : isBullet c) (hi : ∀ c ∈ blanks, isIndent c)
      (hbullet : cut? c.utf8Size t = some ([c], blanks ++ after))
      (hblanks : cut? (utf8Length blanks) (blanks ++ after) = some (blanks, after)) :
      MarkerSlicing t ⟨.bulleted, 1, 1 + blanks.length⟩
  | number {digits blanks after : Text} (hd : ∀ c ∈ digits, c.isDigit)
      (hi : ∀ c ∈ blanks, isIndent c)
      (hdigits : cut? (utf8Length digits) t = some (digits, '.' :: (blanks ++ after)))
      (hblanks : cut? (utf8Length blanks) (blanks ++ after) = some (blanks, after)) :
      MarkerSlicing t
        ⟨.numbered, min (toNat 10 digits) OpenList.maxNumber, digits.length + 1 + blanks.length⟩

theorem markerSlicing {marker : Marker} (h : marker? t = some marker) : MarkerSlicing t marker := by
  have hrun (p : Char → Bool) (u : Text) : ∀ c ∈ u.takeWhile p, p c :=
    List.all_eq_true.1 List.all_takeWhile
  cases t with
  | nil => cases h
  | cons c t =>
    rw [marker?] at h
    split at h
    · rename_i hc
      have hbullet : cut? c.utf8Size (c :: t) =
          some ([c], t.takeWhile isIndent ++ t.dropWhile isIndent) := by
        rw [List.takeWhile_append_dropWhile]
        exact cut?_append [c] t
      split at h
      · cases h
      · cases h
        exact .bullet hc (hrun isIndent t) hbullet (cut?_append _ _)
    · have hdigits := cut?_append ((c :: t).takeWhile Char.isDigit)
        ((c :: t).dropWhile Char.isDigit)
      rw [List.takeWhile_append_dropWhile] at hdigits
      split at h
      · cases h
      · rename_i after hd _
        rw [hd, ← List.takeWhile_append_dropWhile (p := isIndent) (l := after)] at hdigits
        cases h
        exact .number (hrun Char.isDigit _) (hrun isIndent after) hdigits (cut?_append _ _)
      · cases h

end Markdown

/-! ## Rules with their slices -/

namespace Draft

/-- Nothing waits. -/
def empty : Draft := ⟨[], 0⟩

/-- Puts a text in. -/
def add (t : Text) (d : Draft) : Draft := ⟨d.text ++ t, d.mark⟩

/-- Puts a blank in for the end of a line, and the mark behind it. -/
def endLine (d : Draft) : Draft := ⟨d.text ++ [' '], utf8Length (d.text ++ [' '])⟩

end Draft

namespace State

/-- The rules for the beginning of a line, each with the slices that it takes. -/
inductive BlockSlicing (s : State) : Move → Prop
  | paragraphBreak : BlockSlicing s s.paragraphBreak
  | box {line below : Text} (hline : cutLine? s.input.rest = some (line, below))
      (hlast : line.getLast? = some '#') : BlockSlicing s
        ({ s with input := s.input.advance (line.length + 1), freshLine := true }.release.andThen
          (announce (hashLine line)))
  | header {line below hashes title : Text} (hline : cutLine? s.input.rest = some (line, below))
      (hlast : line.getLast? ≠ some '#')
      (htitle : cut? (line.takeWhile (· == '#')).length line = some (hashes, title)) :
      BlockSlicing s
        ({ s with input := s.input.advance (line.length + 1), freshLine := true }.release.andThen
          (announce [.heading (.ofHashes hashes.length) (trim isBlank title)]))
  | openFence {line below info : Text} (hline : cutLine? s.input.rest = some (line, below))
      (hinfo : cut? (utf8Length fence) line = some (fence, info)) : BlockSlicing s
        ({ s with input := s.input.advance (line.length + 1), inFence := true }.release.andThen
          (announce [.fenceOpen]))
  | item {blanks t : Text} {marker : Marker} (hb : ∀ c ∈ blanks, isIndent c)
      (hblanks : cut? (utf8Length blanks) s.input.rest = some (blanks, t))
      (hmarker : MarkerSlicing t marker) : BlockSlicing s
        ({ s with input := s.input.advance (blanks.length + marker.width) }.release.andThen
          (placeItem marker (indentWidth blanks)))

/-- The rules for running text, each with the slices that it takes and with what it does to the
running text that is kept. -/
inductive TextSlicing (mk : Markup) (s : State) (d : Draft) : Move → Draft → Prop
  | underline {u line below above title : Text} {m : Move}
      (hbelow : cut? 1 s.input.rest = some (['\n'], u)) (hline : cutLine? u = some (line, below))
      (hu : isUnderline line) (htitle : cut? d.mark d.text = some (above, title))
      (hm : m = { s with
        input := (s.input.advance 1).advance (line.length + 1), freshLine := true }.underlined)
      (hraised : Raised.events mk m.raised = Raised.events mk
        [⟨.text (above.map .char), s.lists⟩, ⟨.title (title.map .char), s.lists⟩]) :
      TextSlicing mk s d m .empty
  | join {u line below : Text} (hbelow : cut? 1 s.input.rest = some (['\n'], u))
      (hline : cutLine? u = some (line, below)) (hu : ¬ isUnderline line) :
      TextSlicing mk s d (.silent { s with
        input := s.input.advance 1, freshLine := true,
        buffer := (s.buffer.push [.char ' ']).markLine }) d.endLine
  | emphasis {delimiter after : Text} {width : Nat} {pieces : List Piece} {bold italic : Bool}
      (hdelimiter : cut? width s.input.rest = some (delimiter, after))
      (hw : width = delimiter.length) (hd : ∀ c ∈ delimiter, c = '*' ∨ c = '_')
      (hp : pieces = delimiter.map .char ∨ ∃ x, pieces = [.mark x]) :
      TextSlicing mk s d (.silent { s.push pieces with
        input := s.input.advance width, bold := bold, italic := italic })
        (d.add (expand mk pieces))
  | code {u code after : Text} {n : Nat} (hmark : cut? 1 s.input.rest = some ([codeMark], u))
      (hend : find? codeMark u = some n) (hcode : cut? n u = some (code, codeMark :: after)) :
      TextSlicing mk s d
        (.silent { s.push (codePieces code) with input := s.input.advance (code.length + 2) })
        (d.add (expand mk (codePieces code)))
  | link {lead u label target taken after : Text} {span : Nat} (hl : lead = [] ∨ lead = ['!'])
      (hbody : cut? (utf8Length lead + 1) s.input.rest = some (lead ++ ['['], u))
      (hlink : LinkSlicing u (some (label, target, span)))
      (hspan : cut? (utf8Length lead + 1 + span) s.input.rest = some (taken, after)) :
      TextSlicing mk s d
        ({ s with input := s.input.advance taken.length }.release.andThen
          (announce [linkEvent label target])) .empty
  | bracket {lead u after : Text} {c : Char} (hl : lead = [] ∨ lead = ['!'])
      (hbody : cut? (utf8Length lead + 1) s.input.rest = some (lead ++ ['['], u))
      (hlink : LinkSlicing u none) (hc : cut? c.utf8Size s.input.rest = some ([c], after)) :
      TextSlicing mk s d (.silent { s.push [.char c] with input := s.input.advance 1 }) (d.add [c])
  | literal {c : Char} {after : Text} (hc : cut? c.utf8Size s.input.rest = some ([c], after)) :
      TextSlicing mk s d (.silent { s.push [.char c] with input := s.input.advance 1 }) (d.add [c])

/-- All rules, each with the slices that it takes and with what it does to the running text. -/
inductive Slicing (mk : Markup) (s : State) (d : Draft) : Move → Draft → Prop
  | fenceClose {line below : Text} (hfence : s.input.startsWith fence)
      (hline : cutLine? s.input.rest = some (line, below)) : Slicing mk s d
        (announce [.fenceClose] { s with
          input := s.input.advance (line.length + 1), inFence := false, freshLine := true }) d
  | fenceLine {line below : Text} (hfence : ¬ s.input.startsWith fence)
      (hline : cutLine? s.input.rest = some (line, below)) : Slicing mk s d
        (announce [.fenceLine line] { s with input := s.input.advance (line.length + 1) }) d
  | backslash : Slicing mk s d s.backslash (d.add [(s.input.nth? 1).elim '\\' escaped])
  | block {m : Move} (h : s.midLine.BlockSlicing m) : Slicing mk s d m .empty
  | text {m : Move} {d' : Draft} (h : s.midLine.TextSlicing mk d m d') : Slicing mk s d m d'

variable {mk : Markup} {s t : State} {m n : Move} {d d' : Draft}

/-! ## Every step slices as its rule does -/

theorem cutLine?_rest (s : State) : cutLine? s.input.rest =
    some (s.input.restOfLine, s.input.rest.drop s.input.restOfLine.length) :=
  cutLine?_eq s.input.rest

theorem blockSlicing_of_rule (h : BlockRule s m) : s.BlockSlicing m := by
  cases h with
  | paragraphBreak => exact .paragraphBreak
  | hashRule =>
    have hline := s.cutLine?_rest
    by_cases hlast : s.input.restOfLine.getLast? = some '#'
    · exact .box hline hlast
    · have hhashes : s.Slices tagMarkup _ _ _ _ := .hashes
      have hevents : hashLine s.input.restOfLine = _ := if_neg hlast
      simp only [hashRule, Zipper.splitLine, hevents]
      exact .header hline hlast (cut?_of_slices hhashes)
  | openFence hr =>
    have hinfo : s.Slices tagMarkup _ _ _ _ := .fenceInfo hr
    exact .openFence s.cutLine?_rest (cut?_of_slices hinfo)
  | item hr hb hm =>
    exact .item hb (cut?_eq_some_iff.2 ⟨hr, rfl⟩) (markerSlicing hm)

theorem cut?_rest_one {c : Char} {u : Text} (hr : s.input.rest = c :: u) :
    cut? c.utf8Size s.input.rest = some ([c], u) := by
  rw [hr]
  exact cut?_append [c] u

theorem events_underlined_of_draft (h : t.buffer = s.buffer) (hl : t.lists = s.lists) :
    Raised.events mk t.underlined.raised = Raised.events mk
      [⟨.text ((expand mk s.buffer.held).map .char), s.lists⟩,
        ⟨.title ((expand mk s.buffer.line).map .char), s.lists⟩] := by
  rw [underlined, Move.raised_andThen, Raised.events_append, Raised.events_release, next_release]
  show _ = Raised.events mk ([⟨.text _, s.lists⟩] ++ [⟨.title _, s.lists⟩])
  rw [Raised.events_append, raise, List.map_cons, List.map_nil]
  simp only [Raised.events_singleton, Signal.event?_text, Signal.event?_title, expand_chars,
    Buffer.all_dropLine, h, hl]

theorem textSlicing_of_lineEnd {u : Text} (hr : s.input.rest = '\n' :: u) :
    ∃ d', s.TextSlicing mk (s.draft mk) s.lineEnd d' := by
  have hbelow := cut?_rest_one hr
  have hlook : s.input.lineBelow?.any isUnderline = isUnderline (firstLine u) := by
    rw [Zipper.lineBelow?, hr]
    rfl
  by_cases hu : isUnderline (firstLine u)
  · rw [lineEnd_of_underline (hlook.trans hu)]
    refine ⟨_, .underline hbelow (cutLine?_eq u) hu (cut?_of_slices .title) ?_
      (events_underlined_of_draft rfl rfl)⟩
    rw [Zipper.splitLine, Zipper.restOfLine, Zipper.rest_advance, hr]
    rfl
  · rw [lineEnd_of_not_underline (by rwa [hlook])]
    exact ⟨_, .join hbelow (cutLine?_eq u) hu⟩

theorem textSlicing_of_delimiter {width : Nat} {delimiter after : Text} {bold italic : Bool}
    {pieces : List Piece} (hr : s.input.rest = delimiter ++ after) (hw : width = delimiter.length)
    (hd : ∀ c ∈ delimiter, c = '*' ∨ c = '_')
    (hp : pieces = delimiter.map .char ∨ ∃ x, pieces = [.mark x]) :
    ∃ d', s.TextSlicing mk d (.silent { s.push pieces with
      input := s.input.advance width, bold := bold, italic := italic }) d' := by
  refine ⟨_, .emphasis (cut?_eq_some_iff.2 ⟨hr, ?_⟩) hw hd hp⟩
  rw [hw]
  refine utf8Length_of_ascii fun c hc => ?_
  rcases hd c hc with rfl | rfl <;> rfl

theorem textSlicing_of_boldMark {c : Char} {u : Text} (hr : s.input.rest = c :: c :: u)
    (hc : c = '*' ∨ c = '_') : ∃ d', s.TextSlicing mk d s.boldMark d' := by
  have hd : ∀ x ∈ [c, c], x = '*' ∨ x = '_' := by simpa using hc
  have hr' : s.input.rest = [c, c] ++ u := hr
  unfold boldMark
  split
  · exact textSlicing_of_delimiter hr' rfl hd (.inr ⟨_, rfl⟩)
  · split
    · exact textSlicing_of_delimiter hr' rfl hd (.inr ⟨_, rfl⟩)
    · exact textSlicing_of_delimiter hr' rfl hd (.inl (by rw [hr]; rfl))

theorem textSlicing_of_italicMark {c : Char} {u : Text} (hr : s.input.rest = c :: u)
    (hc : c = '*' ∨ c = '_') : ∃ d', s.TextSlicing mk d s.italicMark d' := by
  have hd : ∀ x ∈ [c], x = '*' ∨ x = '_' := by simpa using hc
  have hr' : s.input.rest = [c] ++ u := hr
  unfold italicMark
  split
  · exact textSlicing_of_delimiter hr' rfl hd (.inr ⟨_, rfl⟩)
  · split
    · exact textSlicing_of_delimiter hr' rfl hd (.inr ⟨_, rfl⟩)
    · exact textSlicing_of_delimiter hr' rfl hd (.inl (by rw [hr]; rfl))

theorem textSlicing_of_inlineCode {u : Text} (hr : s.input.rest = codeMark :: u)
    (h : s.inlineCode = .ok m) : ∃ d', s.TextSlicing mk d m d' := by
  unfold inlineCode at h
  rw [hr, List.drop_one, List.tail_cons] at h
  split at h
  · contradiction
  · rename_i code after hsp
    obtain ⟨rfl, hc⟩ := splitAtFirst_eq_some_iff.1 hsp
    cases h
    exact ⟨_, .code (cut?_rest_one hr) (find?_eq_some_iff.2 ⟨code, after, rfl, hc, rfl⟩)
      (cut?_append _ _)⟩

theorem textSlicing_of_bracket {lead u : Text} (h : s.AtBracket lead u) :
    ∃ d', s.TextSlicing mk d (s.bracket lead.length) d' := by
  have hbody : cut? (utf8Length lead + 1) s.input.rest = some (lead ++ ['['], u) := by
    refine cut?_eq_some_iff.2 ⟨by rw [h.rest]; simp, ?_⟩
    rw [utf8Length_append]
    rfl
  have hlink := linkSlicing u
  cases hspan : linkSpan? u with
  | none =>
    rw [hspan] at hlink
    have hnone : ∀ label target after, ¬ BeginsLink u label target after := by
      intro label target after hb
      rw [linkSpan?_eq_some_iff.2 ⟨⟨after, hb⟩, rfl⟩] at hspan
      cases hspan
    obtain ⟨c, after, hr⟩ : ∃ c after, s.input.rest = c :: after := by
      rw [h.rest]
      rcases h.opening with rfl | rfl <;> exact ⟨_, _, rfl⟩
    rw [h.bracket_of_none hnone, hr]
    exact ⟨_, .bracket h.opening hbody hlink (cut?_rest_one hr)⟩
  | some link =>
    obtain ⟨label, target, span⟩ := link
    rw [hspan] at hlink
    obtain ⟨⟨after, hb⟩, rfl⟩ := linkSpan?_eq_some_iff.1 hspan
    rw [h.bracket_of_link hb]
    have hspan : cut? (utf8Length lead + 1 + utf8Length (linkTail label target)) s.input.rest =
        some (lead ++ '[' :: linkTail label target, after) := by
      refine cut?_eq_some_iff.2 ⟨?_, ?_⟩
      · rw [h.rest, hb.eq, List.append_assoc, List.cons_append]
      · rw [utf8Length_append, utf8Length_cons, Nat.add_assoc]
        rfl
    exact ⟨_, .link h.opening hbody hlink hspan⟩

theorem textSlicing_of_textRule (hf : s.inFence = false) (hs : s.input.rest ≠ [])
    (h : s.textRule = .ok m) : ∃ d', s.TextSlicing mk (s.draft mk) m d' := by
  unfold textRule at h
  split at h
  · contradiction
  rename_i c u hr
  split at h
  · subst c
    cases h
    exact textSlicing_of_lineEnd hr
  split at h
  · rename_i hc
    cases h
    split
    · rename_i hu
      obtain ⟨u, rfl⟩ := List.head?_eq_some_iff.1 hu
      exact textSlicing_of_boldMark hr hc
    · exact textSlicing_of_italicMark hr hc
  split at h
  · subst c
    exact textSlicing_of_inlineCode hr h
  split at h
  · subst c
    cases h
    exact textSlicing_of_bracket ⟨hf, .inl rfl, hr⟩
  split at h
  · rename_i hc
    obtain ⟨rfl, hu⟩ := hc
    obtain ⟨u, rfl⟩ := List.head?_eq_some_iff.1 hu
    cases h
    exact textSlicing_of_bracket ⟨hf, .inr rfl, hr⟩
  · cases h
    exact ⟨_, .literal (cut?_rest_one hr)⟩

/-- **A step takes the slices of its rule**, all of which are there. -/
theorem slicing_of_step (mk : Markup) (hs : s.input.rest ≠ []) (h : s.step = .ok m) :
    ∃ d', s.Slicing mk (s.draft mk) m d' := by
  rw [step_eq] at h
  split at h
  · cases h
    by_cases hfence : s.input.startsWith fence
    · rw [fencedLine_of_fence hfence]
      exact ⟨_, .fenceClose hfence s.cutLine?_rest⟩
    · rw [fencedLine_of_not_fence hfence]
      exact ⟨_, .fenceLine hfence s.cutLine?_rest⟩
  rename_i hf
  rw [Bool.not_eq_true] at hf
  have htext (h : s.midLine.textRule = .ok m) : ∃ d', s.Slicing mk (s.draft mk) m d' := by
    obtain ⟨d', hd⟩ : ∃ d', s.midLine.TextSlicing mk (s.midLine.draft mk) m d' :=
      textSlicing_of_textRule hf hs h
    exact ⟨d', .text hd⟩
  split at h
  · cases h
    exact ⟨_, .backslash⟩
  split at h
  · cases hb : s.midLine.blockRule? with
    | none =>
      rw [hb] at h
      exact htext h
    | some n =>
      rw [hb] at h
      cases h
      exact ⟨_, .block (blockSlicing_of_rule (blockRule_of_blockRule? hb))⟩
  · rename_i hl
    rw [Bool.not_eq_true] at hl
    exact htext (by rwa [midLine_eq_self hl])

/-! ## The running text that is kept -/

theorem BlockSlicing.buffer_eq (h : s.BlockSlicing m) : m.next.buffer = .empty := by
  cases h with
  | paragraphBreak => exact buffer_paragraphBreak s
  | item => exact buffer_placeItem _ _ _
  | _ => simp [next_release]

theorem draft_of_char {c : Char} (h : t.buffer = s.buffer.push [.char c]) :
    t.draft mk = (s.draft mk).add [c] := draft_of_push h

theorem TextSlicing.eq_draft (h : s.TextSlicing mk (s.draft mk) m d) : d = m.next.draft mk := by
  cases h with
  | underline _ _ _ _ hm =>
    rw [hm]
    exact (draft_of_empty (by simp [underlined, next_release])).symm
  | join => exact (draft_of_join rfl).symm
  | emphasis => exact (draft_of_push rfl).symm
  | code => exact (draft_of_push rfl).symm
  | link => exact (draft_of_empty (by simp [next_release])).symm
  | bracket => exact (draft_of_char rfl).symm
  | literal => exact (draft_of_char rfl).symm

/-- What is kept is what waits, if it was so before. -/
theorem Slicing.eq_draft (h : s.Slicing mk (s.draft mk) m d) : d = m.next.draft mk := by
  cases h with
  | fenceClose => rfl
  | fenceLine => rfl
  | backslash => exact (draft_of_char rfl).symm
  | block h => exact (draft_of_empty h.buffer_eq).symm
  | text h => exact h.eq_draft (s := s.midLine)

/-- A reading beside which the running text and its mark are kept from step to step. -/
inductive KeepsDraft (mk : Markup) : State → Draft → Move → Draft → Prop
  | stop (s : State) (d : Draft) : KeepsDraft mk s d (.silent s) d
  | step {s : State} {m n : Move} {d d' d'' : Draft} (hs : s.input.rest ≠ [])
      (hm : s.step = .ok m) (hd : s.Slicing mk d m d') (hn : KeepsDraft mk m.next d' n d'') :
      KeepsDraft mk s d (m.andThen fun _ => n) d''

theorem KeepsDraft.reads (h : KeepsDraft mk s d m d') : Reads s m := by
  induction h with
  | stop s => exact .stop s
  | step hs hm _ _ ih => exact .step hs hm ih

theorem KeepsDraft.eq_draft (h : KeepsDraft mk s d m d') (hd : d = s.draft mk) :
    d' = m.next.draft mk := by
  induction h with
  | stop => exact hd
  | step _ _ hslicing _ ih =>
    subst hd
    exact ih hslicing.eq_draft

/-- Beside a reading the running text can be kept all along. -/
theorem Reads.keepsDraft (mk : Markup) (h : Reads s m) :
    KeepsDraft mk s (s.draft mk) m (m.next.draft mk) := by
  induction h with
  | stop s => exact .stop s _
  | step hs hm _ ih =>
    obtain ⟨d, hd⟩ := slicing_of_step mk hs hm
    obtain rfl := hd.eq_draft
    exact .step hs hm hd ih

end State

open State (KeepsDraft)

/-- **Beside every reading exactly one running text is kept**, which begins with nothing and takes
from each step what its rule puts in.  Its mark cuts it, so the line that an underline makes a title
can always be sliced off; and in a step that follows, each slice that its rule takes is there. -/
theorem Zipper.exists_kept (mk : Markup) (z : Zipper) {m : Move} (h : Reads (.initial z) m) :
    ∃ d, (∀ d', KeepsDraft mk (.initial z) .empty m d' ↔ d' = d) ∧
      d.mark ≤ utf8Length d.text ∧ (∃ above title, cut? d.mark d.text = some (above, title)) ∧
      ∀ n, m.next.input.rest ≠ [] → m.next.step = .ok n → ∃ d', m.next.Slicing mk d n d' := by
  have hcut : cut? (m.next.draft mk).mark (m.next.draft mk).text = some _ :=
    State.cut?_of_slices .title
  refine ⟨m.next.draft mk, fun d' => ⟨fun hk => hk.eq_draft rfl, ?_⟩, h.inBounds.mark_le,
    ⟨_, _, hcut⟩, fun n => State.slicing_of_step mk⟩
  rintro rfl
  exact h.keepsDraft mk

end Roffdown
