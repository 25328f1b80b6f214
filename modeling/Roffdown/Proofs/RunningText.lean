import Roffdown.Proofs.Requests
import Roffdown.Proofs.Spelling

/-!
# What is put into running text

A step puts pieces into the running text that waits, or raises what waits, whole or cut where the
current line began.  Nothing is lost and nothing is put in twice, so the pieces that are raised are
those that were put in, in their order, and what a reading raises can be told from what its steps
put in.

* `Move.taken`, `Move.put`: the pieces that a move raises and leaves, and those that it has put in.
* `Zipper.Puts`, `State.Writes`: what one step puts in, and what it does with what waits.
* `State.writes_of_step`: every step writes.
* `State.Reads.taken_eq`, `State.put_andThen`: what a reading puts in, its steps put in.
* `Toggles`: the marks that can follow each other, with bold and italic as they leave them.
* `exists_collapse_expand`: collapsing keeps the pieces that are shown.
-/

namespace Roffdown

open Markdown Text
open State (Reads)

/-! ## Pieces that are raised and that wait -/

/-- The mark that a piece is, if it is one. -/
def Piece.mark? : Piece → Option FontMark
  | .char _ => none
  | .mark x => some x

/-- The marks of running text. -/
def marksOf (pieces : List Piece) : List FontMark := pieces.filterMap Piece.mark?

@[simp] theorem marksOf_nil : marksOf [] = [] := rfl

@[simp] theorem marksOf_append (p q : List Piece) : marksOf (p ++ q) = marksOf p ++ marksOf q :=
  List.filterMap_append

@[simp] theorem marksOf_chars (t : Text) : marksOf (t.map .char) = [] := by
  simp [marksOf, Piece.mark?]

theorem marksOf_codePieces (code : Text) : marksOf (codePieces code) = [.codeOn, .codeOff] := by
  rw [codePieces, List.cons_append, ← List.singleton_append, marksOf_append, marksOf_append,
    marksOf_chars]
  rfl

theorem marksOf_filter_isShown (pieces : List Piece) :
    marksOf (pieces.filter Piece.isShown) = marksOf pieces := by
  rw [marksOf, List.filterMap_filter, marksOf]
  congr 1
  funext p
  cases p
  · split <;> rfl
  · rfl

/-- The running text of a signal. -/
def Signal.pieces : Signal → List Piece
  | .text pieces => pieces
  | .title pieces => pieces
  | .event _ => []

/-- The running text among what is raised, part by part. -/
def Raised.parts (signals : List (Raised Signal)) : List (List Piece) :=
  (signals.map fun r => r.item.pieces).filter fun p => !p.isEmpty

theorem Raised.flatten_parts (signals : List (Raised Signal)) :
    (parts signals).flatten = signals.flatMap fun r => r.item.pieces := by
  rw [parts, List.flatten_filter_not_isEmpty, List.flatMap_def]

@[simp] theorem Raised.parts_nil : parts [] = [] := rfl

@[simp] theorem Raised.parts_append (a b : List (Raised Signal)) :
    parts (a ++ b) = parts a ++ parts b := by simp [parts]

theorem Raised.parts_eq_nil {signals : List (Raised Signal)}
    (h : ∀ r ∈ signals, ∃ e, r.item = .event e) : parts signals = [] := by
  rw [parts, List.filter_eq_nil_iff]
  intro p hp
  obtain ⟨r, hr, rfl⟩ := List.mem_map.1 hp
  obtain ⟨e, he⟩ := h r hr
  rw [he]
  exact Bool.false_ne_true

theorem Raised.parts_release (s : State) :
    parts s.release.raised = [s.buffer.all].filter fun p => !p.isEmpty := by
  unfold State.release
  split
  · rename_i h
    rw [h]
    rfl
  · rfl

namespace Move

/-- The running text that a move raises, and after it what it leaves waiting. -/
def taken (m : Move) : List Piece := (Raised.parts m.raised).flatten ++ m.next.buffer.all

/-- What a move from a state has put into the running text. -/
def put (s : State) (m : Move) : List Piece := m.taken.drop s.buffer.all.length

/-- What a move does to the running text that waits: it adds to it, ends a line, or raises it. -/
inductive OnBuffer (b : Buffer) (m : Move) : List Piece → Prop
  | put (pieces : List Piece) (hp : Raised.parts m.raised = [])
      (hb : m.next.buffer = b.push pieces) : OnBuffer b m pieces
  | join (hp : Raised.parts m.raised = [])
      (hb : m.next.buffer = (b.push [.char ' ']).markLine) : OnBuffer b m [.char ' ']
  | release (hp : Raised.parts m.raised = [b.all].filter fun p => !p.isEmpty)
      (hb : m.next.buffer = .empty) : OnBuffer b m []
  | underline (hp : Raised.parts m.raised = [b.held, b.line].filter fun p => !p.isEmpty)
      (hb : m.next.buffer = .empty) : OnBuffer b m []

variable {b : Buffer} {m : Move} {pieces : List Piece}

/-- Nothing is lost, and nothing but the new pieces is there afterwards. -/
theorem OnBuffer.taken_eq (h : m.OnBuffer b pieces) : m.taken = b.all ++ pieces := by
  unfold taken
  cases h with
  | put _ hp hb => rw [hp, hb, Buffer.all_push]; rfl
  | join hp hb => rw [hp, hb, Buffer.all_markLine, Buffer.all_push]; rfl
  | release hp hb => rw [hp, hb, List.flatten_filter_not_isEmpty]; simp
  | underline hp hb => rw [hp, hb, List.flatten_filter_not_isEmpty, b.all_eq]; simp

/-- What holds of the parts that wait and of what is put in, and of two texts together, holds of the
parts that are raised and of those that wait afterwards. -/
theorem OnBuffer.forall_parts {Q : List Piece → Prop} (happ : ∀ p q, Q p → Q q → Q (p ++ q))
    (h : m.OnBuffer b pieces) (hnil : Q []) (hheld : Q b.held) (hline : Q b.line)
    (hpieces : Q pieces) :
    (∀ p ∈ Raised.parts m.raised, Q p) ∧ Q m.next.buffer.held ∧ Q m.next.buffer.line := by
  have hall : Q b.all := by
    rw [Buffer.all_eq]
    exact happ _ _ hheld hline
  cases h with
  | put _ hp hb =>
    rw [hp, hb, Buffer.held_push, Buffer.line_push]
    exact ⟨List.forall_mem_nil _, hheld, happ _ _ hline hpieces⟩
  | join hp hb =>
    rw [hp, hb, Buffer.held_markLine, Buffer.line_markLine, Buffer.all_push]
    exact ⟨List.forall_mem_nil _, happ _ _ hall hpieces, hnil⟩
  | release hp hb =>
    rw [hp, hb]
    refine ⟨fun p hp => ?_, hnil, hnil⟩
    obtain rfl := List.mem_singleton.1 (List.mem_filter.1 hp).1
    exact hall
  | underline hp hb =>
    rw [hp, hb]
    refine ⟨fun p hp => ?_, hnil, hnil⟩
    rcases List.mem_pair.1 (List.mem_filter.1 hp).1 with rfl | rfl
    · exact hheld
    · exact hline

end Move

/-! ## What a step puts in -/

/-- A delimiter of emphasis stands at the place. -/
def Zipper.AtDelimiter (z : Zipper) : Prop := z.next? = some '*' ∨ z.next? = some '_'

/-- What a step at a place puts into the running text, and how it leaves bold and italic.  The
characters are of the text, or none that is higher than a space. -/
inductive Zipper.Puts (z : Zipper) (bold italic : Bool) : List Piece → Bool → Bool → Prop
  | chars {t : Text} (h : ∀ c ∈ t, c ∈ z.rest ∨ c ≤ ' ') :
      Puts z bold italic (t.map .char) bold italic
  | code {code : Text} (hz : z.next? = some codeMark) (h : ∀ c ∈ code, c ∈ z.rest) :
      Puts z bold italic (codePieces code) bold italic
  | boldOn (hz : z.AtDelimiter) (ho : z.previous?.all isBoundary) (hb : bold = false) :
      Puts z bold italic [.mark .boldOn] true italic
  | boldOff (hb : bold = true) : Puts z bold italic [.mark .styleOff] false italic
  | italicOn (hz : z.AtDelimiter) (ho : z.previous?.all isBoundary) (hi : italic = false) :
      Puts z bold italic [.mark .italicOn] bold true
  | italicOff (hi : italic = true) : Puts z bold italic [.mark .styleOff] bold false

/-- The text that an event shows as a line or a title. -/
def Event.line? : Event → Option Text
  | .text line => some line
  | .heading _ title => some title
  | _ => none

/-- What an event shows as a line or a title is all in the text after the place. -/
def Zipper.Quotes (z : Zipper) (e : Event) : Prop := ∀ t, e.line? = some t → ∀ c ∈ t, c ∈ z.rest

namespace State

/-- What a step does to the running text and to emphasis.  Lines and titles that it does not take
from the running text it takes from the document. -/
structure Writes (s : State) (m : Move) (pieces : List Piece) : Prop where
  onBuffer : m.OnBuffer s.buffer pieces
  puts : s.input.Puts s.bold s.italic pieces m.next.bold m.next.italic
  quotes : ∀ r ∈ m.raised, ∀ e, r.item = .event e → s.input.Quotes e

variable {s t : State} {m : Move} {pieces : List Piece}

theorem quotes_of_isOfList {z : Zipper} {e : Event} (h : e.isOfList) : z.Quotes e := by
  intro t ht
  cases e <;> first | (cases h; done) | cases ht

theorem puts_nothing (z : Zipper) (bold italic : Bool) : z.Puts bold italic [] bold italic :=
  .chars (t := []) (List.forall_mem_nil _)

theorem item_of_mem_release {r : Raised Signal} (h : r ∈ t.release.raised) :
    r.item = .text t.buffer.all := by
  unfold release at h
  split at h
  · cases h
  · obtain rfl := List.mem_singleton.1 h
    rfl

theorem writes_push (hb : t.buffer = s.buffer.push pieces)
    (hp : s.input.Puts s.bold s.italic pieces t.bold t.italic) : s.Writes (.silent t) pieces :=
  ⟨.put _ rfl hb, hp, List.forall_mem_nil _⟩

/-- What waits is released, and events are raised after it. -/
theorem writes_release {P : Event → Prop} {f : State → Move} (hf : OnLists P f)
    (hb : t.buffer = s.buffer) (hbold : t.bold = s.bold) (hitalic : t.italic = s.italic)
    (hq : ∀ e, P e → s.input.Quotes e) : s.Writes (t.release.andThen f) [] := by
  refine ⟨.release ?_ ?_, ?_, ?_⟩
  · rw [Move.raised_andThen, Raised.parts_append, Raised.parts_release,
      Raised.parts_eq_nil (hf.item_eq _), List.append_nil, hb]
  · rw [Move.next_andThen, hf.next_eq, next_release]
  · rw [Move.next_andThen, hf.next_eq, next_release, ← hbold, ← hitalic]
    exact puts_nothing _ _ _
  · intro r hr e he
    rcases List.mem_append.1 hr with hr | hr
    · rw [item_of_mem_release hr] at he
      cases he
    · obtain ⟨e', he', hP⟩ := hf.events _ r hr
      obtain rfl := Signal.event.inj (he.symm.trans he')
      exact hq e hP

theorem writes_of_blockRule (h : BlockRule s m) : s.Writes m [] := by
  cases h with
  | paragraphBreak =>
    refine writes_release onLists_breakList rfl rfl rfl ?_
    rintro e (he | rfl)
    · exact quotes_of_isOfList he
    · intro t ht
      cases ht
  | hashRule =>
    refine writes_release (onLists_announce fun _ he => he) rfl rfl rfl fun e he t ht c hc => ?_
    have hwords : e.words = t := by cases e <;> first | exact Option.some.inj ht | cases ht
    rw [← hwords] at hc
    exact (List.takeWhile_prefix _).subset (mem_of_mem_words_hashLine he hc)
  | openFence =>
    refine writes_release (onLists_announce (List.forall_mem_singleton.2 rfl)) rfl rfl rfl ?_
    rintro e rfl t ht
    cases ht
  | item =>
    exact writes_release (onLists_placeItem _ _) rfl rfl rfl fun _ => quotes_of_isOfList

theorem writes_fencedLine : s.Writes s.fencedLine [] := by
  have hnone {e : Event} (he : e.line? = none) {t : State} (hb : t.buffer = s.buffer)
      (hbold : t.bold = s.bold) (hitalic : t.italic = s.italic) : s.Writes (t.announce [e]) [] := by
    refine ⟨.put [] rfl hb, ?_, ?_⟩
    · rw [next_announce, hbold, hitalic]
      exact puts_nothing _ _ _
    · intro r hr e' he' u hu
      obtain rfl := List.mem_singleton.1 hr
      obtain rfl := Signal.event.inj he'
      rw [he] at hu
      cases hu
  by_cases h : s.input.startsWith fence
  · rw [fencedLine_of_fence h]
    exact hnone rfl rfl rfl rfl
  · rw [fencedLine_of_not_fence h]
    exact hnone rfl rfl rfl rfl

theorem escaped_eq_or (c : Char) : escaped c = c ∨ escaped c ≤ ' ' := by
  unfold escaped
  split <;> first | exact .inr (by decide) | exact .inl rfl

theorem writes_backslash {u : Text} (hr : s.input.rest = '\\' :: u) :
    s.Writes s.backslash [.char ((s.input.nth? 1).elim '\\' escaped)] := by
  refine writes_push rfl (.chars (t := [_]) (List.forall_mem_singleton.2 ?_))
  cases hu : s.input.nth? 1 with
  | none => exact .inl (by rw [hr]; exact List.mem_cons_self)
  | some c =>
    have hc : c ∈ s.input.rest := List.mem_of_getElem? hu
    rcases escaped_eq_or c with he | he
    · rw [Option.elim_some, he]
      exact .inl hc
    · exact .inr he

theorem writes_lineEnd : ∃ pieces, s.Writes s.lineEnd pieces := by
  by_cases h : s.input.lineBelow?.any isUnderline
  · refine ⟨[], ?_⟩
    rw [lineEnd_of_underline h]
    refine ⟨.underline ?_ ?_, ?_, ?_⟩
    · rw [underlined, Move.raised_andThen, Raised.parts_append, Raised.parts_release,
        Buffer.all_dropLine]
      exact (List.filter_append [s.buffer.held] [s.buffer.line]).symm
    · rw [underlined, Move.next_andThen, next_raise, next_release]
    · rw [underlined, Move.next_andThen, next_raise, next_release]
      exact puts_nothing _ _ _
    · intro r hr e he
      rcases List.mem_append.1 hr with hr | hr
      · rw [item_of_mem_release hr] at he
        cases he
      · obtain rfl := List.mem_singleton.1 hr
        cases he
  · refine ⟨[.char ' '], ?_⟩
    rw [lineEnd_of_not_underline h]
    refine ⟨.join rfl rfl, ?_, List.forall_mem_nil _⟩
    exact .chars (t := [' ']) (List.forall_mem_singleton.2 (.inr (by decide)))

/-- Characters of the text put in as they stand. -/
theorem puts_take (z : Zipper) (bold italic : Bool) (n : Nat) :
    z.Puts bold italic ((z.rest.take n).map .char) bold italic :=
  .chars fun _ hc => .inl (List.mem_of_mem_take hc)

theorem writes_boldMark (hz : s.input.AtDelimiter) : ∃ pieces, s.Writes s.boldMark pieces := by
  unfold boldMark
  split
  · rename_i hb
    exact ⟨_, writes_push rfl (.boldOff hb)⟩
  · rename_i hb
    split
    · rename_i ho
      exact ⟨_, writes_push rfl (.boldOn hz ho (Bool.eq_false_iff.2 hb))⟩
    · exact ⟨_, writes_push rfl (puts_take _ _ _ _)⟩

theorem writes_italicMark (hz : s.input.AtDelimiter) : ∃ pieces, s.Writes s.italicMark pieces := by
  unfold italicMark
  split
  · rename_i hi
    exact ⟨_, writes_push rfl (.italicOff hi)⟩
  · rename_i hi
    split
    · rename_i ho
      exact ⟨_, writes_push rfl (.italicOn hz ho (Bool.eq_false_iff.2 hi))⟩
    · exact ⟨_, writes_push rfl (puts_take _ _ _ _)⟩

theorem writes_bracket (lead : Nat) : ∃ pieces, s.Writes (s.bracket lead) pieces := by
  unfold bracket
  split
  · rename_i label target hb
    refine ⟨[], writes_release (onLists_announce (List.forall_mem_singleton.2 rfl)) rfl rfl rfl ?_⟩
    rintro e rfl t ht
    unfold linkEvent at ht
    split at ht <;> cases ht
  · exact ⟨_, writes_push rfl (puts_take _ _ _ _)⟩

theorem writes_inlineCode {u : Text} (hr : s.input.rest = codeMark :: u)
    (h : s.inlineCode = .ok m) : ∃ pieces, s.Writes m pieces := by
  unfold inlineCode at h
  rw [hr, List.drop_one, List.tail_cons] at h
  split at h
  · cases h
  · rename_i code after hsplit
    obtain ⟨rfl, -⟩ := splitAtFirst_eq_some_iff.1 hsplit
    cases h
    refine ⟨_, writes_push rfl (.code (congrArg List.head? hr) fun c hc => ?_)⟩
    rw [hr]
    exact List.mem_cons_of_mem _ (List.mem_append_left _ hc)

theorem writes_of_textRule (h : s.textRule = .ok m) (hs : s.input.rest ≠ []) :
    ∃ pieces, s.Writes m pieces := by
  unfold textRule at h
  split at h
  · contradiction
  rename_i c u hr
  split at h
  · cases h
    exact writes_lineEnd
  split at h
  · rename_i hc
    have hz : s.input.AtDelimiter := by
      rw [Zipper.AtDelimiter, Zipper.next?, hr]
      exact hc.imp (congrArg some) (congrArg some)
    cases h
    split
    · exact writes_boldMark hz
    · exact writes_italicMark hz
  split at h
  · subst c
    exact writes_inlineCode hr h
  split at h
  · cases h
    exact writes_bracket 0
  split at h
  · cases h
    exact writes_bracket 1
  · cases h
    refine ⟨_, writes_push rfl (.chars (t := [c]) (List.forall_mem_singleton.2 (.inl ?_)))⟩
    rw [hr]
    exact List.mem_cons_self

/-- **Every step writes** what it has put in. -/
theorem writes_of_step (hs : s.input.rest ≠ []) (h : s.step = .ok m) : s.Writes m (m.put s) := by
  have hmid {p : List Piece} (h : s.midLine.Writes m p) : s.Writes m p := ⟨h.1, h.2, h.3⟩
  obtain ⟨pieces, hw⟩ : ∃ pieces, s.Writes m pieces := by
    rw [step_eq] at h
    split at h
    · cases h
      exact ⟨_, writes_fencedLine⟩
    split at h
    · rename_i hc
      obtain ⟨u, hu⟩ := List.head?_eq_some_iff.1 hc
      cases h
      exact ⟨_, writes_backslash hu⟩
    split at h
    · cases hb : s.midLine.blockRule? with
      | none =>
        rw [hb] at h
        exact (writes_of_textRule (s := s.midLine) h hs).imp fun _ => hmid
      | some n =>
        rw [hb] at h
        cases h
        exact ⟨_, hmid (writes_of_blockRule (blockRule_of_blockRule? hb))⟩
    · exact writes_of_textRule h hs
  have hput : m.put s = pieces := by rw [Move.put, hw.onBuffer.taken_eq, List.drop_left]
  rwa [hput]

/-! ## What a reading puts in -/

theorem reads_of_step (hs : s.input.rest ≠ []) (h : s.step = .ok m) : Reads s m := by
  have hone := Reads.step hs h (.stop m.next)
  rwa [show (m.andThen fun _ => .silent m.next) = m from m.andThen_silent] at hone

theorem taken_eq_of_step (hs : s.input.rest ≠ []) (h : s.step = .ok m) :
    m.taken = s.buffer.all ++ m.put s :=
  (writes_of_step hs h).onBuffer.taken_eq

theorem taken_andThen (m n : Move) :
    (m.andThen fun _ => n).taken = (Raised.parts m.raised).flatten ++ n.taken := by
  simp [Move.taken]

theorem Reads.exists_taken (h : Reads s m) : ∃ p, m.taken = s.buffer.all ++ p := by
  induction h with
  | stop s => exact ⟨[], (List.append_nil _).symm⟩
  | @step s m n hs hm _ ih =>
    obtain ⟨p, hp⟩ := ih
    have hfirst := taken_eq_of_step hs hm
    rw [Move.taken] at hfirst
    exact ⟨m.put s ++ p, by rw [taken_andThen, hp, ← List.append_assoc, hfirst, List.append_assoc]⟩

/-- A reading raises and leaves what waited before and what it has put in. -/
theorem Reads.taken_eq (h : Reads s m) : m.taken = s.buffer.all ++ m.put s := by
  obtain ⟨p, hp⟩ := h.exists_taken
  rw [Move.put, hp, List.drop_left]

/-- What two readings put in is put in one after the other. -/
theorem put_andThen {n : Move} (hm : Reads s m) (hn : Reads m.next n) :
    (m.andThen fun _ => n).put s = m.put s ++ n.put m.next := by
  have htaken := (hm.trans hn).taken_eq
  have hfirst := hm.taken_eq
  rw [Move.taken] at hfirst
  rw [taken_andThen, hn.taken_eq, ← List.append_assoc, hfirst, List.append_assoc] at htaken
  exact (List.append_cancel_left htaken).symm

theorem Reads.rest_subset (h : Reads s m) : m.next.input.rest ⊆ s.input.rest := by
  obtain ⟨n, hn⟩ := h.exists_advance
  rw [hn]
  exact List.drop_subset n _

theorem mem_of_mem_codePieces {code : Text} {c : Char} (h : .char c ∈ codePieces code) :
    c ∈ code ∨ c = 'e' := by
  simp only [codePieces, List.cons_append, List.mem_cons, List.mem_append, List.mem_map,
    List.mem_flatMap, List.not_mem_nil, or_false, reduceCtorEq, false_or, Piece.char.injEq,
    exists_eq_right] at h
  obtain ⟨d, hd, hc⟩ := h
  split at hc
  · subst d
    rcases List.mem_pair.1 hc with rfl | rfl
    · exact .inl hd
    · exact .inr rfl
  · obtain rfl := List.mem_singleton.1 hc
    exact .inl hd

/-- A character that is put in is of the text, no higher than a space, or the letter by which a
backslash in code is spelled. -/
theorem mem_of_puts {z : Zipper} {bold italic bold' italic' : Bool}
    (h : z.Puts bold italic pieces bold' italic') {c : Char} (hc : .char c ∈ pieces) :
    c ∈ z.rest ∨ c ≤ ' ' ∨ c = 'e' := by
  cases h with
  | chars h =>
    obtain ⟨d, hd, he⟩ := List.mem_map.1 hc
    obtain rfl := Piece.char.inj he
    exact (h d hd).imp_right .inl
  | code _ h => exact (mem_of_mem_codePieces hc).imp (h c) .inr
  | _ =>
    obtain h := List.mem_singleton.1 hc
    cases h

theorem Reads.mem_put (h : Reads s m) {c : Char} (hc : .char c ∈ m.put s) :
    c ∈ s.input.rest ∨ c ≤ ' ' ∨ c = 'e' := by
  induction h with
  | stop s => simp [Move.put, Move.taken] at hc
  | step hs hm hn ih =>
    rw [put_andThen (reads_of_step hs hm) hn] at hc
    rcases List.mem_append.1 hc with hc | hc
    · exact mem_of_puts (writes_of_step hs hm).puts hc
    · exact (ih hc).imp_left fun h => (reads_of_step hs hm).rest_subset h

theorem quotes_mono {z w : Zipper} {e : Event} (h : w.rest ⊆ z.rest) (he : w.Quotes e) :
    z.Quotes e := fun t ht _ hc => h (he t ht _ hc)

/-- Lines and titles that a reading does not take from running text are in the document. -/
theorem Reads.quotes (h : Reads s m) :
    ∀ r ∈ m.raised, ∀ e, r.item = .event e → s.input.Quotes e := by
  induction h with
  | stop s => exact List.forall_mem_nil _
  | step hs hm hn ih =>
    intro r hr e he
    rcases List.mem_append.1 hr with hr | hr
    · exact (writes_of_step hs hm).quotes r hr e he
    · exact quotes_mono (reads_of_step hs hm).rest_subset (ih r hr e he)

/-! ## What is raised at the end -/

theorem parts_wrapUp (s : State) :
    Raised.parts s.wrapUp.raised = [s.buffer.all].filter fun p => !p.isEmpty := by
  rw [wrapUp, Move.raised_andThen, Raised.parts_append, Raised.parts_release, Move.raised_andThen,
    Raised.parts_append, Raised.parts_eq_nil ((onLists_closeMany _).item_eq _), List.append_nil]
  refine (congrArg _ ?_).trans (List.append_nil _)
  split <;> rfl

theorem quotes_wrapUp (z : Zipper) (s : State) :
    ∀ r ∈ s.wrapUp.raised, ∀ e, r.item = .event e → z.Quotes e := by
  intro r hr e he
  rw [wrapUp, Move.raised_andThen, Move.raised_andThen] at hr
  rcases List.mem_append.1 hr with hr | hr
  · rw [item_of_mem_release hr] at he
    cases he
  rcases List.mem_append.1 hr with hr | hr
  · split at hr
    · obtain rfl := List.mem_singleton.1 hr
      obtain rfl := Signal.event.inj he
      intro t ht
      cases ht
    · cases hr
  · obtain ⟨e', he', hlist⟩ := (onLists_closeMany _).events _ r hr
    obtain rfl := Signal.event.inj (he.symm.trans he')
    exact quotes_of_isOfList hlist

end State

/-- **All that is put into running text is raised**, when reading comes to the end. -/
theorem Zipper.flatten_parts_trace {z : Zipper} {m : Move} (hm : Reads (.initial z) m)
    (hend : m.next.input.rest = []) :
    (Raised.parts z.trace.raised).flatten = m.put (.initial z) := by
  have htaken := hm.taken_eq
  rw [Move.taken] at htaken
  rw [trace_of_reads_to_end hm hend, Raised.parts_append, State.parts_wrapUp, List.flatten_append,
    List.flatten_filter_not_isEmpty, List.flatten_singleton]
  exact htaken

/-- From every place that reading comes to, it goes on to the end of a document. -/
theorem Zipper.exists_reads_to_end {z : Zipper} {m : Move} (h : z.trace.failure? = none)
    (hm : Reads (.initial z) m) : ∃ n, Reads m.next n ∧ n.next.input.rest = [] := by
  rcases State.reads_of_scan m.next with ⟨n, hn, hend, -⟩ | ⟨n, e, hn, hne, he, -⟩
  · exact ⟨n, hn, hend⟩
  · rw [trace_of_reads_to_error (hm.trans hn) hne he] at h
    cases h

/-- Lines and titles that a document does not raise from running text are in its text. -/
theorem Zipper.quotes_of_trace {z : Zipper} (h : z.trace.failure? = none) :
    ∀ r ∈ z.trace.raised, ∀ e, r.item = .event e → z.Quotes e := by
  obtain ⟨m, hm, hend, ht⟩ := exists_reads_of_success h
  rw [ht]
  intro r hr
  rcases List.mem_append.1 hr with hr | hr
  · exact hm.quotes r hr
  · exact State.quotes_wrapUp z m.next r hr

/-! ## Switching emphasis -/

/-- Whether a mark begins bold or italic. -/
def FontMark.opens : FontMark → Bool
  | .boldOn | .italicOn => true
  | _ => false

/-- How often bold or italic begins. -/
def openCount (marks : List FontMark) : Nat := marks.countP FontMark.opens

/-- How often bold or italic ends. -/
def closeCount (marks : List FontMark) : Nat := marks.count .styleOff

theorem concat_eq_append_cons {α : Type} {x y : α} {l a b : List α}
    (h : l ++ [y] = a ++ x :: b) :
    (l = a ∧ y = x) ∨ ∃ c, b = c ++ [y] ∧ l = a ++ x :: c := by
  rcases append_eq_append_cons h with ⟨c, hl, hb⟩ | ⟨c, ha, hy⟩
  · exact .inr ⟨c, hb, hl⟩
  · obtain ⟨rfl, hx⟩ | ⟨-, hx⟩ := List.singleton_eq_append_iff.1 hy
    · exact .inl ⟨by rw [ha, List.append_nil], (List.cons.inj hx).1.symm⟩
    · cases hx

/-- The marks that can be put in one after the other, and bold and italic as they are after them. -/
inductive Toggles : List FontMark → Bool → Bool → Prop
  | nil : Toggles [] false false
  | code {l : List FontMark} {bold italic : Bool} (h : Toggles l bold italic) :
      Toggles (l ++ [.codeOn, .codeOff]) bold italic
  | boldOn {l : List FontMark} {italic : Bool} (h : Toggles l false italic) :
      Toggles (l ++ [.boldOn]) true italic
  | boldOff {l : List FontMark} {italic : Bool} (h : Toggles l true italic) :
      Toggles (l ++ [.styleOff]) false italic
  | italicOn {l : List FontMark} {bold : Bool} (h : Toggles l bold false) :
      Toggles (l ++ [.italicOn]) bold true
  | italicOff {l : List FontMark} {bold : Bool} (h : Toggles l bold true) :
      Toggles (l ++ [.styleOff]) bold false

namespace Toggles

variable {l : List FontMark} {bold italic : Bool}

theorem puts {z : Zipper} {pieces : List Piece} {bold' italic' : Bool} (h : Toggles l bold italic)
    (hp : z.Puts bold italic pieces bold' italic') :
    Toggles (l ++ marksOf pieces) bold' italic' := by
  cases hp with
  | chars => rwa [marksOf_chars, List.append_nil]
  | code => rw [marksOf_codePieces]; exact h.code
  | boldOn _ _ hb => subst hb; exact h.boldOn
  | boldOff hb => subst hb; exact h.boldOff
  | italicOn _ _ hi => subst hi; exact h.italicOn
  | italicOff hi => subst hi; exact h.italicOff

/-- A reading puts in marks that go on from those before. -/
theorem reads {s : State} {m : Move} (h : Toggles l s.bold s.italic) (hm : Reads s m) :
    Toggles (l ++ marksOf (m.put s)) m.next.bold m.next.italic := by
  induction hm generalizing l with
  | stop s => simpa [Move.put, Move.taken] using h
  | step hs hm hn ih =>
    rw [State.put_andThen (State.reads_of_step hs hm) hn, marksOf_append, ← List.append_assoc]
    exact ih (h.puts (State.writes_of_step hs hm).puts)

/-- **Bold and italic are on as often as they were begun and not ended.** -/
theorem openCount_eq (h : Toggles l bold italic) :
    openCount l = closeCount l + bold.toNat + italic.toNat := by
  induction h <;> simp_all [openCount, closeCount, FontMark.opens] <;> omega

end Toggles

/-! ## Collapsed blanks -/

/-- A spelling whose marks are neither empty nor have blanks. -/
def Markup.Solid (k : Markup) : Prop := ∀ x, k x ≠ [] ∧ ∀ c ∈ k x, isBlank c = false

theorem Markup.solid_of_all {k : Markup} (h : ∀ x, k x ≠ [] ∧ (k x).all fun c => !isBlank c) :
    k.Solid :=
  fun x => ⟨(h x).1, by simpa using (h x).2⟩

/-- What has no blanks is kept as it is. -/
theorem exists_collapseAfter_solid {t : Text} (ht : ∀ c ∈ t, isBlank c = false) (c : Char) :
    ∃ d, ∀ u, collapseAfter c false (t ++ u) = t ++ collapseAfter d false u := by
  induction t generalizing c with
  | nil => exact ⟨c, fun u => rfl⟩
  | cons x t ih =>
    obtain ⟨hx, ht⟩ := List.forall_mem_cons.1 ht
    obtain ⟨d, hd⟩ := ih ht x
    exact ⟨d, fun u => by simp [collapseAfter, hx, hd u]⟩

theorem filter_gap_pieces (c d : Char) (blank : Bool) :
    ((if blank then gap c d else []).map Piece.char).filter Piece.isShown = [] := by
  unfold gap
  split
  · split <;> rfl
  · rfl

section

variable {k : Markup} (hk : k.Solid)

include hk

theorem exists_collapseAfter_expand (pieces : List Piece) (c : Char) (blank : Bool) :
    ∃ left, collapseAfter c blank (expand k pieces) = expand k left ∧
      left.filter Piece.isShown = pieces.filter Piece.isShown := by
  induction pieces generalizing c blank with
  | nil => exact ⟨[], rfl, rfl⟩
  | cons p pieces ih =>
    cases p with
    | char d =>
      have hexpand : expand k (.char d :: pieces) = d :: expand k pieces := rfl
      by_cases hd : isBlank d
      · obtain ⟨left, hleft, hshown⟩ := ih c true
        refine ⟨left, ?_, ?_⟩
        · rw [hexpand, collapseAfter, if_pos hd, hleft]
        · rw [hshown, List.filter_cons_of_neg (by simp [Piece.isShown, hd])]
      · obtain ⟨left, hleft, hshown⟩ := ih d false
        refine ⟨(if blank then gap c d else []).map .char ++ .char d :: left, ?_, ?_⟩
        · rw [hexpand, collapseAfter, if_neg hd, hleft, expand_append, expand_chars]
          rfl
        · have hd' : Piece.isShown (.char d) := by simp [Piece.isShown, hd]
          rw [List.filter_append, filter_gap_pieces, List.filter_cons_of_pos hd',
            List.filter_cons_of_pos hd', hshown, List.nil_append]
    | mark x =>
      obtain ⟨hne, hsolid⟩ := hk x
      obtain ⟨d, t, hx⟩ := List.exists_cons_of_ne_nil hne
      rw [hx] at hsolid
      obtain ⟨hd, ht⟩ := List.forall_mem_cons.1 hsolid
      obtain ⟨e, he⟩ := exists_collapseAfter_solid ht d
      obtain ⟨left, hleft, hshown⟩ := ih e false
      have hexpand (q : List Piece) : expand k (.mark x :: q) = d :: (t ++ expand k q) := by
        show k x ++ expand k q = _
        rw [hx]
        rfl
      refine ⟨(if blank then gap c d else []).map .char ++ .mark x :: left, ?_, ?_⟩
      · rw [hexpand, collapseAfter, if_neg (by rw [hd]; exact Bool.false_ne_true), he, hleft,
          expand_append, expand_chars, hexpand]
      · rw [List.filter_append, filter_gap_pieces, List.filter_cons_of_pos rfl,
          List.filter_cons_of_pos rfl, hshown, List.nil_append]

/-- **Collapsing drops and puts in blanks alone**, so the marks are kept with the characters between
them. -/
theorem exists_collapse_expand (pieces : List Piece) :
    ∃ left, collapse (expand k pieces) = expand k left ∧
      left.filter Piece.isShown = pieces.filter Piece.isShown := by
  induction pieces with
  | nil => exact ⟨[], rfl, rfl⟩
  | cons p pieces ih =>
    by_cases hp : p.isShown
    · -- Nothing is dropped before a piece that is shown, whatever character stands there.
      obtain ⟨d, t, hd, hexpand⟩ : ∃ d t, isBlank d = false ∧ expand k (p :: pieces) = d :: t := by
        cases p with
        | char d => exact ⟨d, expand k pieces, by simpa [Piece.isShown] using hp, rfl⟩
        | mark x =>
          obtain ⟨hne, hsolid⟩ := hk x
          obtain ⟨d, t, hx⟩ := List.exists_cons_of_ne_nil hne
          refine ⟨d, t ++ expand k pieces, hsolid d (by rw [hx]; exact List.mem_cons_self), ?_⟩
          show k x ++ expand k pieces = _
          rw [hx]
          rfl
      have hafter : collapse (expand k (p :: pieces)) =
          collapseAfter 'a' false (expand k (p :: pieces)) := by
        rw [hexpand]
        simp [collapse, collapseAfter, hd]
      rw [hafter]
      exact exists_collapseAfter_expand hk _ _ _
    · obtain ⟨left, hleft, hshown⟩ := ih
      refine ⟨left, ?_, by rw [hshown, List.filter_cons_of_neg hp]⟩
      cases p with
      | char d =>
        rw [← hleft]
        exact collapse_cons_of_blank (by simpa [Piece.isShown] using hp) _
      | mark x => exact absurd rfl hp

end

end Roffdown
