import Roffdown.Proofs.Reading
import Roffdown.Conversion
import Mathlib.Data.List.Forall2

/-!
# Spelling of font marks

Reading keeps the font marks apart and spells them when an event is formed.  One can as well spell
them as soon as they are met, so that only characters wait to be released: then a spelling could
decide what is raised.  It never does, and every backend raises the same events up to the spelling.

* `State.pastedScan`, `Zipper.transduce`: reading that spells the marks as it meets them.
* `State.twinSteps_step`: no step looks at what waits, so both kinds of reading take the same steps.
* `Zipper.transduce_eq`: both raise the same events, for every spelling.
* `Backend.event?_eq`: for the backends there are, what decides whether running text is raised is
  whether anything but blanks is in it.
* `Document.trace_start`: a title line that is read as a header changes nothing below it.
* `exists_common_run`: all backends share one run, and all conversions of a document do.
-/

namespace Roffdown

open Markdown Text
open State (Reads)

/-! ## Marks spelled as they are met -/

/-- A spelling that drops the marks, for running text that has none. -/
def bareMarkup : Markup := fun _ => []

/-- Running text with its marks replaced by the characters that spell them. -/
def pasted (k : Markup) (pieces : List Piece) : List Piece := (expand k pieces).map .char

@[simp] theorem expand_pasted (k m : Markup) (pieces : List Piece) :
    expand k (pasted m pieces) = expand m pieces := expand_chars k _

@[simp] theorem pasted_append (k : Markup) (p q : List Piece) :
    pasted k (p ++ q) = pasted k p ++ pasted k q := by simp [pasted]

@[simp] theorem pasted_pasted (k m : Markup) (pieces : List Piece) :
    pasted k (pasted m pieces) = pasted m pieces := by simp [pasted]

namespace Buffer

/-- The buffer with its marks spelled. -/
def pasted (k : Markup) (b : Buffer) : Buffer :=
  (empty.push (Roffdown.pasted k b.held)).markLine.push (Roffdown.pasted k b.line)

@[simp] theorem held_pasted (k : Markup) (b : Buffer) :
    (b.pasted k).held = Roffdown.pasted k b.held := by simp [pasted]

@[simp] theorem line_pasted (k : Markup) (b : Buffer) :
    (b.pasted k).line = Roffdown.pasted k b.line := by simp [pasted]

@[simp] theorem all_pasted (k : Markup) (b : Buffer) :
    (b.pasted k).all = Roffdown.pasted k b.all := by simp [all_eq]

@[simp] theorem pasted_empty (k : Markup) : empty.pasted k = empty := rfl

@[simp] theorem pasted_pasted (k : Markup) (b : Buffer) : (b.pasted k).pasted k = b.pasted k :=
  ext_held_line (by simp) (by simp)

@[simp] theorem pasted_push_pasted (k : Markup) (pieces : List Piece) (b : Buffer) :
    ((b.pasted k).push pieces).pasted k = (b.push pieces).pasted k :=
  ext_held_line (by simp) (by simp)

@[simp] theorem pasted_dropLine (k : Markup) (b : Buffer) :
    (b.pasted k).dropLine = b.dropLine.pasted k :=
  ext_held_line (by simp) (by simp [Roffdown.pasted])

end Buffer

namespace State

/-- The state with the marks that wait spelled. -/
def pasted (k : Markup) (s : State) : State := { s with buffer := s.buffer.pasted k }

/-- Takes all steps and spells the marks after each, so that no step finds marks in what waits. -/
def pastedScan (k : Markup) (s : State) : List (Raised Event) × Except UnclosedCode State :=
  if _ : s.input.rest = [] then ([], .ok s)
  else
    match _ : s.step with
    | .error e => ([], .error e)
    | .ok n =>
      let later := (n.next.pasted k).pastedScan k
      (Raised.events bareMarkup n.raised ++ later.1, later.2)
termination_by s.input.rest.length
decreasing_by exact length_rest_step ‹_› ‹_›

end State

/-- What comes of a reading that spells the marks as it meets them. -/
structure Transduction where
  events : List (Raised Event)
  failure? : Option UnclosedCode
deriving DecidableEq, Repr

/-- Reads what is after a place and spells the marks as it meets them. -/
def Zipper.transduce (k : Markup) (z : Zipper) : Transduction :=
  let scan := (State.initial z).pastedScan k
  match scan.2 with
  | .error e => ⟨scan.1, some e⟩
  | .ok s => ⟨scan.1 ++ Raised.events bareMarkup s.wrapUp.raised, none⟩

/-! ## No rule looks at what waits -/

theorem Raised.events_eq_of_event {rs : List (Raised Signal)}
    (h : ∀ r ∈ rs, ∃ e, r.item = .event e) (k m : Markup) :
    Raised.events k rs = Raised.events m rs := by
  induction rs with
  | nil => rfl
  | cons r rs ih =>
    obtain ⟨e, he⟩ := h r List.mem_cons_self
    have hrs := ih fun t ht => h t (List.mem_cons_of_mem r ht)
    simp only [Raised.events, List.filterMap_cons, he, Signal.event?, Option.map_some] at hrs ⊢
    rw [hrs]

namespace State

/-- A move and its twin where the marks that wait are spelled: they raise the same events, and lead
to states that differ in nothing but that spelling. -/
structure Twins (k : Markup) (n' n : Move) : Prop where
  events : Raised.events bareMarkup n'.raised = Raised.events k n.raised
  next : n'.next.pasted k = n.next.pasted k

variable {k : Markup} {s : State} {n : Move}

theorem twins_silent {s' : State} (h : s'.pasted k = s.pasted k) :
    Twins k (.silent s') (.silent s) := ⟨rfl, h⟩

/-- The same pieces are added, and the rest is the same. -/
theorem twins_push {t' t : State} {b : Buffer} {pieces : List Piece}
    (h : { t' with buffer := .empty } = { t with buffer := .empty })
    (hb' : t'.buffer = (b.pasted k).push pieces) (hb : t.buffer = b.push pieces) :
    Twins k (.silent t') (.silent t) := by
  refine twins_silent ?_
  have hp : t'.buffer.pasted k = t.buffer.pasted k := by rw [hb', hb, Buffer.pasted_push_pasted]
  cases t'
  cases t
  simp_all [State.pasted]

theorem twins_announce {t' t : State} (events : List Event) (hl : t'.lists = t.lists)
    (h : t'.pasted k = t.pasted k) : Twins k (t'.announce events) (t.announce events) := by
  constructor
  · rw [Raised.events_announce, Raised.events_announce, hl]
  · exact h

/-- What is spelled once stays as it is. -/
@[simp] theorem pasted_pasted : (s.pasted k).pasted k = s.pasted k := by simp [pasted]

theorem events_release_pasted :
    Raised.events bareMarkup (s.pasted k).release.raised = Raised.events k s.release.raised := by
  rw [Raised.events_release, Raised.events_release, Raised.events_singleton,
    Raised.events_singleton, Signal.event?_text, Signal.event?_text]
  simp [State.pasted]

/-- After a release nothing waits, so the twins do the same from there on. -/
theorem twins_release {f : State → Move} (h : ∀ t, ∀ r ∈ (f t).raised, ∃ e, r.item = .event e) :
    Twins k ((s.pasted k).release.andThen f) (s.release.andThen f) := by
  have hn : (s.pasted k).release.next = s.release.next := by
    rw [next_release, next_release]
    rfl
  constructor
  · rw [Move.raised_andThen, Move.raised_andThen, Raised.events_append, Raised.events_append,
      events_release_pasted, hn, Raised.events_eq_of_event (h _)]
  · rw [Move.next_andThen, Move.next_andThen, hn]

theorem twins_underlined : Twins k (s.pasted k).underlined s.underlined := by
  have hd : { s.pasted k with buffer := (s.pasted k).buffer.dropLine } =
      ({ s with buffer := s.buffer.dropLine } : State).pasted k := by
    simp [State.pasted]
  constructor
  · unfold underlined
    rw [hd, Move.raised_andThen, Move.raised_andThen, Raised.events_append, Raised.events_append,
      events_release_pasted]
    simp only [raise, List.map_cons, List.map_nil, Raised.events_singleton, Signal.event?_title]
    simp [State.pasted, next_release]
  · simp [underlined, next_release, State.pasted]

theorem twins_lineEnd : Twins k (s.pasted k).lineEnd s.lineEnd := by
  refine rel_ite Iff.rfl (fun _ => ?_) fun _ => twins_silent ?_
  · exact twins_underlined (s := { s with input := _, freshLine := true })
  have hb : ((s.buffer.pasted k).push [.char ' ']).markLine.pasted k =
      (s.buffer.push [.char ' ']).markLine.pasted k :=
    Buffer.ext_held_line (by simp) (by simp)
  simp only [State.pasted, hb]

theorem twins_boldMark : Twins k (s.pasted k).boldMark s.boldMark := by
  refine rel_ite Iff.rfl (fun _ => ?_) fun _ => rel_ite Iff.rfl (fun _ => ?_) fun _ => ?_
  · exact twins_push rfl rfl rfl
  · exact twins_push rfl rfl rfl
  · exact twins_push rfl rfl rfl

theorem twins_italicMark : Twins k (s.pasted k).italicMark s.italicMark := by
  refine rel_ite Iff.rfl (fun _ => ?_) fun _ => rel_ite Iff.rfl (fun _ => ?_) fun _ => ?_
  · exact twins_push rfl rfl rfl
  · exact twins_push rfl rfl rfl
  · exact twins_push rfl rfl rfl

theorem twins_bracket {lead : Nat} : Twins k ((s.pasted k).bracket lead) (s.bracket lead) := by
  unfold bracket
  rw [show (s.pasted k).input = s.input from rfl]
  cases linkBody? (s.input.rest.drop (lead + 1)) with
  | none => exact twins_push rfl rfl rfl
  | some body =>
    exact twins_release (s := { s with input := _ }) (onLists_announce (fun _ _ => trivial)).item_eq

/-- Two steps that both fail with the same error, or both make their move. -/
inductive TwinSteps (k : Markup) : Except UnclosedCode Move → Except UnclosedCode Move → Prop
  | error (e : UnclosedCode) : TwinSteps k (.error e) (.error e)
  | ok {n' n : Move} (h : Twins k n' n) : TwinSteps k (.ok n') (.ok n)

theorem twinSteps_inlineCode : TwinSteps k (s.pasted k).inlineCode s.inlineCode := by
  unfold inlineCode
  rw [show (s.pasted k).input = s.input from rfl]
  cases splitAtFirst codeMark (s.input.rest.drop 1) with
  | none => exact .error _
  | some p => exact .ok (twins_push rfl rfl rfl)

theorem twinSteps_textRule : TwinSteps k (s.pasted k).textRule s.textRule := by
  unfold textRule
  rw [show (s.pasted k).input = s.input from rfl]
  cases s.input.rest with
  | nil => exact .ok (twins_silent pasted_pasted)
  | cons c t =>
    refine rel_ite Iff.rfl (fun _ => .ok twins_lineEnd) fun _ => ?_
    refine rel_ite Iff.rfl (fun _ => .ok ?_) fun _ => ?_
    · exact rel_ite Iff.rfl (fun _ => twins_boldMark) fun _ => twins_italicMark
    refine rel_ite Iff.rfl (fun _ => twinSteps_inlineCode) fun _ => ?_
    refine rel_ite Iff.rfl (fun _ => .ok twins_bracket) fun _ => ?_
    refine rel_ite Iff.rfl (fun _ => .ok twins_bracket) fun _ => ?_
    exact .ok (twins_push rfl rfl rfl)

theorem twins_paragraphBreak : Twins k (s.pasted k).paragraphBreak s.paragraphBreak :=
  twins_release (s := { s with input := _, freshLine := true }) onLists_breakList.item_eq

theorem twins_blockRule? : Option.Rel (Twins k) (s.pasted k).blockRule? s.blockRule? := by
  have hitem : Option.Rel (Twins k) (s.pasted k).item? s.item? := by
    unfold item?
    rw [show (s.pasted k).input = s.input from rfl, show (s.pasted k).lists = s.lists from rfl]
    simp only
    cases marker? (s.input.rest.drop
      (if s.lists.isEmpty then [] else s.input.rest.takeWhile isIndent).length) with
    | none => exact .none
    | some marker =>
      exact .some (twins_release (s := { s with input := _ }) (onLists_placeItem marker _).item_eq)
  unfold blockRule?
  rw [show (s.pasted k).input = s.input from rfl]
  split
  · exact .some twins_paragraphBreak
  · exact .some (twins_release (s := { s with input := _, freshLine := true })
      (onLists_announce (fun _ _ => trivial)).item_eq)
  · split
    · exact .some (twins_release (s := { s with input := _, inFence := true })
        (onLists_announce (fun _ _ => trivial)).item_eq)
    · exact hitem

/-- **No step looks at what waits.** -/
theorem twinSteps_step : TwinSteps k (s.pasted k).step s.step := by
  rw [step_eq, step_eq]
  refine rel_ite Iff.rfl (fun _ => .ok ?_) fun _ => ?_
  · refine rel_ite Iff.rfl (fun _ => ?_) fun _ => ?_
    · exact twins_announce _ rfl
        (pasted_pasted (s := { s with input := _, inFence := false, freshLine := true }))
    · exact twins_announce _ rfl (pasted_pasted (s := { s with input := _ }))
  refine rel_ite Iff.rfl (fun _ => .ok (twins_push rfl rfl rfl)) fun _ => ?_
  refine rel_ite Iff.rfl (fun _ => ?_) fun _ => twinSteps_textRule
  have hb : Option.Rel (Twins k) (s.midLine.pasted k).blockRule? s.midLine.blockRule? :=
    twins_blockRule?
  have ht : TwinSteps k (s.midLine.pasted k).textRule s.midLine.textRule := twinSteps_textRule
  change TwinSteps k ((s.midLine.pasted k).blockRule?.elim (s.midLine.pasted k).textRule .ok)
    (s.midLine.blockRule?.elim s.midLine.textRule .ok)
  revert hb
  generalize (s.midLine.pasted k).blockRule? = b', s.midLine.blockRule? = b
  intro hb
  cases hb with
  | none => exact ht
  | some h => exact .ok h

theorem twins_wrapUp : Twins k (s.pasted k).wrapUp s.wrapUp := by
  refine twins_release fun t r hr => ?_
  rcases List.mem_append.1 hr with hr | hr
  · split at hr
    · obtain ⟨e, -, rfl⟩ : ∃ e : Event, e ∈ [Event.fenceClose] ∧ r = ⟨.event e, t.lists⟩ := by
        simpa [announce, raise, warn] using hr
      exact ⟨e, rfl⟩
    · simp at hr
  · exact (onLists_closeMany _).item_eq _ r hr

/-! ## Both kinds of reading -/

theorem pastedScan_of_end (h : s.input.rest = []) : s.pastedScan k = ([], .ok s) := by
  rw [pastedScan, dif_pos h]

theorem pastedScan_of_error {e : UnclosedCode} (hs : s.input.rest ≠ []) (h : s.step = .error e) :
    s.pastedScan k = ([], .error e) := by
  rw [pastedScan, dif_neg hs]
  split
  · simp_all
  · simp_all

theorem pastedScan_of_step (hs : s.input.rest ≠ []) (h : s.step = .ok n) :
    s.pastedScan k = (Raised.events bareMarkup n.raised ++ ((n.next.pasted k).pastedScan k).1,
      ((n.next.pasted k).pastedScan k).2) := by
  rw [pastedScan, dif_neg hs]
  split
  · simp_all
  · rename_i n' hn
    obtain rfl : n = n' := by simpa [h] using hn
    rfl

/-- Spelling the marks as they are met leads to the same events and the same end. -/
theorem pastedScan_pasted (k : Markup) (s : State) : (s.pasted k).pastedScan k =
    (Raised.events k s.scan.raised, s.scan.stop.map (State.pasted k)) := by
  induction hn : s.input.rest.length using Nat.strongRecOn generalizing s with
  | ind l ih =>
    subst hn
    by_cases hs : s.input.rest = []
    · have hs' : (s.pasted k).input.rest = [] := hs
      rw [pastedScan_of_end hs', scan_of_end hs]
      rfl
    have hs' : (s.pasted k).input.rest ≠ [] := hs
    -- Twin steps leave states that differ in the spelling alone, so the induction goes on.
    have ht : TwinSteps k (s.pasted k).step s.step := twinSteps_step
    generalize hm' : (s.pasted k).step = r', hm : s.step = r at ht
    cases ht with
    | error e =>
      rw [pastedScan_of_error hs' hm', scan_of_error hs hm]
      rfl
    | ok h =>
      rw [pastedScan_of_step hs' hm', scan_of_step hs hm, h.next, h.events,
        ih _ (length_rest_step hm hs) _ rfl]
      simp only [Scan.after, Raised.events_append]

end State

/-- **Spelling the marks as they are met changes nothing.** -/
theorem Zipper.transduce_eq (k : Markup) (z : Zipper) :
    z.transduce k = ⟨z.trace.events k, z.trace.failure?⟩ := by
  have h : (State.initial z).pastedScan k =
      (Raised.events k (State.initial z).scan.raised,
        (State.initial z).scan.stop.map (State.pasted k)) := State.pastedScan_pasted k (.initial z)
  unfold transduce trace Trace.events
  rw [h]
  generalize (State.initial z).scan = r
  obtain ⟨raised, warnings, e | s⟩ := r
  · rfl
  · simp only [Except.map, State.twins_wrapUp.events, Raised.events_append]

/-! ## The backends -/

/-- Who receives the events of a document. -/
inductive Backend
  | dialect (d : Dialect)
  /-- A record of the events, in which the marks are tags. -/
  | recorder
deriving DecidableEq, Repr

/-- The spelling of the marks for a backend. -/
def Backend.markup : Backend → Markup
  | dialect d => d.package.markup
  | recorder => tagMarkup

/-- Whether a piece is left when blanks are collapsed, for spellings that are not blank. -/
def Piece.isShown : Piece → Bool
  | .char c => !isBlank c
  | .mark _ => true

/-- Whether a signal becomes an event, for spellings that are not blank. -/
def Signal.isShown : Signal → Bool
  | .text pieces => pieces.any Piece.isShown
  | .title pieces => pieces.any Piece.isShown
  | .event _ => true

/-- The event of a signal that becomes one. -/
def Signal.spelled (k : Markup) : Signal → Event
  | .text pieces => .text (collapse (expand k pieces))
  | .title pieces => .heading .major (collapse (expand k pieces))
  | .event e => e

/-- The same with the lists that are open. -/
def Raised.spelled (k : Markup) (r : Raised Signal) : Raised Event := ⟨r.item.spelled k, r.lists⟩

/-- No backend spells a mark with blanks alone. -/
theorem Backend.any_markup (b : Backend) (x : FontMark) :
    (b.markup x).any fun c => !isBlank c := by
  cases b with
  | recorder => cases x <;> decide
  | dialect d => cases d <;> cases x <;> decide

theorem Backend.any_expand (b : Backend) (pieces : List Piece) :
    (expand b.markup pieces).any (fun c => !isBlank c) = pieces.any Piece.isShown := by
  induction pieces with
  | nil => rfl
  | cons p pieces ih =>
    have hp : (p.expand b.markup).any (fun c => !isBlank c) = p.isShown := by
      cases p with
      | char c => simp [Piece.expand, Piece.isShown]
      | mark x => exact b.any_markup x
    rw [List.any_cons, ← hp, ← ih]
    exact List.any_append

theorem Backend.collapse_expand_eq_nil_iff (b : Backend) (pieces : List Piece) :
    collapse (expand b.markup pieces) = [] ↔ pieces.any Piece.isShown = false := by
  rw [collapse_eq_nil_iff, ← b.any_expand, List.any_eq_false]
  simp

/-- **Whether running text is raised does not depend on the backend.** -/
theorem Backend.event?_eq (b : Backend) (signal : Signal) : signal.event? b.markup =
    if signal.isShown then some (signal.spelled b.markup) else none := by
  have hc := b.collapse_expand_eq_nil_iff
  cases signal with
  | text pieces =>
    rw [Signal.event?_text]
    by_cases h : pieces.any Piece.isShown <;> simp_all [Signal.isShown, Signal.spelled]
  | title pieces =>
    rw [Signal.event?_title]
    by_cases h : pieces.any Piece.isShown <;> simp_all [Signal.isShown, Signal.spelled]
  | event e => rfl

theorem Backend.events_eq (b : Backend) (rs : List (Raised Signal)) :
    Raised.events b.markup rs = (rs.filter (·.item.isShown)).map (Raised.spelled b.markup) := by
  induction rs with
  | nil => rfl
  | cons r rs ih =>
    have hr : Raised.events b.markup (r :: rs) =
        Raised.events b.markup [r] ++ Raised.events b.markup rs := Raised.events_append _ [r] rs
    rw [hr, ih, Raised.events_singleton, b.event?_eq]
    by_cases h : r.item.isShown
    · rw [if_pos h, List.filter_cons, if_pos h]
      rfl
    · rw [if_neg h, List.filter_cons, if_neg h]
      rfl

/-! ## The title line -/

/-- What a title line raises when it is read as a header. -/
def Document.titleRun (d : Document) : List (Raised Signal) :=
  if d.takeTitle.1 = none then []
  else (hashLine (firstLine d.source)).map fun e => ⟨.event e, .empty⟩

theorem Document.takeTitle_cases (d : Document) : d.takeTitle = (none, .start d.source) ∨
    ∃ c t, isIndent c ∧ d.source = '#' :: c :: t ∧
      d.takeTitle = (some (firstLine t), (Zipper.start d.source).splitLine.2) := by
  unfold takeTitle
  split
  · rename_i c t hd
    split
    · rename_i hc
      refine .inr ⟨c, t, hc, hd, ?_⟩
      have hn : c ≠ '\n' := by
        rintro rfl
        contradiction
      have hl : firstLine ('#' :: c :: t) = '#' :: c :: firstLine t := by
        simp [firstLine, hn]
      simp only [Zipper.splitLine, Zipper.restOfLine, Zipper.advance_advance, Zipper.rest_advance,
        Zipper.start, hd, hl, List.length_cons, List.drop_succ_cons, List.drop_zero]
      rw [Nat.add_comm 2]
    · exact .inl rfl
  · exact .inl rfl

/-- **A title line that is read as a header changes nothing below it.** -/
theorem Document.trace_start (d : Document) : (Zipper.start d.source).trace =
    ⟨d.titleRun ++ d.takeTitle.2.trace.raised, d.takeTitle.2.trace.warnings,
      d.takeTitle.2.trace.failure?⟩ := by
  rcases d.takeTitle_cases with ht | ⟨c, t, -, hd, ht⟩
  · rw [titleRun, ht]
    rfl
  have hs : (Zipper.start d.source).rest ≠ [] := by simp [Zipper.start, hd]
  have hm : (State.initial (.start d.source)).step =
      .ok (State.announce (hashLine (firstLine d.source))
        (.initial (Zipper.start d.source).splitLine.2)) := by
    rw [hd]
    rfl
  have hr := Reads.step (s := State.initial (.start d.source)) hs hm (.stop _)
  rw [Zipper.trace_of_reads hr rfl, titleRun, ht]
  simp [State.announce, State.raise, State.initial, Function.comp_def]

/-! ## One run for all -/

/-- The lines of a package for what was raised, all of which becomes events. -/
def MacroPackage.write (p : MacroPackage) (run : List (Raised Signal)) : List Text :=
  run.flatMap fun r => p.lines (r.item.spelled p.markup) r.lists

/-- Two events that differ in nothing but how the marks in running text are spelled. -/
inductive Event.Alike (k m : Markup) : Event → Event → Prop
  | same (e : Event) : Alike k m e e
  | text (pieces : List Piece) :
      Alike k m (.text (collapse (expand k pieces))) (.text (collapse (expand m pieces)))
  | title (pieces : List Piece) : Alike k m (.heading .major (collapse (expand k pieces)))
      (.heading .major (collapse (expand m pieces)))

/-- The same with the same lists open. -/
def Raised.Alike (k m : Markup) (r t : Raised Event) : Prop :=
  r.item.Alike k m t.item ∧ r.lists = t.lists

theorem Raised.alike_spelled (k m : Markup) (r : Raised Signal) :
    Raised.Alike k m (r.spelled k) (r.spelled m) := by
  refine ⟨?_, rfl⟩
  obtain ⟨signal, lists⟩ := r
  cases signal with
  | text pieces => exact .text pieces
  | title pieces => exact .title pieces
  | event e => exact .same e

/-- What a reading raises for every backend. -/
def Trace.run (t : Trace) : List (Raised Signal) := t.raised.filter (·.item.isShown)

theorem Trace.events_markup (t : Trace) (b : Backend) :
    t.events b.markup = t.run.map (Raised.spelled b.markup) := b.events_eq t.raised

theorem Trace.lines_package (t : Trace) (dialect : Dialect) :
    t.lines dialect.package = dialect.package.write t.run := by
  unfold lines MacroPackage.write
  rw [show dialect.package.markup = (Backend.dialect dialect).markup from rfl, t.events_markup,
    List.flatMap_map]
  rfl

theorem Zipper.transduce_markup (z : Zipper) (b : Backend) :
    z.transduce b.markup = ⟨z.trace.run.map (Raised.spelled b.markup), z.trace.failure?⟩ := by
  rw [z.transduce_eq, Trace.events_markup]

theorem Document.run_trace_start (d : Document) :
    (Zipper.start d.source).trace.run = d.titleRun ++ d.takeTitle.2.trace.run := by
  have hr : d.titleRun.filter (·.item.isShown) = d.titleRun := by
    rw [List.filter_eq_self]
    intro r hr
    unfold titleRun at hr
    split at hr
    · contradiction
    · obtain ⟨e, -, rfl⟩ := List.mem_map.1 hr
      rfl
  rw [d.trace_start, Trace.run, List.filter_append, hr]
  rfl

/-- What a conversion gives, by what all conversions of the document share. -/
theorem Document.result_toRoff (d : Document) (dialect : Dialect) (fields : HeaderFields)
    (date : Date) : (d.toRoff dialect fields date).result =
      match d.takeTitle.2.trace.failure? with
      | some e => .error e
      | none => .ok (dialect.package.openingLines ++
          dialect.package.header ⟨d.name,
            if dialect.package.usesTitleLine then d.takeTitle.1 else none, date, fields⟩ ++
          dialect.package.write
            ((if dialect.package.usesTitleLine then [] else d.titleRun) ++
              d.takeTitle.2.trace.run)) := by
  have hf : (Zipper.start d.source).trace.failure? = d.takeTitle.2.trace.failure? := by
    rw [d.trace_start]
  unfold toRoff
  by_cases h : dialect.package.usesTitleLine
  · cases he : d.takeTitle.2.trace.failure? with
    | some e => simp only [if_pos h, he]
    | none => simp only [if_pos h, he, Trace.lines_package, List.nil_append]
  · cases he : d.takeTitle.2.trace.failure? with
    | some e => simp only [if_neg h, hf, he]
    | none => simp only [if_neg h, hf, he, Trace.lines_package, d.run_trace_start]

/-- **All backends share one run.**  There is a run, and how it ends, that every backend takes from
a place, with its own spelling of the marks; so what two of them see is alike.  The conversions of a
document share one as well, but for the title line, which some packages take as the header. -/
theorem exists_common_run :
    (∀ z : Zipper, ∃ (run : List (Raised Signal)) (failure? : Option UnclosedCode),
      (∀ b : Backend, z.transduce b.markup = ⟨run.map (Raised.spelled b.markup), failure?⟩) ∧
      ∀ dialect : Dialect, z.trace.lines dialect.package = dialect.package.write run) ∧
    (∀ (z : Zipper) (b c : Backend),
      List.Forall₂ (Raised.Alike b.markup c.markup) (z.transduce b.markup).events
        (z.transduce c.markup).events ∧
      (z.transduce b.markup).failure? = (z.transduce c.markup).failure?) ∧
    ∀ d : Document, ∃ (run : List (Raised Signal)) (failure? : Option UnclosedCode),
      ∀ (dialect : Dialect) (fields : HeaderFields) (date : Date),
        (d.toRoff dialect fields date).result =
          match failure? with
          | some e => .error e
          | none => .ok (dialect.package.openingLines ++
              dialect.package.header ⟨d.name,
                if dialect.package.usesTitleLine then d.takeTitle.1 else none, date, fields⟩ ++
              dialect.package.write
                ((if dialect.package.usesTitleLine then [] else d.titleRun) ++ run)) := by
  refine ⟨?_, ?_, ?_⟩
  · intro z
    exact ⟨z.trace.run, z.trace.failure?, z.transduce_markup, z.trace.lines_package⟩
  · intro z b c
    rw [z.transduce_markup b, z.transduce_markup c]
    refine ⟨?_, rfl⟩
    rw [List.forall₂_map_left_iff, List.forall₂_map_right_iff, List.forall₂_same]
    intro r _
    exact r.alike_spelled b.markup c.markup
  · intro d
    exact ⟨d.takeTitle.2.trace.run, d.takeTitle.2.trace.failure?, d.result_toRoff⟩

end Roffdown
