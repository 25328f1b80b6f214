import Mathlib.Data.List.Chain
import Roffdown.Conversion
import Roffdown.Proofs.Collapsing
import Roffdown.Proofs.FlatBlocks
import Roffdown.Proofs.Raising

/-!
# How lines begin

roff breaks a paragraph at an empty line and at a line that begins with a blank; with any other line
of text it fills the paragraph.  Running text and the titles of boxes are trimmed, and what is
written around them begins with a point or a backslash.  The label of a link is written as it stands
between its brackets, so a line that begins with a label fills only when the label does.

* `Roff.fills`: a line that does not break a paragraph.
* `State.Raises.fills_text`: running text and the titles of boxes.
* `Dialect.bareLabel?`: the label with which a dialect begins a line; `FillWith`.
* `Dialect.fillWith_lines`: it decides whether the lines for an event fill.
* `lines_fill_iff_labels_fill`: the lines of a document.
-/

namespace Roffdown

open Markdown Roff Text

namespace Roff

/-- Whether a line has a first character that is no blank. -/
def fills (line : Text) : Bool := line.head?.any fun c => !isBlank c

theorem fills_iff {line : Text} :
    fills line ↔ ∃ c t, line = c :: t ∧ isBlank c = false := by
  cases line with
  | nil => simp [fills]
  | cons c t => simp [fills]

theorem fills_append {a : Text} (h : fills a) (t : Text) : fills (a ++ t) := by
  cases a with
  | nil => cases h
  | cons c a => exact h

theorem fills_append_blank (a t : Text) : fills (a ++ ' ' :: t) = fills a := by
  cases a <;> rfl

/-- What keeps a line from being a request does not come after a blank. -/
@[simp] theorem fills_textLine (t : Text) : fills (textLine t) = fills t := by
  cases t with
  | nil => rfl
  | cons c t =>
    rw [textLine]
    split
    · rename_i hc
      simp only [isControl, Bool.or_eq_true, beq_iff_eq] at hc
      rcases hc with rfl | rfl <;> rfl
    · rfl

theorem fills_requestLine {name : Text} (h : fills name) (arguments : Text) :
    fills (requestLine name arguments) := by
  unfold requestLine
  split
  · exact h
  · exact fills_append h _

/-- A text that is trimmed of blanks at least fills, unless nothing is left of it. -/
theorem fills_trim {p : Char → Bool} (hp : ∀ c, isBlank c → p c) {t : Text} (h : trim p t ≠ []) :
    fills (trim p t) := by
  obtain ⟨c, u, hc⟩ := List.exists_cons_of_ne_nil h
  obtain ⟨b, hb, -⟩ := exists_eq_trimEnd_append p (trimStart p t)
  have hstart : t.dropWhile p = c :: (u ++ b) := hb.trans (congrArg (· ++ b) hc)
  have hnot := List.head?_dropWhile_not p t
  simp only [hstart, List.head?_cons] at hnot
  refine fills_iff.2 ⟨c, u, hc, Bool.eq_false_iff.2 fun hblank => ?_⟩
  rw [hp c hblank] at hnot
  cases hnot

theorem fills_collapse {t : Text} (h : collapse t ≠ []) : fills (collapse t) := by
  obtain ⟨c, u, hc⟩ := List.exists_cons_of_ne_nil h
  refine fills_iff.2 ⟨c, u, hc, (trimmed_collapse t).head c ?_⟩
  rw [hc]
  rfl

end Roff

/-! ## What is raised -/

theorem fills_text_of_mem_hashLine {line t : Text} (h : .text t ∈ hashLine line) : fills t := by
  cases hashEvent_of_mem _ h with
  | title hne => exact fills_trim (fun c hc => by rw [hc, Bool.or_true]) hne

/-- **Running text and the titles of boxes fill.** -/
theorem State.Raises.fills_text {s : State} {r : Raised Event} (h : s.Raises r) {t : Text}
    (ht : r.item = .text t) : fills t := by
  cases h with
  | text hne =>
    cases ht
    exact fills_collapse hne
  | hashLine he =>
    subst ht
    exact fills_text_of_mem_hashLine he
  | link =>
    unfold linkEvent at ht
    split at ht <;> cases ht
  | _ => cases ht

/-! ## What is written -/

/-- The label that a dialect writes at the beginning of a line. -/
def Dialect.bareLabel? (d : Dialect) : Event → Option Text
  | .manPage page => if d = .mm ∨ d = .mom then some page else none
  | .link link => if d = .mdoc then none else some link.title
  | _ => none

/-- The lines all fill exactly when the label does with which one of them begins, if any does. -/
def FillWith (lines : List Text) (label? : Option Text) : Prop :=
  (∀ line ∈ lines, fills line) ↔ ∀ label, label? = some label → fills label

theorem fillWith_none {lines : List Text} (h : ∀ line ∈ lines, fills line) :
    FillWith lines none :=
  iff_of_true h fun _ hlabel => by cases hlabel

theorem fillWith_some_iff {lines : List Text} {label : Text} :
    FillWith lines (some label) ↔ ((∀ line ∈ lines, fills line) ↔ fills label) := by
  simp [FillWith]

theorem fills_manItem (lists : OpenLists) : ∀ line ∈ MacroPackage.manItem lists, fills line := by
  unfold MacroPackage.manItem
  split
  · exact List.forall_mem_nil _
  · exact List.forall_mem_singleton.2 rfl
  · exact List.forall_mem_singleton.2 rfl

theorem fills_manPage (page : Text) : fills (MacroPackage.manPage page) := by
  unfold MacroPackage.manPage
  split <;> rfl

section

variable (d : Dialect) (lists : OpenLists)

theorem fills_heading (rank : SectionRank) (title : Text) :
    ∀ line ∈ d.package.lines (.heading rank title) lists, fills line := by
  have hrequest {name : Text} (h : fills name) :
      ∀ line ∈ [requestLine name title], fills line :=
    List.forall_mem_singleton.2 (fills_requestLine h title)
  cases d with
  | man =>
    cases rank with
    | major => exact hrequest rfl
    | minor => exact hrequest rfl
    | sub => exact List.forall_mem_cons.2 ⟨rfl, List.forall_mem_singleton.2 rfl⟩
  | mdoc => cases rank <;> exact hrequest rfl
  | mm => cases rank <;> exact hrequest rfl
  | mom => exact List.forall_mem_singleton.2 rfl

theorem fillWith_manPage (page : Text) :
    FillWith (d.package.lines (.manPage page) lists) (d.bareLabel? (.manPage page)) := by
  have hbare : FillWith [textLine page] (some page) := by
    rw [fillWith_some_iff, List.forall_mem_singleton, fills_textLine]
  cases d with
  | man => exact fillWith_none (List.forall_mem_singleton.2 (fills_manPage page))
  | mdoc => exact fillWith_none (List.forall_mem_singleton.2 (fills_requestLine rfl page))
  | mm => exact hbare
  | mom => exact hbare

theorem fillWith_link (l : Link) :
    FillWith (d.package.lines (.link l) lists) (d.bareLabel? (.link l)) := by
  -- The title stands on a line of its own, in a request, or before the target.
  have hown {name address close : Text} (hn : fills name) (hc : fills close) :
      FillWith [requestLine name address, textLine l.title, close] (some l.title) := by
    simp [fillWith_some_iff, fills_requestLine hn, hc]
  have hbefore (t : Text) : FillWith [textLine (l.title ++ ' ' :: t)] (some l.title) := by
    rw [fillWith_some_iff, List.forall_mem_singleton, fills_textLine, fills_append_blank]
  cases d with
  | man =>
    simp only [Dialect.package, MacroPackage.man]
    split
    · exact hown rfl rfl
    · exact hown rfl rfl
  | mdoc =>
    simp only [Dialect.package, MacroPackage.mdoc]
    split
    · exact fillWith_none (List.forall_mem_singleton.2 rfl)
    · exact fillWith_none (List.forall_mem_singleton.2 rfl)
  | mm =>
    simp only [Dialect.package, MacroPackage.mm, List.append_assoc]
    exact hbefore _
  | mom =>
    simp only [Dialect.package, MacroPackage.mom, List.append_assoc]
    exact hbefore _

/-- **What the lines for an event begin with.**  Outside of fenced blocks they all fill, but for the
line that begins with a label: it fills when the label does. -/
theorem Dialect.fillWith_lines {e : Event} (hf : ∀ line, e ≠ .fenceLine line)
    (ht : ∀ t, e = .text t → fills t) : FillWith (d.package.lines e lists) (d.bareLabel? e) := by
  cases e with
  | text t =>
    have htext : ∀ line ∈ [textLine t], fills line := by
      rw [List.forall_mem_singleton, fills_textLine]
      exact ht t rfl
    cases d <;> exact fillWith_none htext
  | fenceLine line => exact absurd rfl (hf line)
  | heading rank title => exact fillWith_none (fills_heading d lists rank title)
  | manPage page => exact fillWith_manPage d lists page
  | link l => exact fillWith_link d lists l
  | itemOpen =>
    cases d with
    | man => exact fillWith_none (fills_manItem lists)
    | _ => exact fillWith_none (List.forall_mem_singleton.2 rfl)
  | listOpen style =>
    cases d with
    | man => exact fillWith_none (List.forall_mem_nil _)
    | mm => cases style <;> exact fillWith_none (List.forall_mem_singleton.2 rfl)
    | _ => exact fillWith_none (List.forall_mem_singleton.2 rfl)
  | _ =>
    refine fillWith_none ?_
    cases d <;>
      simp only [Dialect.package, MacroPackage.man, MacroPackage.mdoc, MacroPackage.mm,
        MacroPackage.mom] <;> decide

end

/-! ## Documents -/

section

variable {d : Dialect} {label : Text}

theorem bareLabel?_of_mem_hashLine {line : Text} {e : Event} (he : e ∈ hashLine line) :
    d.bareLabel? e = none := by
  cases hashEvent_of_mem e he <;> rfl

theorem eq_of_bareLabel?_linkEvent {l target : Text}
    (h : d.bareLabel? (linkEvent l target) = some label) : label = l := by
  unfold linkEvent at h
  split at h
  · rw [Dialect.bareLabel?, Option.ite_none_right_eq_some] at h
    exact (Option.some.inj h.2).symm
  · rw [Dialect.bareLabel?, Option.ite_none_left_eq_some] at h
    exact (Option.some.inj h.2).symm

end

/-- No bracket that opens in a text is closed at once or has a blank after it. -/
def Markdown.TightBrackets (t : Text) : Prop :=
  t.IsChain fun c d => c = '[' → d ≠ ']' ∧ isBlank d = false

instance (t : Text) : Decidable (TightBrackets t) :=
  inferInstanceAs (Decidable (t.IsChain fun c d => c = '[' → d ≠ ']' ∧ isBlank d = false))

/-- A label is what follows a bracket. -/
theorem State.Raises.fills_label {s : State} {r : Raised Event} (h : s.Raises r)
    (hs : TightBrackets s.input.rest) {d : Dialect} {label : Text}
    (hl : d.bareLabel? r.item = some label) : fills label := by
  cases h with
  | @link lead t l target hr hb =>
    obtain rfl := eq_of_bareLabel?_linkEvent hl
    obtain ⟨⟨after, rfl⟩, -⟩ := linkBody?_eq_some_iff.1 hb
    have htight := List.isChain_iff_forall_rel_of_append_cons_cons.1 hs
    cases label with
    | nil => exact absurd rfl (htight hr rfl).1
    | cons c label => exact fills_iff.2 ⟨c, _, rfl, (htight hr rfl).2⟩
  | hashLine he =>
    rw [bareLabel?_of_mem_hashLine he] at hl
    cases hl
  | _ => cases hl

/-- The lines for an event of a document. -/
theorem Zipper.fillWith_lines (d : Dialect) (z : Zipper) {r : Raised Event}
    (hr : r ∈ z.trace.events d.package.markup) (hf : ∀ line, r.item ≠ .fenceLine line) :
    FillWith (d.package.lines r.item r.lists) (d.bareLabel? r.item) := by
  obtain ⟨m, -, hm⟩ := z.exists_raises hr
  exact d.fillWith_lines r.lists hf fun _ => hm.fills_text

/-- **Which lines break a paragraph.**  Outside of fenced blocks the lines of a document all fill,
but for those that begin with a label, and these fill when the label does: when it is not empty and
begins with no blank.  So all of them fill when the brackets of the text are tight. -/
theorem lines_fill_iff_labels_fill (d : Dialect) (z : Zipper) :
    (∀ r ∈ z.trace.events d.package.markup, (∀ line, r.item ≠ .fenceLine line) →
      ((∀ line ∈ d.package.lines r.item r.lists, fills line) ↔
        ∀ label, d.bareLabel? r.item = some label → fills label)) ∧
    (TightBrackets z.rest →
      ∀ r ∈ z.trace.events d.package.markup, (∀ line, r.item ≠ .fenceLine line) →
        ∀ line ∈ d.package.lines r.item r.lists, fills line) := by
  refine ⟨fun r hr hf => z.fillWith_lines d hr hf, fun hz r hr hf => ?_⟩
  refine (z.fillWith_lines d hr hf).2 fun label hl => ?_
  obtain ⟨m, hread, hm⟩ := z.exists_raises hr
  obtain ⟨n, hn⟩ := hread.exists_advance
  have hrest : m.next.input.rest = z.rest.drop n := congrArg Zipper.rest hn
  exact hm.fills_label (hrest ▸ hz.drop n) hl

/-- A reference to a man page, after a padded word. -/
theorem lines_fill_iff_labels_fill_at_page :
    let z : Zipper := .start "  see\t[ls 1](man)".toList
    let r : Raised Event := ⟨.manPage "ls 1".toList, ⟨[], by decide⟩⟩
    r ∈ z.trace.events Dialect.mm.package.markup ∧ (∀ line, r.item ≠ .fenceLine line) ∧
      ((∀ line ∈ Dialect.mm.package.lines r.item r.lists, fills line) ↔
        ∀ label, Dialect.mm.bareLabel? r.item = some label → fills label) ∧
      TightBrackets z.rest ∧ ∀ line ∈ Dialect.mm.package.lines r.item r.lists, fills line := by
  intro z r
  have hr : r ∈ z.trace.events Dialect.mm.package.markup := by decide +kernel
  have hf : ∀ line, r.item ≠ .fenceLine line := by
    intro line h
    cases h
  have hz : TightBrackets z.rest := by decide
  obtain ⟨hiff, hall⟩ := lines_fill_iff_labels_fill .mm z
  exact ⟨hr, hf, hiff r hr hf, hz, hall hz r hr hf⟩

/-- Labels that are empty or begin with a blank, and the lines that do. -/
theorem labels_are_not_trimmed :
    (Zipper.start "[ t](x)".toList).trace.lines MacroPackage.man =
        [".UR x".toList, " t".toList, ".UE".toList] ∧ fills " t".toList = false ∧
      (Zipper.start "[](x)".toList).trace.lines MacroPackage.man =
        [".UR x".toList, [], ".UE".toList] ∧ fills [] = false ∧
      (Zipper.start "[](x)".toList).trace.lines MacroPackage.mm = [" <x>".toList] ∧
      fills " <x>".toList = false ∧
      (Zipper.start "[\tls](man)".toList).trace.lines MacroPackage.mom = ["\tls".toList] ∧
      fills "\tls".toList = false := by
  decide +kernel

end Roffdown
