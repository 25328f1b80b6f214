import Roffdown.Proofs.Reading

/-!
# What a step raises

Every event of a document is raised by one step, from the text that this step reads.  `Raises` says
for each event what that text is and what the event has of it; a property of all events is then
shown by one case for each of them.

* `Markdown.HashEvent`: the events of a line with hashes.
* `State.Raises`: the events that a step from a state can raise.
* `State.raises_of_rule`: what each rule raises.
* `State.Reads.exists_step`: an event of a reading is raised by one of its steps.
* `Zipper.exists_raises`: and so is an event of a whole document, but for what ends it.
-/

namespace Roffdown

open Markdown Text

/-- The events of a line with hashes: those of a box, with its title if it has one, or a header. -/
inductive Markdown.HashEvent (line : Text) : Event → Prop
  | boxOpen : HashEvent line .boxOpen
  | lineBreak : HashEvent line .lineBreak
  | boxClose : HashEvent line .boxClose
  | title (h : trim (fun c => c == '#' || isBlank c) line ≠ []) :
      HashEvent line (.text (trim (fun c => c == '#' || isBlank c) line))
  | header (rank : SectionRank) (hashes : Nat) :
      HashEvent line (.heading rank (trim isBlank (line.drop hashes)))

theorem Markdown.hashEvent_of_mem {line : Text} : ∀ e ∈ hashLine line, HashEvent line e := by
  unfold hashLine
  split
  · have hend : ∀ e ∈ [Event.lineBreak, .boxClose], HashEvent line e :=
      List.forall_mem_cons.2 ⟨.lineBreak, List.forall_mem_singleton.2 .boxClose⟩
    simp only
    split
    · exact List.forall_mem_cons.2 ⟨.boxOpen, List.forall_mem_cons.2 ⟨.lineBreak, hend⟩⟩
    · rename_i h
      have htitle := HashEvent.title fun ht => h (List.isEmpty_iff.2 ht)
      exact List.forall_mem_cons.2 ⟨.boxOpen, List.forall_mem_cons.2 ⟨.lineBreak,
        List.forall_mem_cons.2 ⟨htitle, hend⟩⟩⟩
  · exact List.forall_mem_singleton.2 (.header _ _)

namespace State

/-- The events that a step from a state can raise, or that are raised when reading ends there. -/
inductive Raises (s : State) : Raised Event → Prop
  | text {t : Text} (ht : collapse t ≠ []) (l : OpenLists) : Raises s ⟨.text (collapse t), l⟩
  | title {t : Text} (ht : collapse t ≠ []) (l : OpenLists) :
      Raises s ⟨.heading .major (collapse t), l⟩
  | hashLine {e : Event} (he : e ∈ hashLine s.input.restOfLine) (l : OpenLists) : Raises s ⟨e, l⟩
  | paragraphEnd (l : OpenLists) : Raises s ⟨.paragraphEnd, l⟩
  | fenceOpen (l : OpenLists) : Raises s ⟨.fenceOpen, l⟩
  | fenceLine (l : OpenLists) : Raises s ⟨.fenceLine s.input.restOfLine, l⟩
  | fenceClose (l : OpenLists) : Raises s ⟨.fenceClose, l⟩
  | listOpen {blanks t : Text} {marker : Marker} {outer : List OpenList} {l : OpenLists}
      (hf : s.freshLine = true) (hr : s.input.rest = blanks ++ t) (hb : ∀ c ∈ blanks, isIndent c)
      (hm : marker? t = some marker)
      (hl : l.lists = ⟨marker.style, marker.number, indentWidth blanks⟩ :: outer) :
      Raises s ⟨.listOpen marker.style, l⟩
  | itemOpen (l : OpenLists) : Raises s ⟨.itemOpen, l⟩
  | itemClose (l : OpenLists) : Raises s ⟨.itemClose, l⟩
  | listClose (l : OpenLists) : Raises s ⟨.listClose, l⟩
  | link {lead t label target : Text} (hr : s.input.rest = lead ++ '[' :: t)
      (hb : linkBody? t = some (label, target)) (l : OpenLists) :
      Raises s ⟨linkEvent label target, l⟩

/-- A move that raises nothing but what a step from a state can raise. -/
def Fits (mk : Markup) (s : State) (m : Move) : Prop :=
  ∀ r ∈ Raised.events mk m.raised, s.Raises r

variable {mk : Markup} {s t : State} {m : Move} {f : State → Move}

theorem fits_silent : Fits mk s (.silent t) := by
  intro r hr
  cases hr

theorem fits_warn (w : Warning) : Fits mk s (t.warn w) := by
  intro r hr
  cases hr

theorem Fits.andThen (h : Fits mk s m) (hf : Fits mk s (f m.next)) : Fits mk s (m.andThen f) := by
  intro r hr
  rw [Move.raised_andThen, Raised.events_append] at hr
  exact (List.mem_append.1 hr).elim (h r) (hf r)

theorem fits_announce {events : List Event} (h : ∀ e ∈ events, s.Raises ⟨e, t.lists⟩) :
    Fits mk s (t.announce events) := by
  intro r hr
  rw [Raised.events_announce] at hr
  obtain ⟨e, he, rfl⟩ := List.mem_map.1 hr
  exact h e he

theorem fits_announce_one {e : Event} (h : s.Raises ⟨e, t.lists⟩) : Fits mk s (t.announce [e]) := by
  refine fits_announce fun d hd => ?_
  obtain rfl := List.mem_singleton.1 hd
  exact h

theorem fits_release : Fits mk s t.release := by
  intro r hr
  rw [Raised.events_release, Raised.events_singleton, Signal.event?_text] at hr
  split at hr
  · cases hr
  · rename_i h
    obtain rfl := List.mem_singleton.1 hr
    exact .text h _

/-! ## Lists -/

theorem fits_closeInnermost : Fits mk s t.closeInnermost := by
  refine (fits_announce ?_).andThen fits_silent
  simp only [List.mem_cons, List.not_mem_nil, or_false]
  rintro e (rfl | rfl)
  · exact .itemClose _
  · exact .listClose _

theorem fits_closeMany (n : Nat) : Fits mk s (t.closeMany n) := by
  induction n generalizing t with
  | zero => exact fits_silent
  | succ n ih => exact fits_closeInnermost.andThen ih

theorem fits_nextItem : Fits mk s t.nextItem :=
  (fits_announce_one (.itemClose _)).andThen (fits_announce_one (.itemOpen _))

theorem fits_placeItem {blanks u : Text} {marker : Marker} (hf : s.freshLine = true)
    (hr : s.input.rest = blanks ++ u) (hb : ∀ c ∈ blanks, isIndent c)
    (hm : marker? u = some marker) : Fits mk s (t.placeItem marker (indentWidth blanks)) := by
  refine (fits_closeMany _).andThen ?_
  generalize (t.closeMany (t.lists.deeperThan (indentWidth blanks))).next = n
  split
  · split
    · rename_i l hl
      have hlists := OpenLists.opened?_eq_some_iff.1 hl
      refine fits_announce ?_
      simp only [List.mem_cons, List.not_mem_nil, or_false]
      rintro e (rfl | rfl)
      · exact .listOpen hf hr hb hm hlists
      · exact .itemOpen _
    · exact (fits_warn _).andThen fits_nextItem
  · exact fits_nextItem

/-! ## Rules -/

theorem fits_of_blockRule (hf : t.freshLine = true) (h : BlockRule t.midLine m) : Fits mk t m := by
  cases h with
  | paragraphBreak =>
    refine fits_release.andThen (Fits.andThen ?_ (fits_announce_one (.paragraphEnd _)))
    split
    · exact fits_silent
    · exact fits_closeInnermost
  | hashRule => exact fits_release.andThen (fits_announce fun e he => .hashLine (s := t) he _)
  | openFence => exact fits_release.andThen (fits_announce_one (.fenceOpen _))
  | item hr hb hm => exact fits_release.andThen (fits_placeItem hf hr hb hm)

theorem fits_of_textRule (h : TextRule t.midLine m) : Fits mk t m := by
  cases h with
  | underline =>
    refine fits_release.andThen ?_
    intro r hr
    simp only [raise, List.map_cons, List.map_nil] at hr
    rw [Raised.events_singleton, Signal.event?_title] at hr
    split at hr
    · cases hr
    · rename_i ht
      obtain rfl := List.mem_singleton.1 hr
      exact .title ht _
  | join => exact fits_silent
  | push => exact fits_silent
  | link hr _ hb => exact fits_release.andThen (fits_announce_one (.link (s := t) hr hb _))

theorem fits_fencedLine : Fits mk s s.fencedLine := by
  by_cases h : s.input.startsWith fence
  · rw [fencedLine_of_fence h]
    exact fits_announce_one (.fenceClose _)
  · rw [fencedLine_of_not_fence h]
    exact fits_announce_one (.fenceLine _)

/-- **What a step raises.** -/
theorem raises_of_rule (h : Rule s m) {r : Raised Event} (hr : r ∈ Raised.events mk m.raised) :
    s.Raises r := by
  cases h with
  | fencedLine => exact fits_fencedLine r hr
  | backslash => cases hr
  | block _ hl hm => exact fits_of_blockRule hl hm r hr
  | text _ hm => exact fits_of_textRule hm r hr

theorem raises_of_wrapUp {r : Raised Event} (hr : r ∈ Raised.events mk s.wrapUp.raised) :
    s.Raises r := by
  have hfence (t : State) : Fits mk s (if t.inFence then
      ({ t with inFence := false }.announce [.fenceClose]).andThen (warn .unclosedFence)
      else .silent t) := by
    split
    · exact (fits_announce_one (.fenceClose _)).andThen (fits_warn _)
    · exact fits_silent
  have h : Fits mk s s.wrapUp := fits_release.andThen ((hfence _).andThen (fits_closeMany _))
  exact h r hr

end State

/-! ## The step that raises an event -/

open State (Reads)

theorem append_eq_append_cons {α : Type} {a b before after : List α} {x : α}
    (h : a ++ b = before ++ x :: after) :
    (∃ c, a = before ++ x :: c ∧ after = c ++ b) ∨ ∃ c, before = a ++ c ∧ b = c ++ x :: after := by
  rcases List.append_eq_append_iff.1 h with ⟨c, hc, hb⟩ | ⟨c, hc, hb⟩
  · exact .inr ⟨c, hc, hb⟩
  · cases c with
    | nil => exact .inr ⟨[], by simpa using hc.symm, by simpa using hb.symm⟩
    | cons y c =>
      obtain ⟨rfl, rfl⟩ := List.cons.inj hb
      exact .inl ⟨c, hc, rfl⟩

/-- **An event of a reading is raised by one of its steps.** -/
theorem State.Reads.exists_step {mk : Markup} {s : State} {m : Move} (h : Reads s m)
    {before after : List (Raised Event)} {r : Raised Event}
    (he : Raised.events mk m.raised = before ++ r :: after) :
    ∃ (l n : Move) (x y : List (Raised Event)), Reads s l ∧ l.next.input.rest ≠ [] ∧
      l.next.step = .ok n ∧ before = Raised.events mk l.raised ++ x ∧
      Raised.events mk n.raised = x ++ r :: y := by
  induction h generalizing before with
  | stop s => simp at he
  | @step s m n hs hm hn ih =>
    rw [Move.raised_andThen, Raised.events_append] at he
    rcases append_eq_append_cons he with ⟨y, hy, -⟩ | ⟨x, hx, hb⟩
    · exact ⟨.silent s, m, before, y, .stop s, hs, hm, rfl, hy⟩
    · obtain ⟨l, k, x', y', hl, hne, hk, hbefore, hevents⟩ := ih hb
      refine ⟨m.andThen fun _ => l, k, x', y', .step hs hm hl, hne, hk, ?_, hevents⟩
      rw [hx, hbefore, Move.raised_andThen, Raised.events_append, List.append_assoc]

/-- **An event of a document is raised at a place that reading reaches.** -/
theorem Zipper.exists_raises {mk : Markup} {z : Zipper} {r : Raised Event}
    (hr : r ∈ z.trace.events mk) : ∃ m, Reads (.initial z) m ∧ m.next.Raises r := by
  have hread {m : Move} (hm : Reads (.initial z) m) (h : r ∈ Raised.events mk m.raised) :
      ∃ m, Reads (.initial z) m ∧ m.next.Raises r := by
    obtain ⟨before, after, he⟩ := List.append_of_mem h
    obtain ⟨l, n, x, y, hl, hne, hn, -, hy⟩ := hm.exists_step he
    have hr : r ∈ Raised.events mk n.raised := by
      rw [hy]
      exact List.mem_append_right x List.mem_cons_self
    exact ⟨l, hl, State.raises_of_rule (State.rule_of_step hne hn) hr⟩
  unfold Trace.events at hr
  cases hf : z.trace.failure? with
  | none =>
    obtain ⟨m, hm, -, ht⟩ := exists_reads_of_success hf
    rw [ht, Raised.events_append] at hr
    rcases List.mem_append.1 hr with hr | hr
    · exact hread hm hr
    · exact ⟨m, hm, State.raises_of_wrapUp hr⟩
  | some e =>
    obtain ⟨m, hm, -, -, ht⟩ := exists_reads_of_failure hf
    rw [ht] at hr
    exact hread hm hr

end Roffdown
