import Roffdown.Proofs.Reading

/-!
# Nesting of events

The events of a document that is read to its end are whole blocks: every fenced block, box, list and
item that is opened is closed again, inside what it was opened in, and only what belongs there is in
it.  The lists that go with an event are those opened and not closed by the events before it.

* `Blocks`, `Items`: whole blocks and the items of a list, as a grammar of events.
* `Replays`: the lists that go with events are what the events before leave open.
* `Burst`, `Path`: which events a place lets be raised at once, and one after the other.
* `State.path_of_reads`: a reading raises the events of a path.
* `Path.remains`: the events of a path that ends with nothing open are whole blocks.
-/

namespace Roffdown

open Markdown Text

/-! ## Whole blocks -/

/-- The events that stand alone. -/
def Event.isPlain : Event → Bool
  | .paragraphEnd | .text _ | .heading _ _ | .manPage _ | .link _ => true
  | _ => false

/-- The events of a box, with its title if it has one. -/
def Event.box (title : Option Text) : List Event :=
  [.boxOpen, .lineBreak] ++ (title.map Event.text).toList ++ [.lineBreak, .boxClose]

mutual

/-- Whole blocks, one after the other. -/
inductive Blocks : List Event → Prop
  | nil : Blocks []
  | plain {e : Event} {es : List Event} (he : e.isPlain) (hs : Blocks es) : Blocks (e :: es)
  | fence (lines : List Text) {es : List Event} (hs : Blocks es) :
      Blocks (.fenceOpen :: (lines.map .fenceLine ++ .fenceClose :: es))
  | box (title : Option Text) {es : List Event} (hs : Blocks es) :
      Blocks (Event.box title ++ es)
  | list (style : ListStyle) {items es : List Event} (hi : Items items) (hs : Blocks es) :
      Blocks (.listOpen style :: (items ++ .listClose :: es))

/-- The items of a list, at least one. -/
inductive Items : List Event → Prop
  | last {body : List Event} (hb : Blocks body) : Items (.itemOpen :: (body ++ [.itemClose]))
  | more {body items : List Event} (hb : Blocks body) (hi : Items items) :
      Items (.itemOpen :: (body ++ .itemClose :: items))

end

/-! ## The lists that go with an event -/

/-- Whether an event can go with lists, given those that were open before it: a new list is already
open, and the item that begins is already counted, if it is not the first. -/
def Event.Sees (before lists : OpenLists) : Event → Prop
  | .listOpen style => ∃ l : OpenList, l.style = style ∧ before.opened? l = some lists
  | .itemOpen => lists = before ∨ lists = before.countItem
  | _ => lists = before

/-- The lists that an event leaves open; a list that ends is still open when its event is raised. -/
def Event.leaves (lists : OpenLists) : Event → OpenLists
  | .listClose => lists.closed
  | _ => lists

/-- The lists that go with events are those that the events before them leave open. -/
def Replays (before : OpenLists) : List (Raised Event) → OpenLists → Prop
  | [], after => after = before
  | r :: rs, after => r.item.Sees before r.lists ∧ Replays (r.item.leaves r.lists) rs after

theorem Replays.append {a b c : OpenLists} {es fs : List (Raised Event)} (h : Replays a es b)
    (g : Replays b fs c) : Replays a (es ++ fs) c := by
  induction es generalizing a with
  | nil =>
    obtain rfl := h
    exact g
  | cons e es ih => exact ⟨h.1, ih h.2⟩

/-! ## Paths -/

/-- What decides which events can be raised next. -/
structure Place where
  lists : OpenLists
  /-- A fenced block is open. -/
  inFence : Bool

/-- Events that are raised at once, from a place to the next. -/
inductive Burst : Place → List (Raised Event) → Place → Prop
  | plain (s : OpenLists) {e : Event} (he : e.isPlain) : Burst ⟨s, false⟩ [⟨e, s⟩] ⟨s, false⟩
  | box (s : OpenLists) (title : Option Text) :
      Burst ⟨s, false⟩ ((Event.box title).map fun e => ⟨e, s⟩) ⟨s, false⟩
  | fenceOpen (s : OpenLists) : Burst ⟨s, false⟩ [⟨.fenceOpen, s⟩] ⟨s, true⟩
  | fenceLine (s : OpenLists) (line : Text) : Burst ⟨s, true⟩ [⟨.fenceLine line, s⟩] ⟨s, true⟩
  | fenceClose (s : OpenLists) : Burst ⟨s, true⟩ [⟨.fenceClose, s⟩] ⟨s, false⟩
  | listOpen {l : OpenList} {s t : OpenLists} (h : s.opened? l = some t) :
      Burst ⟨s, false⟩ [⟨.listOpen l.style, t⟩, ⟨.itemOpen, t⟩] ⟨t, false⟩
  | nextItem {s : OpenLists} (h : s.lists ≠ []) :
      Burst ⟨s, false⟩ [⟨.itemClose, s⟩, ⟨.itemOpen, s.countItem⟩] ⟨s.countItem, false⟩
  | listClose {s : OpenLists} (h : s.lists ≠ []) :
      Burst ⟨s, false⟩ [⟨.itemClose, s⟩, ⟨.listClose, s⟩] ⟨s.closed, false⟩

/-- Bursts, one after the other. -/
inductive Path : Place → List (Raised Event) → Place → Prop
  | nil (a : Place) : Path a [] a
  | cons {a b c : Place} {es fs : List (Raised Event)} (h : Burst a es b) (hs : Path b fs c) :
      Path a (es ++ fs) c

theorem Burst.path {a b : Place} {es : List (Raised Event)} (h : Burst a es b) : Path a es b := by
  have := Path.cons h (.nil b)
  rwa [List.append_nil] at this

theorem Path.append {a b c : Place} {es fs : List (Raised Event)} (h : Path a es b)
    (g : Path b fs c) : Path a (es ++ fs) c := by
  induction h with
  | nil a => exact g
  | cons h _ ih =>
    rw [List.append_assoc]
    exact .cons h (ih g)

/-! ### The lists along a path -/

theorem Burst.replays {a b : Place} {es : List (Raised Event)} (h : Burst a es b) :
    Replays a.lists es b.lists := by
  cases h with
  | @plain s e he => cases e <;> first | exact ⟨rfl, rfl⟩ | cases he
  | box s title => cases title <;> simp [Event.box, Replays, Event.Sees, Event.leaves]
  | fenceOpen | fenceLine | fenceClose => exact ⟨rfl, rfl⟩
  | listOpen h => exact ⟨⟨_, rfl, h⟩, .inl rfl, rfl⟩
  | nextItem => exact ⟨rfl, .inr rfl, rfl⟩
  | listClose => exact ⟨rfl, rfl, rfl⟩

theorem Path.replays {a b : Place} {es : List (Raised Event)} (h : Path a es b) :
    Replays a.lists es b.lists := by
  induction h with
  | nil a => rfl
  | cons h _ ih => exact h.replays.append ih

theorem not_isOfList_of_isPlain {e : Event} (h : e.isPlain) : e.isOfList = false := by
  cases e <;> first | rfl | cases h

theorem not_isOfList_of_mem_box {title : Option Text} :
    ∀ e ∈ Event.box title, e.isOfList = false := by
  cases title <;> simp [Event.box, Event.isOfList]

theorem Burst.lists_ne_nil {a b : Place} {es : List (Raised Event)} (h : Burst a es b)
    {r : Raised Event} (hr : r ∈ es) (he : r.item.isOfList) : r.lists.lists ≠ [] := by
  cases h with
  | @plain s e hp =>
    obtain rfl := List.mem_singleton.1 hr
    rw [not_isOfList_of_isPlain hp] at he
    cases he
  | box s title =>
    obtain ⟨e, hm, rfl⟩ := List.mem_map.1 hr
    rw [not_isOfList_of_mem_box e hm] at he
    cases he
  | fenceOpen | fenceLine | fenceClose =>
    obtain rfl := List.mem_singleton.1 hr
    cases he
  | listOpen h =>
    have hl := OpenLists.opened?_eq_some_iff.1 h
    simp only [List.mem_cons, List.not_mem_nil, or_false] at hr
    rcases hr with rfl | rfl <;> simp [hl]
  | nextItem h =>
    simp only [List.mem_cons, List.not_mem_nil, or_false] at hr
    rcases hr with rfl | rfl
    · exact h
    · simpa using h
  | listClose h =>
    simp only [List.mem_cons, List.not_mem_nil, or_false] at hr
    rcases hr with rfl | rfl <;> exact h

theorem Path.lists_ne_nil {a b : Place} {es : List (Raised Event)} (h : Path a es b)
    {r : Raised Event} (hr : r ∈ es) (he : r.item.isOfList) : r.lists.lists ≠ [] := by
  induction h with
  | nil a => cases hr
  | cons h _ ih => exact (List.mem_append.1 hr).elim (h.lists_ne_nil · he) ih

/-! ### Paths to where nothing is open -/

/-- What may follow while lists are open, so many of them, up to where nothing is open: the rest of
the item at hand, the other items of its list, and the same for the lists around it. -/
def Remains : Nat → List Event → Prop
  | 0, es => Blocks es
  | n + 1, es => ∃ body items rest, es = body ++ .itemClose :: (items ++ .listClose :: rest) ∧
      Blocks body ∧ (items = [] ∨ Items items) ∧ Remains n rest

/-- Whole blocks may stand before anything that may follow. -/
theorem Remains.prepend (block : List Event) (hb : ∀ es, Blocks es → Blocks (block ++ es))
    {n : Nat} {es : List Event} (h : Remains n es) : Remains n (block ++ es) := by
  cases n with
  | zero => exact hb es h
  | succ n =>
    obtain ⟨body, items, rest, rfl, hbody, hi, hr⟩ := h
    exact ⟨block ++ body, items, rest, by simp, hb body hbody, hi, hr⟩

theorem Remains.listOpen {n : Nat} {es : List Event} (style : ListStyle) (h : Remains (n + 1) es) :
    Remains n (.listOpen style :: .itemOpen :: es) := by
  obtain ⟨body, items, rest, rfl, hbody, hi, hr⟩ := h
  have hitems : Items (.itemOpen :: (body ++ .itemClose :: items)) := by
    rcases hi with rfl | hi
    · exact .last hbody
    · exact .more hbody hi
  have hblock := hr.prepend
    (.listOpen style :: (.itemOpen :: (body ++ .itemClose :: items) ++ [.listClose]))
    fun es hs => by simpa using Blocks.list style hitems hs
  simpa using hblock

theorem Remains.nextItem {n : Nat} {es : List Event} (h : Remains (n + 1) es) :
    Remains (n + 1) (.itemClose :: .itemOpen :: es) := by
  obtain ⟨body, items, rest, rfl, hbody, hi, hr⟩ := h
  refine ⟨[], .itemOpen :: (body ++ .itemClose :: items), rest, by simp, .nil, .inr ?_, hr⟩
  rcases hi with rfl | hi
  · exact .last hbody
  · exact .more hbody hi

theorem Remains.listClose {n : Nat} {es : List Event} (h : Remains n es) :
    Remains (n + 1) (.itemClose :: .listClose :: es) :=
  ⟨[], [], es, rfl, .nil, .inl rfl, h⟩

/-- What may follow a place; in a fenced block its other lines come first. -/
def Place.Remains (a : Place) (es : List Event) : Prop :=
  if a.inFence then ∃ (lines : List Text) (rest : List Event),
    es = lines.map .fenceLine ++ .fenceClose :: rest ∧ Roffdown.Remains a.lists.depth rest
  else Roffdown.Remains a.lists.depth es

theorem Burst.remains {a b : Place} {es : List (Raised Event)} (h : Burst a es b)
    {fs : List Event} (hs : b.Remains fs) : a.Remains (es.map Raised.item ++ fs) := by
  cases h with
  | plain s he => exact Remains.prepend [_] (fun _ hs => .plain he hs) hs
  | box s title =>
    have hm : ((Event.box title).map fun e => (⟨e, s⟩ : Raised Event)).map Raised.item =
        Event.box title := by simp [Function.comp_def]
    rw [hm]
    exact Remains.prepend _ (fun _ hs => .box title hs) hs
  | fenceOpen s =>
    obtain ⟨lines, rest, rfl, hr⟩ := hs
    have hblock := hr.prepend (.fenceOpen :: (lines.map .fenceLine ++ [.fenceClose]))
      fun es hs => by simpa using Blocks.fence lines hs
    simpa [Place.Remains] using hblock
  | fenceLine s line =>
    obtain ⟨lines, rest, rfl, hr⟩ := hs
    exact ⟨line :: lines, rest, rfl, hr⟩
  | fenceClose s => exact ⟨[], fs, rfl, hs⟩
  | @listOpen l s t h =>
    have ht : t.depth = s.depth + 1 := by
      simp [OpenLists.depth, OpenLists.opened?_eq_some_iff.1 h]
    simp only [Place.Remains, ht, Bool.false_eq_true, if_false] at hs
    exact hs.listOpen l.style
  | @nextItem s h =>
    obtain ⟨n, hn⟩ := Nat.exists_eq_succ_of_ne_zero (mt List.length_eq_zero_iff.1 h)
    have ht : s.countItem.depth = n + 1 := by simpa [OpenLists.depth] using hn
    simp only [Place.Remains, ht, Bool.false_eq_true, if_false] at hs
    simp only [Place.Remains, OpenLists.depth, hn, Bool.false_eq_true, if_false]
    exact hs.nextItem
  | @listClose s h =>
    have ht : s.depth = s.closed.depth + 1 := by
      have := List.length_pos_iff.2 h
      simp only [OpenLists.depth, OpenLists.lists_closed, List.length_tail]
      omega
    have := Remains.listClose (show Remains s.closed.depth fs from hs)
    rwa [← ht] at this

theorem Path.remains {a b : Place} {es : List (Raised Event)} (h : Path a es b)
    (hb : b.Remains []) : a.Remains (es.map Raised.item) := by
  induction h with
  | nil a => exact hb
  | cons h _ ih =>
    rw [List.map_append]
    exact h.remains (ih hb)

/-- **The events between two places where nothing is open are whole blocks.** -/
theorem Path.blocks {es : List (Raised Event)} (h : Path ⟨.empty, false⟩ es ⟨.empty, false⟩) :
    Blocks (es.map Raised.item) :=
  h.remains .nil

/-! ## What the rules raise is a path -/

namespace State

/-- The place of a state. -/
def place (s : State) : Place := ⟨s.lists, s.inFence⟩

/-- The events of a move are a path outside of fenced blocks, from given lists to those that the
move leaves open. -/
def Walks (mk : Markup) (l : OpenLists) (m : Move) : Prop :=
  Path ⟨l, false⟩ (Raised.events mk m.raised) ⟨m.next.lists, false⟩

variable {mk : Markup} {s : State} {l : OpenLists}

theorem walks_silent (hl : s.lists = l) : Walks mk l (.silent s) := hl ▸ .nil _

theorem Walks.andThen {m : Move} {f : State → Move} (h : Walks mk l m)
    (g : Walks mk m.next.lists (f m.next)) : Walks mk l (m.andThen f) := by
  rw [Walks, Move.raised_andThen, Raised.events_append]
  exact Path.append h g

/-- A signal that becomes a plain event, or none. -/
theorem walks_raise {signal : Signal} (hl : s.lists = l)
    (h : ∀ e, signal.event? mk = some e → e.isPlain) : Walks mk l (s.raise [signal]) := by
  subst hl
  unfold Walks
  cases he : signal.event? mk with
  | none => simpa [raise, Raised.events, he] using Path.nil _
  | some e => simpa [raise, Raised.events, he] using (Burst.plain s.lists (h e he)).path

theorem walks_announce {events : List Event} (hl : s.lists = l)
    (h : Burst ⟨l, false⟩ (events.map fun e => ⟨e, l⟩) ⟨l, false⟩) :
    Walks mk l (s.announce events) := by
  subst hl
  unfold Walks
  rw [Raised.events_announce]
  exact h.path

theorem walks_release (hl : s.lists = l) : Walks mk l s.release := by
  have h : Walks mk l (s.raise [.text s.buffer.all]) := walks_raise hl fun e he => by
    rw [Signal.event?_text] at he
    split at he <;> cases he
    rfl
  unfold Walks at h ⊢
  rw [Raised.events_release, next_release]
  exact h

/-! ### Lists -/

theorem walks_closeInnermost (hl : s.lists = l) (hne : l.lists ≠ []) :
    Walks mk l s.closeInnermost := by
  subst hl
  simpa [Walks, closeInnermost] using (Burst.listClose hne).path

theorem walks_closeMany {n : Nat} (hl : s.lists = l) (hn : n ≤ l.depth) :
    Walks mk l (s.closeMany n) := by
  induction n generalizing s l with
  | zero => exact walks_silent hl
  | succ n ih =>
    subst hl
    have hne : s.lists.lists ≠ [] := List.length_pos_iff.1 (Nat.lt_of_lt_of_le n.succ_pos hn)
    refine (walks_closeInnermost rfl hne).andThen (ih rfl ?_)
    simp only [next_closeInnermost, OpenLists.depth, OpenLists.lists_closed,
      List.length_tail] at hn ⊢
    omega

theorem walks_nextItem (hl : s.lists = l) (hne : l.lists ≠ []) : Walks mk l s.nextItem := by
  subst hl
  simpa [Walks, nextItem] using (Burst.nextItem hne).path

theorem deeperThan_le (indent : Nat) (l : OpenLists) : l.deeperThan indent ≤ l.depth :=
  Nat.le_trans (List.takeWhile_sublist _).length_le l.lists.dropLast_sublist.length_le

theorem walks_placeItem (marker : Marker) (indent : Nat) (hl : s.lists = l) :
    Walks mk l (s.placeItem marker indent) := by
  subst hl
  refine (walks_closeMany rfl (deeperThan_le indent s.lists)).andThen ?_
  generalize (s.closeMany (s.lists.deeperThan indent)).next = n
  split
  · split
    · rename_i t ht
      simpa [Walks] using (Burst.listOpen ht).path
    · rename_i hfull
      have hmax := of_decide_eq_true (OpenLists.opened?_eq_none_iff.1 hfull)
      refine Walks.andThen (m := n.warn .tooDeep) (.nil _) (walks_nextItem rfl fun h => ?_)
      rw [next_warn] at h
      simp [OpenLists.depth, h, OpenLists.maxDepth] at hmax
  · rename_i hne
    refine walks_nextItem rfl fun h => hne ?_
    simp [OpenLists.innermost?, h]

/-! ### Rules -/

theorem burst_hashLine (line : Text) :
    Burst ⟨l, false⟩ ((hashLine line).map fun e => ⟨e, l⟩) ⟨l, false⟩ := by
  unfold hashLine
  split
  · simp only
    split
    · exact .box l none
    · exact .box l (some _)
  · exact .plain l rfl

theorem walks_hashRule : Walks mk s.lists s.hashRule := by
  refine Walks.andThen (walks_release ?_) (walks_announce ?_ (burst_hashLine _)) <;> rfl

theorem walks_paragraphBreak : Walks mk s.lists s.paragraphBreak := by
  refine Walks.andThen (walks_release ?_) (Walks.andThen ?_ (walks_announce rfl (.plain _ rfl)))
  · rfl
  · split
    · exact walks_silent rfl
    · rename_i h
      exact walks_closeInnermost rfl (by simpa [OpenLists.isEmpty] using h)

theorem isPlain_linkEvent (label target : Text) : (linkEvent label target).isPlain := by
  unfold linkEvent
  split <;> rfl

theorem walks_underlined : Walks mk s.lists s.underlined := by
  refine Walks.andThen (walks_release rfl) (walks_raise ?_ fun e he => ?_)
  · rw [next_release]
  · rw [Signal.event?_title] at he
    split at he <;> cases he
    rfl

theorem walks_of_textRule {m : Move} (h : TextRule s m) : Walks mk s.lists m := by
  cases h with
  | underline => exact walks_underlined (s := { s with input := _, freshLine := true })
  | join => exact walks_silent rfl
  | push => exact walks_silent rfl
  | link =>
    refine Walks.andThen (walks_release ?_) (walks_announce ?_ (.plain _ (isPlain_linkEvent _ _)))
    · rfl
    · rfl

/-! ### Steps -/

theorem path_of_walks {m : Move} (hf : s.inFence = false) (hm : m.next.inFence = false)
    (h : Walks mk s.lists m) : Path s.place (Raised.events mk m.raised) m.next.place := by
  unfold place
  rw [hf, hm]
  exact h

theorem path_of_blockRule {m : Move} (hf : s.inFence = false) (h : BlockRule s m) :
    Path s.place (Raised.events mk m.raised) m.next.place := by
  cases h with
  | paragraphBreak =>
    exact path_of_walks hf ((inFence_paragraphBreak s).trans hf) walks_paragraphBreak
  | hashRule => exact path_of_walks hf (by simp [hashRule, next_release, hf]) walks_hashRule
  | openFence =>
    have ht : Walks mk s.lists s.release := walks_release rfl
    have hp := Path.append ht (Burst.fenceOpen _).path
    simpa [openFence, place, hf, Raised.events_release, next_release] using hp
  | item =>
    refine path_of_walks hf ?_ (Walks.andThen (walks_release ?_) (walks_placeItem _ _ rfl))
    · rw [Move.next_andThen, inFence_placeItem, next_release]
      exact hf
    · rfl

theorem path_fencedLine (hf : s.inFence = true) :
    Path s.place (Raised.events mk s.fencedLine.raised) s.fencedLine.next.place := by
  unfold place
  rw [hf]
  by_cases h : s.input.startsWith fence
  · rw [fencedLine_of_fence h]
    simpa using (Burst.fenceClose s.lists).path
  · rw [fencedLine_of_not_fence h]
    simpa [hf] using (Burst.fenceLine s.lists _).path

/-- **The events of a step are a path from the place of its state.** -/
theorem path_of_rule (mk : Markup) {m : Move} (h : Rule s m) :
    Path s.place (Raised.events mk m.raised) m.next.place := by
  cases h with
  | fencedLine hf => exact path_fencedLine hf
  | backslash hf => exact path_of_walks hf hf (walks_silent rfl)
  | block hf _ hm => exact path_of_blockRule (s := s.midLine) hf hm
  | text hf hm =>
    have hfence : m.next.inFence = false := (inFence_of_textRule hm).trans hf
    exact path_of_walks hf hfence (walks_of_textRule (s := s.midLine) hm)

/-- **The events of a reading are a path.** -/
theorem path_of_reads (mk : Markup) {m : Move} (h : Reads s m) :
    Path s.place (Raised.events mk m.raised) m.next.place := by
  induction h with
  | stop s => exact .nil _
  | step hs hm _ ih =>
    rw [Move.raised_andThen, Raised.events_append]
    exact (path_of_rule mk (rule_of_step hs hm)).append ih

theorem lists_closeMany (n : Nat) (s : State) :
    (s.closeMany n).next.lists.lists = s.lists.lists.drop n := by
  induction n generalizing s with
  | zero => rfl
  | succ n ih =>
    rw [closeMany, Move.next_andThen, ih, next_closeInnermost, OpenLists.lists_closed,
      List.drop_tail]

/-- What is open at the end of the text is closed. -/
theorem path_wrapUp (hb : s.FenceIsBare) :
    Path s.place (Raised.events mk s.wrapUp.raised) ⟨.empty, false⟩ := by
  have hc (s : State) : Path ⟨s.lists, false⟩
      (Raised.events mk (s.closeMany s.lists.depth).raised) ⟨.empty, false⟩ := by
    have h : Walks mk s.lists (s.closeMany s.lists.depth) := walks_closeMany rfl (Nat.le_refl _)
    have he : (s.closeMany s.lists.depth).next.lists = .empty :=
      OpenLists.ext (by rw [lists_closeMany]; exact List.drop_length)
    rwa [Walks, he] at h
  unfold wrapUp place
  rw [Move.raised_andThen, Raised.events_append, next_release]
  cases hf : s.inFence with
  | false =>
    have ht : Walks mk s.lists s.release := walks_release rfl
    rw [Walks, next_release] at ht
    simpa [hf] using ht.append (hc { s with buffer := .empty })
  | true =>
    have ht : Raised.events mk s.release.raised = [] := by
      rw [release, hb hf]
      rfl
    have hp := (Burst.fenceClose s.lists).path.append
      (hc { s with buffer := .empty, inFence := false })
    rw [ht]
    simpa [warn] using hp

end State

/-! ## Whole documents -/

/-- Events as a document that is read to its end raises them. -/
structure WellNested (es : List (Raised Event)) : Prop where
  blocks : Blocks (es.map Raised.item)
  replays : Replays .empty es .empty
  depth_le : ∀ r ∈ es, r.lists.depth ≤ OpenLists.maxDepth
  open_of_isOfList : ∀ r ∈ es, r.item.isOfList → r.lists.isEmpty = false

/-- **The events of a document that is read to its end are well nested**, for any spelling of the
font marks and any place where reading begins. -/
theorem wellNested_events (mk : Markup) (z : Zipper) (h : z.trace.failure? = none) :
    WellNested (z.trace.events mk) := by
  obtain ⟨m, hr, -, ht⟩ := z.exists_reads_of_success h
  have hb : m.next.FenceIsBare := hr.fenceIsBare (State.fenceIsBare_of_not rfl)
  have hpath : Path ⟨.empty, false⟩ (z.trace.events mk) ⟨.empty, false⟩ := by
    rw [Trace.events, ht, Raised.events_append]
    exact (State.path_of_reads mk hr).append (State.path_wrapUp hb)
  exact ⟨hpath.blocks, hpath.replays, fun r _ => r.lists.depth_le, fun r hr' he => by
    simpa [OpenLists.isEmpty] using hpath.lists_ne_nil hr' he⟩

/-- A box, a list inside a list, and a fence that is open at the end. -/
theorem wellNested_events_of_lists :
    (Zipper.start "# T #\n- a\n  1. b\n```\nx".toList).trace.failure? = none ∧
      WellNested ((Zipper.start "# T #\n- a\n  1. b\n```\nx".toList).trace.events tagMarkup) := by
  have h : (Zipper.start "# T #\n- a\n  1. b\n```\nx".toList).trace.failure? = none := by
    decide +kernel
  exact ⟨h, wellNested_events tagMarkup _ h⟩

end Roffdown
