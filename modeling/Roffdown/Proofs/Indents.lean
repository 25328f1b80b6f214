import Roffdown.Proofs.Respelling

/-!
# Indents of lists

A marker closes the lists that are indented further than it.  The outermost list is never looked at
for this, and only the innermost is compared; that this is right rests on what every reading keeps:
the indents of the open lists ascend from 0.

* `Ascending`: open lists whose indents ascend from 0; `Ascending.divided`: a marker divides
  them into those indented further and those that it leaves open.
* `State.told_placeItem`: what a marker tells and leaves open, when the lists ascend.
* `State.lists_of_step`: no other step changes the lists, but for that of a blank line.
* `indents_drive_lists`: all this in the states that a reading reaches.
-/

namespace Roffdown

open Markdown Text
open State (Reads)

/-! ## Lists that ascend -/

/-- The indents of open lists, from the outermost inwards. -/
def indents (lists : List OpenList) : List Nat := (lists.map OpenList.indent).reverse

/-- Open lists, innermost first, whose indents are 0 at first and then ascend. -/
structure Ascending (lists : List OpenList) : Prop where
  root : ∀ i ∈ (indents lists).head?, i = 0
  increasing : (indents lists).Pairwise (· < ·)

theorem indents_cons (o : OpenList) (lists : List OpenList) :
    indents (o :: lists) = indents lists ++ [o.indent] := by
  simp [indents]

theorem indents_countItem (lists : List OpenList) :
    indents (lists.modifyHead OpenList.countItem) = indents lists := by
  cases lists with
  | nil => rfl
  | cons o lists =>
    have ho : o.countItem.indent = o.indent := by
      unfold OpenList.countItem
      split <;> rfl
    rw [List.modifyHead_cons, indents_cons, indents_cons, ho]

theorem ascending_nil : Ascending [] := ⟨nofun, .nil⟩

namespace Ascending

variable {o : OpenList} {lists : List OpenList}

theorem tail (h : Ascending (o :: lists)) : Ascending lists where
  root := by
    intro i hi
    refine h.root i ?_
    rw [indents_cons, List.head?_append, Option.mem_def.1 hi]
    rfl
  increasing := by
    have hlists := h.increasing
    rw [indents_cons] at hlists
    exact (List.pairwise_append.1 hlists).1

theorem drop (h : Ascending lists) (n : Nat) : Ascending (lists.drop n) := by
  induction n generalizing lists with
  | zero => exact h
  | succ n ih =>
    cases lists with
    | nil => exact h
    | cons o lists => exact ih h.tail

theorem indent_lt (h : Ascending (o :: lists)) {p : OpenList} (hp : p ∈ lists) :
    p.indent < o.indent := by
  have hlists := h.increasing
  rw [indents_cons] at hlists
  refine (List.pairwise_append.1 hlists).2.2 p.indent ?_ o.indent List.mem_cons_self
  simpa [indents] using ⟨p, hp, rfl⟩

theorem cons (h : Ascending lists) (hroot : lists = [] → o.indent = 0)
    (ho : ∀ p ∈ lists.head?, p.indent < o.indent) : Ascending (o :: lists) where
  root := by
    intro i hi
    cases lists with
    | nil =>
      obtain rfl : o.indent = i := by simpa [indents] using hi
      exact hroot rfl
    | cons p lists =>
      refine h.root i ?_
      rw [indents_cons, indents_cons] at hi
      rw [indents_cons]
      simpa [List.head?_append] using hi
  increasing := by
    rw [indents_cons, List.pairwise_append]
    refine ⟨h.increasing, List.pairwise_singleton _ _, ?_⟩
    intro i hi j hj
    obtain rfl := List.mem_singleton.1 hj
    obtain ⟨p, hp, rfl⟩ : ∃ p ∈ lists, p.indent = i := by simpa [indents] using hi
    cases lists with
    | nil => cases hp
    | cons q lists =>
      have hq := ho q rfl
      rcases List.mem_cons.1 hp with rfl | hp
      · exact hq
      · exact Nat.lt_trans (h.indent_lt hp) hq

theorem countItem (h : Ascending lists) : Ascending (lists.modifyHead OpenList.countItem) := by
  constructor
  · rw [indents_countItem]
    exact h.root
  · rw [indents_countItem]
    exact h.increasing

/-- **A marker divides the open lists** into those indented further, which are innermost, and those
that are not; of the latter there is one, if any list is open. -/
theorem divided (h : Ascending lists) (indent : Nat) :
    let deeper := lists.countP fun o => indent < o.indent
    (∀ o ∈ lists.take deeper, indent < o.indent) ∧ (∀ o ∈ lists.drop deeper, o.indent ≤ indent) ∧
      (lists.drop deeper = [] → lists = []) := by
  induction lists with
  | nil => exact ⟨nofun, nofun, fun _ => rfl⟩
  | cons o lists ih =>
    by_cases ho : indent < o.indent
    · obtain ⟨htake, hdrop, hnil⟩ := ih h.tail
      have hcount : (o :: lists).countP (fun o => indent < o.indent) =
          lists.countP (fun o => indent < o.indent) + 1 :=
        List.countP_cons_of_pos (decide_eq_true ho)
      simp only [hcount, List.take_succ_cons, List.drop_succ_cons]
      refine ⟨List.forall_mem_cons.2 ⟨ho, htake⟩, hdrop, fun hl => ?_⟩
      -- The outermost list is not indented, so a marker never closes it.
      have hroot := h.root o.indent (by rw [hnil hl]; rfl)
      omega
    · have hle : ∀ p ∈ o :: lists, p.indent ≤ indent := by
        refine List.forall_mem_cons.2 ⟨Nat.le_of_not_lt ho, fun p hp => ?_⟩
        have := h.indent_lt hp
        omega
      have hzero : (o :: lists).countP (fun o => indent < o.indent) = 0 :=
        List.countP_eq_zero.2 (by simpa using hle)
      simp only [hzero, List.take_zero, List.drop_zero]
      exact ⟨nofun, hle, id⟩

end Ascending

/-! ## What a marker does to the lists -/

/-- What closing so many lists tells, innermost first. -/
def closings : Nat → List OpenList → List Told
  | 0, _ => []
  | n + 1, lists => (.itemClose, lists) :: (.listClose, lists) :: closings n lists.tail

/-- Whether a marker opens a list inside of those that it leaves open: there is room for it, and
the innermost is indented less. -/
def opensInside (indent : Nat) (left : List OpenList) : Bool :=
  left.length < OpenLists.maxDepth && left.head?.all fun o => o.indent < indent

/-- The lists after a marker, by those that it leaves open: a list is opened inside of them, or the
next item of the innermost is counted. -/
def placed (style : ListStyle) (number indent : Nat) (left : List OpenList) : List OpenList :=
  if opensInside indent left then ⟨style, number, indent⟩ :: left
  else left.modifyHead OpenList.countItem

/-- What is told then. -/
def toldPlaced (style : ListStyle) (number indent : Nat) (left : List OpenList) : List Told :=
  let after := placed style number indent left
  if opensInside indent left then [(.listOpen style, after), (.itemOpen, after)]
  else [(.itemClose, left), (.itemOpen, after)]

theorem Ascending.placed {left : List OpenList} (h : Ascending left) {style : ListStyle}
    {number indent : Nat} (hroot : left = [] → indent = 0) :
    Ascending (placed style number indent left) := by
  unfold Roffdown.placed
  split
  · rename_i ho
    simp only [opensInside, Bool.and_eq_true, Option.all_eq_true, decide_eq_true_eq] at ho
    exact h.cons hroot ho.2
  · exact h.countItem

namespace State

variable {mk : Markup} {s : State} {m : Move} {inner left : List OpenList}

theorem told_closeMany (n : Nat) (s : State) :
    (s.closeMany n).told mk = closings n s.lists.lists := by
  induction n generalizing s with
  | zero => rfl
  | succ n ih =>
    rw [closeMany, Move.told_andThen, ih, closeInnermost, Move.told_andThen, told_announce]
    rfl

theorem told_nextItem_of_not {style : ListStyle} {number indent : Nat}
    (ho : ¬ opensInside indent s.lists.lists) :
    s.nextItem.told mk = toldPlaced style number indent s.lists.lists ∧
      s.nextItem.next.lists.lists = placed style number indent s.lists.lists := by
  rw [nextItem, Move.told_andThen, told_announce, told_announce, toldPlaced, placed, if_neg ho,
    if_neg ho]
  exact ⟨rfl, rfl⟩

/-- The item that a marker begins when no list is indented further. -/
theorem told_place (mk : Markup) (marker : Marker) (indent : Nat) (s : State) :
    let n := if s.lists.innermost?.all fun o => o.indent < indent then
        (s.lists.opened? ⟨marker.style, marker.number, indent⟩).elim
          ((s.warn .tooDeep).andThen nextItem)
          fun lists => { s with lists := lists }.announce [.listOpen marker.style, .itemOpen]
      else s.nextItem
    n.told mk = toldPlaced marker.style marker.number indent s.lists.lists ∧
      n.next.lists.lists = placed marker.style marker.number indent s.lists.lists := by
  intro n
  by_cases hless : s.lists.innermost?.all fun o => o.indent < indent
  · cases hopened : s.lists.opened? ⟨marker.style, marker.number, indent⟩ with
    | some lists =>
      have hlists := OpenLists.opened?_eq_some_iff.1 hopened
      have hroom : s.lists.lists.length < OpenLists.maxDepth := by
        have := lists.length_le
        rwa [hlists] at this
      have ho : opensInside indent s.lists.lists :=
        Bool.and_eq_true_iff.2 ⟨decide_eq_true hroom, hless⟩
      have hn : n = announce [.listOpen marker.style, .itemOpen] { s with lists := lists } := by
        simp only [n, if_pos hless, hopened, Option.elim_some]
      rw [hn, told_announce, toldPlaced, placed, if_pos ho, if_pos ho, ← hlists]
      exact ⟨rfl, rfl⟩
    | none =>
      have hfull := of_decide_eq_true (OpenLists.opened?_eq_none_iff.1 hopened)
      have ho : ¬ opensInside indent s.lists.lists := by
        intro ho
        have hroom := of_decide_eq_true (Bool.and_eq_true_iff.1 ho).1
        exact absurd hfull (Nat.not_le.2 hroom)
      have hn : n = (s.warn .tooDeep).andThen nextItem := by
        simp only [n, if_pos hless, hopened, Option.elim_none]
      rw [hn]
      exact told_nextItem_of_not ho
  · have hn : n = s.nextItem := if_neg hless
    rw [hn]
    exact told_nextItem_of_not fun ho => hless (Bool.and_eq_true_iff.1 ho).2

/-- **What a marker tells, and the lists that it leaves**, when it divides the open lists. -/
theorem told_placeItem (mk : Markup) (marker : Marker) {indent : Nat}
    (hl : s.lists.lists = inner ++ left) (hinner : ∀ o ∈ inner, indent < o.indent)
    (hleft : ∀ o ∈ left, o.indent ≤ indent) (hnil : left = [] → inner = []) :
    (s.placeItem marker indent).told mk = closings inner.length s.lists.lists ++
        toldPlaced marker.style marker.number indent left ∧
      (s.placeItem marker indent).next.lists.lists =
        placed marker.style marker.number indent left := by
  have hdeeper : s.lists.deeperThan indent = inner.length := by
    cases left with
    | nil =>
      rw [hnil rfl] at hl ⊢
      exact deeperThan_of_head hl nofun
    | cons o left => exact deeperThan_of_inner hl hinner (hleft o List.mem_cons_self)
  have hlists : (s.closeMany inner.length).next.lists.lists = left := by
    rw [lists_closeMany, hl, List.drop_left]
  have hplace := told_place mk marker indent (s.closeMany inner.length).next
  rw [hlists] at hplace
  rw [placeItem_eq, hdeeper, Move.told_andThen, told_closeMany, Move.next_andThen]
  exact ⟨congrArg _ hplace.1, hplace.2⟩

/-! ## Markers that are recognised -/

/-- The state before the marker of an item, of a style and with the number that it shows.  Blanks
may stand before it where a list is open. -/
structure AtMarker (s : State) (blanks : Text) (style : ListStyle) (value : Nat) : Prop where
  inFence : s.inFence = false
  freshLine : s.freshLine = true
  indented : ∀ c ∈ blanks, isIndent c
  nested : s.lists.lists = [] → blanks = []
  marker : ∃ t, s.input.rest = blanks ++ t ∧ StartsItem t style value

/-- The state before a line that is empty, outside of fenced blocks. -/
structure AtBlankLine (s : State) : Prop where
  inFence : s.inFence = false
  freshLine : s.freshLine = true
  newline : ∃ t, s.input.rest = '\n' :: t

end State

theorem Markdown.StartsItem.exists_marker? {t : Text} {style : ListStyle} {value : Nat}
    (h : StartsItem t style value) :
    ∃ width, marker? t = some ⟨style, min value OpenList.maxNumber, width⟩ := by
  cases h with
  | @bullet c d t hc hd =>
    rw [marker?_of_isBullet hc, List.takeWhile_cons_of_pos hd]
    exact ⟨_, rfl⟩
  | number t hne hd => exact ⟨_, marker?_of_digits hne hd t⟩

theorem Markdown.StartsItem.exists_cons {t : Text} {style : ListStyle} {value : Nat}
    (h : StartsItem t style value) : ∃ c u, t = c :: u ∧ isIndent c = false := by
  cases h with
  | @bullet c d t hc hd => exact ⟨c, d :: t, rfl, not_isIndent_of_isBullet hc⟩
  | @number digits t hne hd =>
    obtain ⟨c, digits, rfl⟩ := List.exists_cons_of_ne_nil hne
    exact ⟨c, digits ++ '.' :: t, rfl, not_isIndent_of_isDigit (hd c List.mem_cons_self)⟩

namespace State

variable {s : State} {m : Move} {blanks : Text} {style : ListStyle} {value : Nat}

theorem AtMarker.recognises (h : s.AtMarker blanks style value) :
    ∃ width w, s.Recognises ((s.past w).release.andThen
      (placeItem ⟨style, min value OpenList.maxNumber, width⟩ (indentWidth blanks))) := by
  obtain ⟨t, hr, hstarts⟩ := h.marker
  obtain ⟨width, hmarker⟩ := hstarts.exists_marker?
  refine ⟨width, blanks.length + width, h.inFence, h.freshLine, ?_⟩
  rw [item?_of_blanks (s := s.midLine) hr h.indented hstarts.exists_cons, hmarker]
  · rfl
  · intro he
    exact h.nested (List.isEmpty_iff.1 he)

theorem Recognises.atMarker (h : s.Recognises m) :
    ∃ blanks style value, s.AtMarker blanks style value := by
  obtain ⟨blanks, t, marker, hr, hb, hm, -⟩ := exists_marker_of_item? h.item
  obtain ⟨value, hstarts, -⟩ := startsItem_of_marker? hm
  refine ⟨blanks, marker.style, value, h.inFence, h.freshLine, hb, ?_, t, hr, hstarts⟩
  intro hl
  exact blanks_eq_nil_of_item? (s := s.midLine) h.item hr hb (List.isEmpty_iff.2 hl)

/-- **A marker closes the lists indented further**, raises what waits before that, and then opens a
list or begins the next item. -/
theorem AtMarker.exists_step (h : s.AtMarker blanks style value) (ha : Ascending s.lists.lists)
    (mk : Markup) :
    let deeper := s.lists.lists.countP fun o => indentWidth blanks < o.indent
    let left := s.lists.lists.drop deeper
    let number := min value OpenList.maxNumber
    ∃ n, s.step = .ok n ∧
      n.told mk = toldText (expand mk s.buffer.all) s.lists.lists ++
        closings deeper s.lists.lists ++ toldPlaced style number (indentWidth blanks) left ∧
      n.next.lists.lists = placed style number (indentWidth blanks) left := by
  intro deeper left number
  obtain ⟨htake, hdrop, hnil⟩ := ha.divided (indentWidth blanks)
  have hsplit : s.lists.lists = s.lists.lists.take deeper ++ left :=
    (List.take_append_drop _ _).symm
  have hlength : (s.lists.lists.take deeper).length = deeper :=
    List.length_take_of_le List.countP_le_length
  have hempty : left = [] → s.lists.lists.take deeper = [] := by
    intro hl
    rw [hnil hl, List.take_nil]
  obtain ⟨width, w, hrec⟩ := h.recognises
  have hlists : (s.past w).release.next.lists.lists = s.lists.lists.take deeper ++ left := by
    rw [next_release]
    exact hsplit
  obtain ⟨htold, hnext⟩ := told_placeItem mk ⟨style, number, width⟩ hlists htake hdrop hempty
  refine ⟨_, hrec.step, ?_, ?_⟩
  · rw [Move.told_andThen, htold, told_release_past, told_release rfl, hlength, next_release,
      List.append_assoc]
    rfl
  · rw [Move.next_andThen, hnext]

/-! ## The steps that change the lists -/

theorem lists_of_textRule (h : TextRule s m) : m.next.lists = s.lists := by
  cases h with
  | underline => rw [underlined, Move.next_andThen, next_raise, next_release]
  | join => rfl
  | push => rfl
  | link => rw [Move.next_andThen, next_announce, next_release]

theorem lists_paragraphBreak (s : State) : s.paragraphBreak.next.lists = s.lists.closed := by
  rw [paragraphBreak, Move.next_andThen, Move.next_andThen, next_announce, next_release]
  split
  · rename_i he
    refine OpenLists.ext ?_
    show s.lists.lists = s.lists.lists.tail
    rw [List.isEmpty_iff.1 he]
    rfl
  · rfl

/-- Where a line begins with what could be a marker, it is one, or the line is running text. -/
theorem recognises_or_lists_eq {t : Text} {marker : Marker} (hs : s.input.rest ≠ [])
    (hf : s.inFence = false) (hl : s.freshLine = true) (hr : s.input.rest = blanks ++ t)
    (hb : ∀ c ∈ blanks, isIndent c) (hm : marker? t = some marker) (h : s.step = .ok m) :
    s.Recognises m ∨ m.next.lists = s.lists := by
  obtain ⟨c, u, hc, hlead⟩ := exists_lead_of_marker? hr hb hm
  have hback : s.input.next? ≠ some '\\' := by
    rw [Zipper.next?, hc]
    intro hback
    exact ne_of_isLead hlead (by decide) (Option.some.inj hback)
  rw [step_eq, if_neg (by rw [hf]; exact Bool.false_ne_true), if_neg hback, if_pos hl,
    blockRule?_of_isLead (s := s.midLine) hc hlead] at h
  cases hi : s.midLine.item? with
  | some n =>
    rw [hi] at h
    obtain rfl : n = m := Except.ok.inj h
    exact .inl ⟨hf, hl, hi⟩
  | none =>
    rw [hi] at h
    exact .inr (lists_of_textRule (s := s.midLine) (textRule_of_textRule (s := s.midLine) h hs))

/-- **The steps that change the open lists** are those of a marker and of a blank line. -/
theorem lists_of_step (hs : s.input.rest ≠ []) (h : s.step = .ok m) :
    m.next.lists = s.lists ∨ s.Recognises m ∨ s.AtBlankLine ∧ m.next.lists = s.lists.closed := by
  cases rule_of_step hs h with
  | fencedLine =>
    left
    by_cases hfence : s.input.startsWith fence
    · rw [fencedLine_of_fence hfence]
      rfl
    · rw [fencedLine_of_not_fence hfence]
      rfl
  | backslash => exact .inl rfl
  | text _ hm => exact .inl (lists_of_textRule (s := s.midLine) hm)
  | block hf hl hm =>
    cases hm with
    | paragraphBreak hr => exact .inr (.inr ⟨⟨hf, hl, _, hr⟩, lists_paragraphBreak s.midLine⟩)
    | hashRule => exact .inl (by rw [hashRule, Move.next_andThen, next_announce, next_release]; rfl)
    | openFence =>
      exact .inl (by rw [openFence, Move.next_andThen, next_announce, next_release]; rfl)
    | item hr hb hmarker =>
      rcases recognises_or_lists_eq hs hf hl hr hb hmarker h with hrec | hlists
      · exact .inr (.inl hrec)
      · exact .inl hlists

theorem ascending_of_step (ha : Ascending s.lists.lists) (hs : s.input.rest ≠ [])
    (h : s.step = .ok m) : Ascending m.next.lists.lists := by
  rcases lists_of_step hs h with hl | hrec | ⟨-, hl⟩
  · rwa [hl]
  · obtain ⟨blanks, style, value, hmarker⟩ := hrec.atMarker
    obtain ⟨n, hn, -, hplaced⟩ := hmarker.exists_step ha tagMarkup
    obtain rfl : n = m := Except.ok.inj (hn.symm.trans h)
    rw [hplaced]
    refine (ha.drop _).placed fun hempty => ?_
    rw [hmarker.nested ((ha.divided _).2.2 hempty)]
    rfl
  · rw [hl, OpenLists.lists_closed, ← List.drop_one]
    exact ha.drop 1

/-- **In every state that reading reaches the indents ascend.** -/
theorem Reads.ascending (h : Reads s m) (ha : Ascending s.lists.lists) :
    Ascending m.next.lists.lists := by
  induction h with
  | stop s => exact ha
  | step hs hm _ ih => exact ih (ascending_of_step ha hs hm)

theorem AtBlankLine.exists_step (h : s.AtBlankLine) :
    ∃ n, s.step = .ok n ∧ n.next.lists = s.lists.closed := by
  obtain ⟨t, hr⟩ := h.newline
  exact ⟨_, step_of_newline_of_freshLine h.inFence h.freshLine hr, lists_paragraphBreak s.midLine⟩

theorem lists_wrapUp (s : State) : s.wrapUp.next.lists = .empty := by
  rw [wrapUp, Move.next_andThen, Move.next_andThen]
  refine OpenLists.ext ?_
  rw [lists_closeMany]
  exact List.drop_length

end State

/-- **The indents of markers drive the open lists**, in every state that reading reaches.  The
indents ascend from 0.  A marker first raises what waits, then closes the lists indented further,
and then opens a list or begins the next item of the innermost one that is left.  No other step
changes the lists but that of a blank line, which closes one if any is open, and the end of the
text, where all are closed. -/
theorem indents_drive_lists (mk : Markup) {z : Zipper} {m : Move} (h : Reads (.initial z) m) :
    Ascending m.next.lists.lists ∧
    (∀ blanks style value, m.next.AtMarker blanks style value →
      let deeper := m.next.lists.lists.countP fun o => indentWidth blanks < o.indent
      let left := m.next.lists.lists.drop deeper
      let number := min value OpenList.maxNumber
      ∃ n, m.next.step = .ok n ∧
        n.told mk = toldText (expand mk m.next.buffer.all) m.next.lists.lists ++
          closings deeper m.next.lists.lists ++ toldPlaced style number (indentWidth blanks) left ∧
        n.next.lists.lists = placed style number (indentWidth blanks) left) ∧
    (∀ n, m.next.input.rest ≠ [] → m.next.step = .ok n → n.next.lists ≠ m.next.lists →
      (∃ blanks style value, m.next.AtMarker blanks style value) ∨ m.next.AtBlankLine) ∧
    (m.next.AtBlankLine → ∃ n, m.next.step = .ok n ∧ n.next.lists = m.next.lists.closed) ∧
    m.next.wrapUp.next.lists = .empty := by
  have ha : Ascending m.next.lists.lists := h.ascending ascending_nil
  refine ⟨ha, fun _ _ _ hm => hm.exists_step ha mk, ?_, State.AtBlankLine.exists_step,
    State.lists_wrapUp _⟩
  intro n hs hn hne
  rcases State.lists_of_step hs hn with hl | hrec | ⟨hblank, -⟩
  · exact absurd hl hne
  · exact .inl hrec.atMarker
  · exact .inr hblank

/-- A marker between the indents of two lists closes the inner one and opens another. -/
theorem indents_drive_lists_between :
    let z : Zipper := .start "- a\n    - b\n  7. c".toList
    ∃ m n, Reads (.initial z) m ∧ m.next.AtMarker "  ".toList .numbered 7 ∧ m.next.step = .ok n ∧
      n.told tagMarkup =
        [(.text "b".toList, [⟨.bulleted, 1, 4⟩, ⟨.bulleted, 1, 0⟩]),
          (.itemClose, [⟨.bulleted, 1, 4⟩, ⟨.bulleted, 1, 0⟩]),
          (.listClose, [⟨.bulleted, 1, 4⟩, ⟨.bulleted, 1, 0⟩]),
          (.listOpen .numbered, [⟨.numbered, 7, 2⟩, ⟨.bulleted, 1, 0⟩]),
          (.itemOpen, [⟨.numbered, 7, 2⟩, ⟨.bulleted, 1, 0⟩])] ∧
      n.next.lists.lists = [⟨.numbered, 7, 2⟩, ⟨.bulleted, 1, 0⟩] := by
  intro z
  let m := ((State.initial z).firstSteps 6).get (by decide +kernel)
  have hm : Reads (.initial z) m := State.reads_of_firstSteps (Option.some_get _).symm
  have hmarker : m.next.AtMarker "  ".toList .numbered 7 := by
    refine ⟨by decide +kernel, by decide +kernel, List.all_eq_true.1 rfl, by decide +kernel,
      "7. c".toList, by decide +kernel, ?_⟩
    exact @StartsItem.number ['7'] " c".toList (by decide) (List.all_eq_true.1 rfl)
  obtain ⟨n, hn, htold, hlists⟩ := (indents_drive_lists tagMarkup hm).2.1 _ _ _ hmarker
  exact ⟨m, n, hm, hmarker, hn, htold.trans (by decide +kernel), hlists.trans (by decide +kernel)⟩

end Roffdown
