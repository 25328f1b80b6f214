import Roffdown.Proofs.Nesting
import Roffdown.Proofs.Numbering

/-!
# Lines of list items

A line of a list is blanks, a marker, a space, and a text.  The marker decides what becomes of the
lists that are open; the text waits, and is raised only when the next line or the end of the
document is reached.  So what a line tells is never all told when the line is read, and `Owes` keeps
account of the rest.

* `ListHead.Marks`: what can stand before the text of an item.
* `State.AtItem`: the state between the marker and the text.
* `State.Owes`: the state between two lines, with what is still to be told.
* `State.AtItem.reads_text`: the text of an item, up to the next line.
* `State.Owes.step_next`, `State.Owes.step_open`: a further item, and the first item of a list.
-/

namespace Roffdown

open Markdown Text
open State (Reads)

/-! ## What is told -/

/-- An event, and the lists that are open there. -/
abbrev Told := Event × List OpenList

/-- A text is told unless it is blank. -/
def toldText (text : Text) (lists : List OpenList) : List Told :=
  if collapse text = [] then [] else [(.text (collapse text), lists)]

def Raised.told (r : Raised Event) : Told := (r.item, r.lists.lists)

def Move.told (mk : Markup) (m : Move) : List Told := (Raised.events mk m.raised).map Raised.told

/-! ## What is written -/

/-- What the items of a list have in common: their style, the indent of their markers, and the
number of the first. -/
structure ListHead where
  style : ListStyle
  indent : Nat
  start : Nat

/-- The open list in its item after `k` others. -/
def ListHead.frame (head : ListHead) (k : Nat) : OpenList :=
  head.style.listAt head.start head.indent k

/-- What can stand before the text of the item after `k` others. -/
inductive ListHead.Marks (head : ListHead) (k : Nat) : Text → Prop
  | bullet {blanks : Text} {c : Char} (hb : ∀ c ∈ blanks, isIndent c)
      (hi : indentWidth blanks = head.indent) (hs : head.style = .bulleted) (hc : isBullet c) :
      Marks head k (blanks ++ [c, ' '])
  | number {blanks digits : Text} (hb : ∀ c ∈ blanks, isIndent c)
      (hi : indentWidth blanks = head.indent) (hs : head.style = .numbered) (hne : digits ≠ [])
      (hd : ∀ c ∈ digits, c.isDigit) (hv : k = 0 → toNat 10 digits = head.start) :
      Marks head k (blanks ++ (digits ++ ['.', ' ']))

/-- The characters that mean nothing in running text but themselves. -/
def isPlainChar (c : Char) : Bool :=
  c != '\n' && c != '\\' && c != '*' && c != '_' && c != codeMark && c != '['

/-! ## Markers -/

theorem eq_of_isUnderline {line : Text} (h : isUnderline line) :
    ∃ c t, line = c :: c :: t ∧ (c = '=' ∨ c = '-' ∨ c = '*') := by
  have hp : trimEnd isBlank line <+: line := by
    rw [← List.reverse_suffix, trimEnd, List.reverse_reverse]
    exact List.dropWhile_suffix isBlank
  unfold isUnderline at h
  split at h
  · cases h
  · rename_i c t ht
    rw [ht] at hp
    obtain ⟨blanks, rfl⟩ := hp
    simp only [Bool.and_eq_true, Bool.or_eq_true, beq_iff_eq, decide_eq_true_eq,
      List.all_eq_true, or_assoc] at h
    obtain ⟨⟨hc, hlen⟩, hall⟩ := h
    cases t with
    | nil => contradiction
    | cons d t =>
      obtain rfl := hall d List.mem_cons_self
      exact ⟨d, t ++ blanks, rfl, hc⟩

/-- The characters that a line of a list can begin with. -/
def isLead (c : Char) : Bool := isIndent c || isBullet c || c.isDigit

theorem ne_of_isLead {c d : Char} (hc : isLead c) (hd : isLead d = false) : c ≠ d := by
  rintro rfl
  rw [hc] at hd
  cases hd

theorem eq_nil_of_indentWidth_eq_zero {blanks : Text} (h : indentWidth blanks = 0) :
    blanks = [] := by
  cases blanks with
  | nil => rfl
  | cons c blanks =>
    unfold indentWidth at h
    split at h <;> omega

theorem not_isBullet_of_isDigit {c : Char} (h : c.isDigit) : isBullet c = false := by
  rw [Bool.eq_false_iff]
  intro hb
  simp only [isBullet, Bool.or_eq_true, beq_iff_eq] at hb
  rcases hb with (rfl | rfl) | rfl <;> cases h

theorem not_isIndent_of_isDigit {c : Char} (h : c.isDigit) : isIndent c = false := by
  rw [Bool.eq_false_iff]
  intro hb
  simp only [isIndent, Bool.or_eq_true, beq_iff_eq] at hb
  rcases hb with rfl | rfl <;> cases h

theorem not_isIndent_of_isBullet {c : Char} (h : isBullet c) : isIndent c = false := by
  simp only [isBullet, Bool.or_eq_true, beq_iff_eq] at h
  rcases h with (rfl | rfl) | rfl <;> rfl

theorem marker?_bullet {c : Char} (hc : isBullet c) (t : Text) :
    marker? (c :: ' ' :: t) = some ⟨.bulleted, 1, 2 + (t.takeWhile isIndent).length⟩ := by
  rw [marker?, if_pos hc, List.takeWhile_cons_of_pos rfl]
  simp only [List.length_cons, Option.some.injEq, Marker.mk.injEq, true_and]
  omega

theorem marker?_number {digits : Text} (hne : digits ≠ []) (hd : ∀ c ∈ digits, c.isDigit)
    (t : Text) : marker? (digits ++ '.' :: ' ' :: t) =
      some ⟨.numbered, min (toNat 10 digits) OpenList.maxNumber,
        digits.length + 2 + (t.takeWhile isIndent).length⟩ := by
  obtain ⟨c, u, rfl⟩ := List.exists_cons_of_ne_nil hne
  have hc := not_isBullet_of_isDigit (hd c List.mem_cons_self)
  have ht : (c :: u ++ '.' :: ' ' :: t).takeWhile Char.isDigit = c :: u := by
    rw [List.takeWhile_append_of_pos hd, List.takeWhile_cons_of_neg (by decide), List.append_nil]
  have hr : (c :: u ++ '.' :: ' ' :: t).dropWhile Char.isDigit = '.' :: ' ' :: t := by
    rw [List.dropWhile_append_of_pos hd, List.dropWhile_cons_of_neg (by decide)]
  rw [List.cons_append, marker?, hc, if_neg Bool.false_ne_true, ← List.cons_append, ht, hr]
  show some (Marker.mk _ _ (_ + 1 + ((' ' :: t).takeWhile isIndent).length)) = _
  rw [List.takeWhile_cons_of_pos rfl]
  simp only [List.length_cons, Option.some.injEq, Marker.mk.injEq, true_and]
  omega

namespace ListHead.Marks

variable {head : ListHead} {k : Nat} {mark : Text}

/-- What stands before a text is blanks, and what reading takes for a marker. -/
theorem exists_marker (h : head.Marks k mark) : ∃ (blanks sign : Text) (number : Nat),
    mark = blanks ++ sign ∧ (∀ c ∈ blanks, isIndent c) ∧ indentWidth blanks = head.indent ∧
      (∃ c t, sign = c :: t ∧ isLead c ∧ isIndent c = false) ∧
      (k = 0 → OpenList.mk head.style number head.indent = head.frame 0) ∧
      ∀ t, marker? (sign ++ t) =
        some ⟨head.style, number, sign.length + (t.takeWhile isIndent).length⟩ := by
  cases h with
  | @bullet blanks c hb hi hs hc =>
    refine ⟨blanks, [c, ' '], 1, rfl, hb, hi, ⟨c, [' '], rfl, ?_, ?_⟩, ?_, ?_⟩
    · simp [isLead, hc]
    · exact not_isIndent_of_isBullet hc
    · intro _
      rw [frame, ListStyle.listAt, hs]
      rfl
    · intro t
      rw [hs]
      exact marker?_bullet hc t
  | @number blanks digits hb hi hs hne hd hv =>
    obtain ⟨c, t, rfl⟩ := List.exists_cons_of_ne_nil hne
    have hc := hd c List.mem_cons_self
    refine ⟨blanks, c :: t ++ ['.', ' '], min (toNat 10 (c :: t)) OpenList.maxNumber, rfl, hb, hi,
      ⟨c, t ++ ['.', ' '], rfl, ?_, ?_⟩, ?_, ?_⟩
    · simp [isLead, hc]
    · exact not_isIndent_of_isDigit hc
    · intro hk
      rw [frame, ListStyle.listAt, hs, ← hv hk]
      rfl
    · intro u
      rw [hs]
      simpa using marker?_number hne hd u

theorem exists_lead (h : head.Marks k mark) : ∃ c t, mark = c :: t ∧ isLead c := by
  obtain ⟨blanks, sign, -, rfl, hb, -, ⟨c, t, rfl, hc, -⟩, -⟩ := h.exists_marker
  cases blanks with
  | nil => exact ⟨c, t, rfl, hc⟩
  | cons b blanks =>
    have hlead : isLead b := by simp [isLead, hb b List.mem_cons_self]
    exact ⟨b, blanks ++ c :: t, rfl, hlead⟩

theorem append_ne_nil (h : head.Marks k mark) (t : Text) : mark ++ t ≠ [] := by
  obtain ⟨c, u, rfl, -⟩ := h.exists_lead
  exact List.cons_ne_nil c (u ++ t)

/-- A line of a list does not underline the line above it. -/
theorem not_isUnderline (h : head.Marks k mark) (t : Text) :
    ¬ isUnderline (firstLine (mark ++ t)) := by
  intro hu
  obtain ⟨d, u, hline, hd⟩ := eq_of_isUnderline hu
  have hp : firstLine (mark ++ t) <+: mark ++ t := List.takeWhile_prefix _
  rw [hline] at hp
  obtain ⟨v, hv⟩ := hp
  have hnot : isIndent d = false ∧ d.isDigit = false := by
    rcases hd with rfl | rfl | rfl <;> decide
  cases h with
  | @bullet blanks c hb _ _ hc =>
    cases blanks with
    | nil =>
      obtain ⟨-, hspace, -⟩ : d = c ∧ d = ' ' ∧ _ := by simpa using hv
      subst hspace
      cases hnot.1
    | cons b blanks =>
      have hbd : d = b := (List.cons.inj hv).1
      rw [hbd, hb b List.mem_cons_self] at hnot
      cases hnot.1
  | @number blanks digits hb _ _ hne hd _ =>
    cases blanks with
    | nil =>
      obtain ⟨c, digits, rfl⟩ := List.exists_cons_of_ne_nil hne
      have hcd : d = c := (List.cons.inj hv).1
      rw [hcd, hd c List.mem_cons_self] at hnot
      cases hnot.2
    | cons b blanks =>
      have hbd : d = b := (List.cons.inj hv).1
      rw [hbd, hb b List.mem_cons_self] at hnot
      cases hnot.1

end ListHead.Marks

/-! ## Running text -/

theorem collapseAfter_append_space (p : Char) (blank : Bool) (t : Text) :
    collapseAfter p blank (t ++ [' ']) = collapseAfter p blank t := by
  induction t generalizing p blank with
  | nil => rfl
  | cons c t ih =>
    simp only [List.cons_append, collapseAfter]
    split
    · exact ih p true
    · rw [ih c false]

theorem collapse_append_space (t : Text) : collapse (t ++ [' ']) = collapse t := by
  induction t with
  | nil => rfl
  | cons c t ih =>
    simp only [List.cons_append, collapse]
    rw [ih, collapseAfter_append_space]

theorem collapse_dropWhile_isIndent (t : Text) : collapse (t.dropWhile isIndent) = collapse t := by
  induction t with
  | nil => rfl
  | cons c t ih =>
    by_cases hc : isIndent c
    · rw [List.dropWhile_cons_of_pos hc, ih, collapse_cons_of_blank (isBlank_of_isIndent hc)]
    · rw [List.dropWhile_cons_of_neg hc]

namespace Move

variable (mk : Markup)

@[simp] theorem told_silent (s : State) : (silent s).told mk = [] := rfl

@[simp] theorem told_andThen (m : Move) (f : State → Move) :
    (m.andThen f).told mk = m.told mk ++ (f m.next).told mk := by
  simp [told]

end Move

namespace State

variable {mk : Markup} {s : State} {inner outer lists : List OpenList} {t u : Text}

theorem told_announce (events : List Event) :
    (s.announce events).told mk = events.map fun e => (e, s.lists.lists) := by
  simp [Move.told, Raised.told]

theorem told_release {text : Text} (h : collapse (expand mk s.buffer.all) = collapse text) :
    s.release.told mk = toldText text s.lists.lists := by
  rw [Move.told, Raised.events_release, Raised.events_singleton, Signal.event?_text, h, toldText]
  split <;> rfl

/-- Plain characters stand for themselves. -/
theorem step_of_isPlainChar {c : Char} (hf : s.inFence = false) (hl : s.freshLine = false)
    (hr : s.input.rest = c :: t) (hc : isPlainChar c) (ht : t.head? ≠ some '[') :
    s.step = .ok (s.literal c) := by
  simp only [isPlainChar, Bool.and_eq_true, bne_iff_ne] at hc
  obtain ⟨⟨⟨⟨⟨hnewline, hback⟩, hstar⟩, hunder⟩, hcode⟩, hbracket⟩ := hc
  unfold step textRule
  simp [hf, hl, hr, Zipper.next?, hnewline, hback, hstar, hunder, hcode, hbracket, ht]

/-- Plain characters are put with those that wait, whatever stands after them. -/
theorem reads_plain_append (hf : s.inFence = false) (hl : s.freshLine = false)
    (hr : s.input.rest = t ++ u) (ht : ∀ c ∈ t, isPlainChar c) (hu : u.head? ≠ some '[') :
    ∃ m, Reads s m ∧ m.raised = [] ∧ m.next = { s with
      input := s.input.advance t.length, buffer := s.buffer.push (t.map .char) } := by
  induction t generalizing s with
  | nil =>
    refine ⟨.silent s, .stop s, rfl, ?_⟩
    rw [List.length_nil, Zipper.advance_zero]
    rfl
  | cons c t ih =>
    obtain ⟨hc, ht⟩ := List.forall_mem_cons.1 ht
    have hhead : (t ++ u).head? ≠ some '[' := by
      cases t with
      | nil => exact hu
      | cons d t =>
        intro h
        obtain rfl := Option.some.inj h
        exact absurd (ht _ List.mem_cons_self) (by decide)
    have hstep := step_of_isPlainChar hf hl hr hc hhead
    have hrest : (s.literal c).next.input.rest = t ++ u := by
      show s.input.rest.drop 1 = _
      rw [hr]
      rfl
    obtain ⟨m, hm, hraised, hnext⟩ := ih (s := (s.literal c).next) hf hl hrest ht
    have hne : s.input.rest ≠ [] := by
      rw [hr]
      exact List.cons_ne_nil _ _
    refine ⟨_, .step hne hstep hm, ?_, ?_⟩
    · rw [Move.raised_andThen, hraised]
      rfl
    · rw [Move.next_andThen, hnext]
      simp [literal, push, Buffer.push, Zipper.advance_advance, Nat.add_comm]

theorem reads_plain (mk : Markup) (hf : s.inFence = false) (hl : s.freshLine = false)
    (hr : s.input.rest = t ++ '\n' :: u) (ht : ∀ c ∈ t, isPlainChar c) :
    ∃ m, Reads s m ∧ m.told mk = [] ∧ m.next = { s with
      input := s.input.advance t.length, buffer := s.buffer.push (t.map .char) } := by
  obtain ⟨m, hm, hraised, hnext⟩ := reads_plain_append hf hl hr ht (by simp)
  refine ⟨m, hm, ?_, hnext⟩
  rw [Move.told, hraised]
  rfl

/-! ## Items -/

/-- The state after the marker of an item, in some open lists; blanks after the marker are read
with it. -/
structure AtItem (s : State) (lists : List OpenList) (t : Text) : Prop where
  inFence : s.inFence = false
  freshLine : s.freshLine = false
  buffer : s.buffer.all = []
  lists : s.lists.lists = lists
  rest : s.input.rest = t.dropWhile isIndent

/-- The state before a line, where some of the open lists can still be closed: to close them tells
`owed`, with the text that waits. -/
structure Owes (mk : Markup) (s : State) (inner outer : List OpenList) (owed : List Told)
    (t : Text) : Prop where
  inFence : s.inFence = false
  freshLine : s.freshLine = true
  lists : s.lists.lists = inner ++ outer
  rest : s.input.rest = t
  told : (s.release.andThen (closeMany inner.length)).told mk = owed

theorem lineBelow?_of_newline {z : Zipper} (h : z.rest = '\n' :: u) :
    z.lineBelow? = some (firstLine u) := by
  rw [Zipper.lineBelow?, h]
  rfl

theorem step_of_newline_of_midLine (hf : s.inFence = false) (hl : s.freshLine = false)
    (hr : s.input.rest = '\n' :: u) : s.step = .ok s.lineEnd := by
  rw [step_eq_textRule hr (by decide) hf (by rw [hl]; exact nofun), midLine_eq_self hl, textRule,
    hr]
  rfl

theorem step_of_newline (hf : s.inFence = false) (hl : s.freshLine = false)
    (hr : s.input.rest = '\n' :: u) (hu : ¬ isUnderline (firstLine u)) :
    s.step = .ok (.silent { s with
      input := s.input.advance 1, freshLine := true,
      buffer := (s.buffer.push [.char ' ']).markLine }) := by
  have hb : ¬ s.input.lineBelow?.any isUnderline := by
    rw [lineBelow?_of_newline hr]
    exact hu
  rw [step_of_newline_of_midLine hf hl hr, lineEnd_of_not_underline hb]

/-- The text of an item waits when its line is read. -/
theorem AtItem.reads_text (mk : Markup) {text : Text} (h : s.AtItem lists (text ++ '\n' :: u))
    (ht : ∀ c ∈ text, isPlainChar c) (hu : ¬ isUnderline (firstLine u)) :
    ∃ m, Reads s m ∧ m.told mk = [] ∧ m.next.Owes mk [] lists (toldText text lists) u := by
  have hrest : s.input.rest = text.dropWhile isIndent ++ '\n' :: u := by
    rw [h.rest, List.dropWhile_append]
    split
    · rename_i he
      rw [List.isEmpty_iff.1 he]
      exact List.dropWhile_cons_of_neg (by decide)
    · rfl
  have hplain : ∀ c ∈ text.dropWhile isIndent, isPlainChar c := fun c hc =>
    ht c ((List.dropWhile_suffix _).subset hc)
  obtain ⟨m, hm, htold, hnext⟩ := reads_plain mk h.inFence h.freshLine hrest hplain
  have hr : m.next.input.rest = '\n' :: u := by
    rw [hnext]
    show s.input.rest.drop _ = _
    rw [hrest, List.drop_left]
  have hbuffer : m.next.buffer.all = (text.dropWhile isIndent).map .char := by
    rw [hnext, Buffer.all_push, h.buffer, List.nil_append]
  have hfence : m.next.inFence = false := by rw [hnext, h.inFence]
  have hfresh : m.next.freshLine = false := by rw [hnext, h.freshLine]
  have hlists : m.next.lists.lists = lists := by rw [hnext, h.lists]
  have hne : m.next.input.rest ≠ [] := by
    rw [hr]
    exact List.cons_ne_nil _ _
  refine ⟨_, hm.snoc hne (step_of_newline hfence hfresh hr hu), ?_, hfence, rfl, hlists, ?_, ?_⟩
  · rw [Move.told_andThen, htold]
    rfl
  · show m.next.input.rest.drop 1 = u
    rw [hr]
    rfl
  · rw [Move.told_andThen]
    refine (List.append_nil _).trans ?_
    rw [← hlists]
    refine told_release ?_
    show collapse (expand mk ((m.next.buffer.push [.char ' ']).markLine).all) = _
    rw [Buffer.all_markLine, Buffer.all_push, hbuffer, expand_append, expand_chars]
    exact (collapse_append_space _).trans (collapse_dropWhile_isIndent text)

/-! ## Placing an item -/

theorem deeperThan_of_head {l : OpenLists} {indent : Nat} (hl : l.lists = outer)
    (ho : ∀ o ∈ outer.head?, o.indent ≤ indent) : l.deeperThan indent = 0 := by
  rw [OpenLists.deeperThan, hl, List.length_eq_zero_iff]
  match outer with
  | [] => rfl
  | [o] => rfl
  | o :: p :: outer =>
    have hle := ho o rfl
    exact List.takeWhile_cons_of_neg (by simp; omega)

theorem deeperThan_of_inner {l : OpenLists} {indent : Nat} {o : OpenList}
    (hl : l.lists = inner ++ o :: outer) (hi : ∀ i ∈ inner, indent < i.indent)
    (ho : o.indent ≤ indent) : l.deeperThan indent = inner.length := by
  have hinner : ∀ i ∈ inner, decide (indent < i.indent) = true := by simpa using hi
  have hrest : ((o :: outer).dropLast.takeWhile fun i => decide (indent < i.indent)) = [] := by
    cases outer with
    | nil => rfl
    | cons p outer => exact List.takeWhile_cons_of_neg (by simp; omega)
  rw [OpenLists.deeperThan, hl, List.dropLast_append_of_ne_nil (List.cons_ne_nil _ _),
    List.takeWhile_append_of_pos hinner, hrest, List.append_nil]

theorem told_nextItem {o : OpenList} (hl : s.lists.lists = o :: outer) :
    s.nextItem.told mk = [(.itemClose, o :: outer), (.itemOpen, o.countItem :: outer)] := by
  rw [nextItem, Move.told_andThen, told_announce, told_announce]
  simp [hl]

/-- A marker at the indent of an open list closes the lists inside of it and begins its next
item. -/
theorem placeItem_of_inner (mk : Markup) (marker : Marker) {indent : Nat} {o : OpenList}
    (hl : s.lists.lists = inner ++ o :: outer) (hi : ∀ i ∈ inner, indent < i.indent)
    (ho : o.indent = indent) :
    (s.placeItem marker indent).told mk = (s.closeMany inner.length).told mk ++
        [(.itemClose, o :: outer), (.itemOpen, o.countItem :: outer)] ∧
      (s.placeItem marker indent).next.lists.lists = o.countItem :: outer := by
  have hd := deeperThan_of_inner hl hi (Nat.le_of_eq ho)
  have hleft : (s.closeMany inner.length).next.lists.lists = o :: outer := by
    rw [lists_closeMany, hl, List.drop_left]
  have hno : ¬ (s.closeMany inner.length).next.lists.innermost?.all fun l => l.indent < indent := by
    simp [OpenLists.innermost?, hleft, ho]
  unfold placeItem
  rw [hd, Move.told_andThen, Move.next_andThen, if_neg hno, told_nextItem hleft]
  refine ⟨rfl, ?_⟩
  show (OpenLists.countItem _).lists = _
  rw [OpenLists.lists_countItem, next_announce, hleft]
  rfl

/-- A marker indented further than all lists opens one. -/
theorem placeItem_of_deeper (mk : Markup) (marker : Marker) {indent : Nat}
    (hl : s.lists.lists = outer) (ho : ∀ o ∈ outer.head?, o.indent < indent)
    (hd : outer.length < OpenLists.maxDepth) :
    (s.placeItem marker indent).told mk =
        [(.listOpen marker.style, ⟨marker.style, marker.number, indent⟩ :: outer),
          (.itemOpen, ⟨marker.style, marker.number, indent⟩ :: outer)] ∧
      (s.placeItem marker indent).next.lists.lists =
        ⟨marker.style, marker.number, indent⟩ :: outer := by
  have hzero := deeperThan_of_head hl fun o h => Nat.le_of_lt (ho o h)
  have hyes : s.lists.innermost?.all fun l => l.indent < indent := by
    rw [OpenLists.innermost?, hl]
    cases outer with
    | nil => rfl
    | cons o outer => exact decide_eq_true (ho o rfl)
  have hopened : s.lists.opened? ⟨marker.style, marker.number, indent⟩ =
      some ⟨⟨marker.style, marker.number, indent⟩ :: s.lists.lists, by rw [hl]; exact hd⟩ :=
    OpenLists.opened?_eq_some_iff.2 rfl
  unfold placeItem
  rw [hzero, closeMany, Move.silent_andThen, if_pos hyes, hopened, told_announce]
  simp [hl]

/-! ## The line of an item -/

theorem raised_closeMany_congr {t : State} (n : Nat) (h : s.lists = t.lists) :
    (s.closeMany n).raised = (t.closeMany n).raised := by
  rw [(onLists_closeMany n).frame s t h]

theorem blockRule?_of_isLead {c : Char} (hr : s.input.rest = c :: t) (hc : isLead c) :
    s.blockRule? = s.item? :=
  blockRule?_eq_item? hr (ne_of_isLead hc (by decide)) (ne_of_isLead hc (by decide))
    (ne_of_isLead hc (by decide))

/-- The state after so many characters of the beginning of a line. -/
def past (w : Nat) (s : State) : State := { s.midLine with input := s.input.advance w }

theorem step_of_blockRule? {m : Move} (hf : s.inFence = false) (hl : s.freshLine = true)
    (hn : s.input.next? ≠ some '\\') (h : s.midLine.blockRule? = some m) : s.step = .ok m := by
  rw [step_eq, if_neg (by rw [hf]; exact Bool.false_ne_true), if_neg hn, if_pos hl, h]
  rfl

/-- What a marker at the beginning of a line does. -/
theorem step_of_marks {head : ListHead} {k : Nat} {mark : Text} (hf : s.inFence = false)
    (hl : s.freshLine = true) (hr : s.input.rest = mark ++ t) (hm : head.Marks k mark)
    (hroot : s.lists.isEmpty → head.indent = 0) :
    ∃ (number width w : Nat), (k = 0 → OpenList.mk head.style number head.indent = head.frame 0) ∧
      s.step = .ok ((s.past w).release.andThen
        (placeItem ⟨head.style, number, width⟩ head.indent)) ∧
      (s.past w).input.rest = t.dropWhile isIndent := by
  obtain ⟨d, v, hmark, hd⟩ := hm.exists_lead
  obtain ⟨blanks, sign, number, hsplit, hb, hi, ⟨c, u, hsign, -, hindent⟩, hk, hmarker⟩ :=
    hm.exists_marker
  have hrest : s.midLine.input.rest = blanks ++ (sign ++ t) := by
    show s.input.rest = _
    rw [hr, hsplit, List.append_assoc]
  have hblanks : (if s.midLine.lists.isEmpty then [] else
      s.midLine.input.rest.takeWhile isIndent) = blanks := by
    split
    · rename_i he
      rw [hroot he] at hi
      exact (eq_nil_of_indentWidth_eq_zero hi).symm
    · rw [hrest, List.takeWhile_append_of_pos hb, hsign, List.cons_append,
        List.takeWhile_cons_of_neg (by simp [hindent]), List.append_nil]
  have hitem := item?_eq hblanks
  rw [hrest, List.drop_left, hmarker t, hi, Option.map_some] at hitem
  have hlead : s.midLine.input.rest = d :: (v ++ t) := by
    show s.input.rest = _
    rw [hr, hmark, List.cons_append]
  have hback : s.input.next? ≠ some '\\' := by
    rw [Zipper.next?, show s.input.rest = _ from hlead]
    intro h
    exact ne_of_isLead hd (by decide) (Option.some.inj h)
  refine ⟨number, sign.length + (t.takeWhile isIndent).length,
    blanks.length + (sign.length + (t.takeWhile isIndent).length), hk,
    step_of_blockRule? hf hl hback ?_, ?_⟩
  · rw [blockRule?_of_isLead hlead hd, hitem]
    rfl
  · show s.midLine.input.rest.drop (blanks.length + (sign.length + _)) = _
    rw [hrest, ← List.drop_drop, List.drop_left, ← List.drop_drop, List.drop_left,
      drop_length_takeWhile]

theorem told_release_past (w : Nat) : (s.past w).release.told mk = s.release.told mk := by
  rw [Move.told, Move.told, Raised.events_release, Raised.events_release]
  rfl

theorem told_closeMany_past (w n : Nat) :
    ((s.past w).release.next.closeMany n).told mk = (s.release.next.closeMany n).told mk := by
  rw [Move.told, Move.told, raised_closeMany_congr n]
  rw [next_release, next_release]
  rfl

theorem atItem_of_placeItem {marker : Marker} {indent w : Nat} (hf : s.inFence = false)
    (hr : (s.past w).input.rest = t.dropWhile isIndent)
    (hl : ((s.past w).release.next.placeItem marker indent).next.lists.lists = lists) :
    ((s.past w).release.next.placeItem marker indent).next.AtItem lists t := by
  have hnext := (onLists_placeItem marker indent).next_eq (s.past w).release.next
  rw [next_release] at hnext hl ⊢
  constructor
  · rw [hnext]
    exact hf
  · rw [hnext]
    rfl
  · rw [hnext]
    rfl
  · exact hl
  · rw [hnext]
    exact hr

variable {head : ListHead} {k : Nat} {es : List Told} {mark : Text}

/-- The marker of a further item of a list that is open. -/
theorem Owes.step_next (h : s.Owes mk inner (head.frame k :: outer) es (mark ++ t))
    (hi : ∀ i ∈ inner, head.indent < i.indent) (hm : head.Marks (k + 1) mark) :
    ∃ m, s.input.rest ≠ [] ∧ s.step = .ok m ∧
      m.told mk = es ++ [(.itemClose, head.frame k :: outer),
        (.itemOpen, head.frame (k + 1) :: outer)] ∧
      m.next.AtItem (head.frame (k + 1) :: outer) t := by
  have hroot : s.lists.isEmpty → head.indent = 0 := by
    intro he
    rw [OpenLists.isEmpty, h.lists] at he
    cases inner <;> cases he
  obtain ⟨number, width, w, -, hstep, hrest⟩ :=
    step_of_marks h.inFence h.freshLine h.rest hm hroot
  have hlists : (s.past w).release.next.lists.lists = inner ++ head.frame k :: outer := by
    rw [next_release]
    exact h.lists
  obtain ⟨htold, hnext⟩ := placeItem_of_inner mk ⟨head.style, number, width⟩ hlists hi rfl
  have hcount : (head.frame k).countItem = head.frame (k + 1) := countItem_listAt _ _ _ _
  rw [hcount] at htold hnext
  refine ⟨_, ?_, hstep, ?_, ?_⟩
  · rw [h.rest]
    exact hm.append_ne_nil t
  · rw [Move.told_andThen, htold, told_release_past, told_closeMany_past, ← List.append_assoc,
      ← h.told, Move.told_andThen]
  · rw [Move.next_andThen]
    exact atItem_of_placeItem h.inFence hrest hnext

/-- The marker of the first item of a list. -/
theorem Owes.step_open (h : s.Owes mk [] outer es (mark ++ t))
    (ho : ∀ o ∈ outer.head?, o.indent < head.indent) (hroot : outer = [] → head.indent = 0)
    (hd : outer.length < OpenLists.maxDepth) (hm : head.Marks 0 mark) :
    ∃ m, s.input.rest ≠ [] ∧ s.step = .ok m ∧
      m.told mk = es ++ [(.listOpen head.style, head.frame 0 :: outer),
        (.itemOpen, head.frame 0 :: outer)] ∧
      m.next.AtItem (head.frame 0 :: outer) t := by
  have hempty : s.lists.isEmpty → head.indent = 0 := by
    intro he
    rw [OpenLists.isEmpty, h.lists] at he
    exact hroot (List.isEmpty_iff.1 he)
  obtain ⟨number, width, w, hk, hstep, hrest⟩ :=
    step_of_marks h.inFence h.freshLine h.rest hm hempty
  have hlists : (s.past w).release.next.lists.lists = outer := by
    rw [next_release]
    exact h.lists
  obtain ⟨htold, hnext⟩ := placeItem_of_deeper mk ⟨head.style, number, width⟩ hlists ho hd
  simp only [hk rfl] at htold hnext
  refine ⟨_, ?_, hstep, ?_, ?_⟩
  · rw [h.rest]
    exact hm.append_ne_nil t
  · rw [Move.told_andThen, htold, told_release_past, ← h.told, Move.told_andThen]
    exact congrArg (· ++ _) (List.append_nil _).symm
  · rw [Move.next_andThen]
    exact atItem_of_placeItem h.inFence hrest hnext

theorem closeMany_succ (n : Nat) (s : State) :
    s.closeMany (n + 1) = (s.closeMany n).andThen closeInnermost := by
  induction n generalizing s with
  | zero =>
    show s.closeInnermost.andThen Move.silent = _
    rw [Move.andThen_silent]
    rfl
  | succ n ih =>
    show s.closeInnermost.andThen (closeMany (n + 1)) = (s.closeInnermost.andThen _).andThen _
    rw [Move.andThen_assoc, funext ih]

theorem told_closeInnermost {o : OpenList} (hl : s.lists.lists = o :: outer) :
    s.closeInnermost.told mk = [(.itemClose, o :: outer), (.listClose, o :: outer)] := by
  rw [closeInnermost, Move.told_andThen, told_announce, hl]
  rfl

/-- The list around the inner ones can be closed after them. -/
theorem Owes.close {o : OpenList} (h : s.Owes mk inner (o :: outer) es t) :
    s.Owes mk (inner ++ [o]) outer
      (es ++ [(.itemClose, o :: outer), (.listClose, o :: outer)]) t := by
  have hleft : (s.release.next.closeMany inner.length).next.lists.lists = o :: outer := by
    rw [lists_closeMany, next_release, show s.lists.lists = _ from h.lists, List.drop_left]
  refine ⟨h.inFence, h.freshLine, ?_, h.rest, ?_⟩
  · rw [h.lists, List.append_assoc]
    rfl
  · rw [List.length_append, List.length_singleton, Move.told_andThen, closeMany_succ,
      Move.told_andThen, told_closeInnermost hleft, ← List.append_assoc, ← h.told,
      Move.told_andThen]

end State

end Roffdown
