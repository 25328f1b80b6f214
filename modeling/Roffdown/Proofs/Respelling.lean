import Roffdown.Proofs.Lookahead

/-!
# The spelling of markers

A bullet is as good as another, and the number of an item that is not the first of its list is not
looked at.  When a document is read with other markers in their places, every step looks at the same
characters but for those of a marker, and the character before a place, the first line below it and
the mark that closes inline code are the same as well; so both readings go on in lockstep.

* `Exchange`, `State.Respelled`: a text that differs in markers that a reading recognises.
* `Exchange.exists_marker`: what is put for the sign of a marker is a marker.
* `State.Respelled.firstLine_eq_or`: markers aside, the first lines of both texts are the same.
* `State.Parallel`: another place that can be read from; `State.Parallel.exists_step`.
* `Zipper.marker_spelling_is_free`: both readings raise the same and end alike.
-/

namespace Roffdown

open Markdown Text
open State (Reads)

/-! ## Texts that differ in markers -/

/-- No list is opened by a move. -/
def Move.OpensNoList (m : Move) : Prop := ∀ r ∈ m.raised, ∀ style, r.item ≠ .event (.listOpen style)

theorem Move.OpensNoList.of_andThen {m : Move} {f : State → Move}
    (h : (m.andThen f).OpensNoList) : (f m.next).OpensNoList := by
  intro r hr
  exact h r (List.mem_append_right _ hr)

/-- What can stand for the sign of a marker that makes a move: another bullet, and other digits
where the item continues a list that is open, so that no list is opened. -/
inductive Exchange (m : Move) : Text → Text → Prop
  | bullet {c d : Char} (hc : isBullet c) (hd : isBullet d) : Exchange m [c] [d]
  | number {digits others : Text} (hm : m.OpensNoList) (hdigits : ∀ c ∈ digits, c.isDigit)
      (hne : others ≠ []) (hothers : ∀ c ∈ others, c.isDigit) :
      Exchange m (digits ++ ['.']) (others ++ ['.'])

namespace State

/-- A marker is recognised, and makes a move. -/
structure Recognises (s : State) (m : Move) : Prop where
  inFence : s.inFence = false
  freshLine : s.freshLine = true
  item : s.midLine.item? = some m

/-- Texts that differ from what is read from a state in markers alone, and in those alone that the
reading recognises. -/
inductive Respelled : State → Text → Prop
  | same (s : State) : Respelled s s.input.rest
  | copied {s : State} {m : Move} {part t : Text} (hs : s.input.rest ≠ []) (hm : s.step = .ok m)
      (hr : s.input.rest = part ++ m.next.input.rest) (h : Respelled m.next t) :
      Respelled s (part ++ t)
  | marker {s : State} {m : Move} {blanks sign other gap t : Text} (hm : s.Recognises m)
      (hr : s.input.rest = blanks ++ (sign ++ (gap ++ m.next.input.rest)))
      (hb : ∀ c ∈ blanks, isIndent c) (hx : Exchange m sign other) (h : Respelled m.next t) :
      Respelled s (blanks ++ (other ++ (gap ++ t)))

end State

/-! ## Markers -/

section

variable {m : Move} {sign other : Text}

/-- Neither sign begins with a blank. -/
theorem Exchange.exists_cons (h : Exchange m sign other) (t : Text) :
    (∃ c u, sign ++ t = c :: u ∧ isIndent c = false) ∧
      ∃ c u, other ++ t = c :: u ∧ isIndent c = false := by
  have hnumber : ∀ digits : Text, (∀ c ∈ digits, c.isDigit) →
      ∃ c u, digits ++ ['.'] ++ t = c :: u ∧ isIndent c = false := by
    intro digits hdigits
    cases digits with
    | nil => exact ⟨'.', t, rfl, rfl⟩
    | cons c digits => exact ⟨c, _, rfl, not_isIndent_of_isDigit (hdigits c List.mem_cons_self)⟩
  cases h with
  | bullet hc hd =>
    exact ⟨⟨_, t, rfl, not_isIndent_of_isBullet hc⟩, ⟨_, t, rfl, not_isIndent_of_isBullet hd⟩⟩
  | number _ hdigits _ hothers => exact ⟨hnumber _ hdigits, hnumber _ hothers⟩

theorem Exchange.newline_not_mem (h : Exchange m sign other) : '\n' ∉ sign ∧ '\n' ∉ other := by
  have hbullet : ∀ c, isBullet c → '\n' ∉ [c] := by
    intro c hc hn
    obtain rfl := List.mem_singleton.1 hn
    cases hc
  have hnumber : ∀ digits : Text, (∀ c ∈ digits, c.isDigit) → '\n' ∉ digits ++ ['.'] := by
    intro digits hdigits hn
    rcases List.mem_append.1 hn with hn | hn
    · cases hdigits _ hn
    · cases List.mem_singleton.1 hn
  cases h with
  | bullet hc hd => exact ⟨hbullet _ hc, hbullet _ hd⟩
  | number _ hdigits _ hothers => exact ⟨hnumber _ hdigits, hnumber _ hothers⟩

/-- The other sign is a marker as well, and shows the same unless no list is opened. -/
theorem Exchange.exists_marker {t u : Text} {marker : Marker} (h : Exchange m sign other)
    (hm : marker? (sign ++ t) = some marker) (ht : u.takeWhile isIndent = t.takeWhile isIndent) :
    marker.width = sign.length + (t.takeWhile isIndent).length ∧
      ∃ n, marker? (other ++ u) =
        some ⟨marker.style, n, other.length + (t.takeWhile isIndent).length⟩ ∧
        (n = marker.number ∨ m.OpensNoList) := by
  cases h with
  | @bullet c d hc hd =>
    rw [List.singleton_append, marker?_of_isBullet hc] at hm
    by_cases hb : t.takeWhile isIndent = []
    · rw [if_pos hb] at hm
      cases hm
    · rw [if_neg hb] at hm
      obtain rfl := Option.some.inj hm
      refine ⟨rfl, 1, ?_, .inl rfl⟩
      rw [List.singleton_append, marker?_of_isBullet hd, ht, if_neg hb]
      rfl
  | @number digits others hopen hdigits hne hothers =>
    have hdne : digits ≠ [] := by
      rintro rfl
      cases hm
    rw [List.append_assoc, List.singleton_append, marker?_of_digits hdne hdigits] at hm
    obtain rfl := Option.some.inj hm
    refine ⟨?_, min (toNat 10 others) OpenList.maxNumber, ?_, .inr hopen⟩
    · rw [List.length_append]
      rfl
    · rw [List.append_assoc, List.singleton_append, marker?_of_digits hne hothers, ht,
        List.length_append]
      rfl

/-- Where no blanks follow, both signs end with the same character. -/
theorem Exchange.getLast?_eq {t : Text} {marker : Marker} (h : Exchange m sign other)
    (hm : marker? (sign ++ t) = some marker) (ht : t.takeWhile isIndent = []) :
    other.getLast? = sign.getLast? := by
  cases h with
  | bullet hc hd =>
    rw [List.singleton_append, marker?_of_isBullet hc, if_pos ht] at hm
    cases hm
  | number => rw [List.getLast?_concat, List.getLast?_concat]

end

/-- A line that begins with a marker underlines nothing. -/
theorem Markdown.not_isUnderline_of_marker? {blanks t : Text} {marker : Marker}
    (hb : ∀ c ∈ blanks, isIndent c) (h : marker? t = some marker) :
    ¬ isUnderline (firstLine (blanks ++ t)) := by
  intro hu
  obtain ⟨c, u, hline, hc⟩ := eq_of_isUnderline hu
  have hp : firstLine (blanks ++ t) <+: blanks ++ t := List.takeWhile_prefix _
  rw [hline] at hp
  obtain ⟨v, hv⟩ := hp
  have hnot : isIndent c = false ∧ c.isDigit = false := by
    rcases hc with rfl | rfl | rfl <;> decide
  cases blanks with
  | cons b blanks =>
    have hcb : c = b := (List.cons.inj hv).1
    rw [hcb, hb b List.mem_cons_self] at hnot
    cases hnot.1
  | nil =>
    obtain ⟨n, hstarts, -⟩ := startsItem_of_marker? h
    rw [show t = c :: c :: (u ++ v) from hv.symm] at hstarts
    generalize hw : c :: c :: (u ++ v) = w at hstarts
    generalize marker.style = style at hstarts
    cases hstarts with
    | bullet t _ hd =>
      obtain ⟨-, hw⟩ := List.cons.inj hw
      rw [← (List.cons.inj hw).1, hnot.1] at hd
      cases hd
    | @number digits t hne hd =>
      obtain ⟨d, digits, rfl⟩ := List.exists_cons_of_ne_nil hne
      have hdigit := hd d List.mem_cons_self
      rw [← (List.cons.inj hw).1, hnot.2] at hdigit
      cases hdigit

namespace State

variable {s : State} {m : Move} {blanks t u : Text}

theorem item?_of_blanks (hr : s.input.rest = blanks ++ u) (hb : ∀ c ∈ blanks, isIndent c)
    (hu : ∃ c t, u = c :: t ∧ isIndent c = false) (he : s.lists.isEmpty → blanks = []) :
    s.item? = (marker? u).map fun marker =>
      { s with input := s.input.advance (blanks.length + marker.width) }.release.andThen
        (placeItem marker (indentWidth blanks)) := by
  have hblanks : (if s.lists.isEmpty then [] else s.input.rest.takeWhile isIndent) = blanks := by
    obtain ⟨c, t, rfl, hc⟩ := hu
    split
    · rename_i h
      exact (he h).symm
    · rw [hr, List.takeWhile_append_of_pos hb, List.takeWhile_cons_of_neg (by simp [hc]),
        List.append_nil]
  rw [item?_eq hblanks, hr, List.drop_left]

/-- Where no list is open, blanks before a marker are not looked over. -/
theorem blanks_eq_nil_of_item? (h : s.item? = some m) (hr : s.input.rest = blanks ++ u)
    (hb : ∀ c ∈ blanks, isIndent c) (he : s.lists.isEmpty) : blanks = [] := by
  cases blanks with
  | nil => rfl
  | cons b blanks =>
    rw [item?_eq (if_pos he), hr] at h
    obtain ⟨marker, hmarker, -⟩ := Option.map_eq_some_iff.1 h
    obtain ⟨n, hstarts, -⟩ := startsItem_of_marker? hmarker
    have hlead := hstarts.lead
    have hindent := hb b List.mem_cons_self
    simp only [isIndent, Bool.or_eq_true, beq_iff_eq] at hindent
    rcases hindent with rfl | rfl <;> cases hlead

/-- What a recognised marker is, and what it does. -/
theorem Recognises.exists_marker (h : s.Recognises m) (hr : s.input.rest = blanks ++ u)
    (hb : ∀ c ∈ blanks, isIndent c) (hu : ∃ c t, u = c :: t ∧ isIndent c = false) :
    (s.lists.isEmpty → blanks = []) ∧ ∃ marker, marker? u = some marker ∧
      m.next.input = s.input.advance (blanks.length + marker.width) ∧
      m = ({ s.midLine with
        input := s.input.advance (blanks.length + marker.width) }.release.andThen
          (placeItem marker (indentWidth blanks))) := by
  have he : s.lists.isEmpty → blanks = [] := blanks_eq_nil_of_item? (s := s.midLine) h.item hr hb
  have hitem := h.item
  rw [item?_of_blanks (s := s.midLine) hr hb hu he] at hitem
  obtain ⟨marker, hmarker, rfl⟩ := Option.map_eq_some_iff.1 hitem
  refine ⟨he, marker, hmarker, ?_, rfl⟩
  rw [Move.next_andThen, input_placeItem, next_release]
  rfl

theorem Recognises.freshLine_next (h : s.Recognises m) : m.next.freshLine = false := by
  obtain ⟨marker, -, rfl⟩ := Option.map_eq_some_iff.1 h.item
  rw [Move.next_andThen, (onLists_placeItem _ _).next_eq, next_release]
  rfl

/-- A line with a marker begins with blanks or with the marker. -/
theorem exists_lead_of_marker? {marker : Marker} (hr : s.input.rest = blanks ++ u)
    (hb : ∀ c ∈ blanks, isIndent c) (hm : marker? u = some marker) :
    ∃ c t, s.input.rest = c :: t ∧ isLead c := by
  cases blanks with
  | cons b blanks =>
    refine ⟨b, blanks ++ u, hr, ?_⟩
    rw [isLead, hb b List.mem_cons_self, Bool.true_or, Bool.true_or]
  | nil =>
    obtain ⟨n, hstarts, -⟩ := startsItem_of_marker? hm
    cases u with
    | nil => cases hm
    | cons c t =>
      refine ⟨c, t, hr, ?_⟩
      have hlead := hstarts.lead
      rw [isLead, Bool.or_assoc, hlead, Bool.or_true]

theorem Recognises.exists_lead (h : s.Recognises m) :
    ∃ c t, s.input.rest = c :: t ∧ isLead c := by
  obtain ⟨blanks, u, marker, hr, hb, hm, -⟩ := exists_marker_of_item? h.item
  exact exists_lead_of_marker? hr hb hm

theorem Recognises.rest_ne_nil (h : s.Recognises m) : s.input.rest ≠ [] := by
  obtain ⟨c, t, hr, -⟩ := h.exists_lead
  rw [hr]
  exact List.cons_ne_nil c t

/-- The step of a recognised marker. -/
theorem Recognises.step (h : s.Recognises m) : s.step = .ok m := by
  obtain ⟨c, t, hr, hc⟩ := h.exists_lead
  have hn : s.input.next? ≠ some '\\' := by
    rw [Zipper.next?, hr]
    intro hback
    exact ne_of_isLead hc (by decide) (Option.some.inj hback)
  refine step_of_blockRule? h.inFence h.freshLine hn ?_
  rw [blockRule?_of_isLead (s := s.midLine) hr hc, h.item]

/-! ## Lines that end -/

end State

/-- A part of a text that reaches below the line holds the newline. -/
theorem Zipper.newline_mem_of_rest_splitLine {z : Zipper} {part : Text}
    (hr : z.rest = part ++ z.splitLine.2.rest) : '\n' ∈ part ∨ z.splitLine.2.rest = [] := by
  rcases eq_firstLine_or z.rest with hz | ⟨u, hz⟩
  · right
    rw [splitLine, rest_advance, restOfLine, ← hz, List.drop_of_length_le (Nat.le_succ _)]
  · left
    have hu := rest_splitLine hz (newline_not_mem_firstLine z.rest)
    rw [hu] at hr
    have hpart := hz.symm.trans hr
    rw [List.append_cons] at hpart
    rw [← List.append_cancel_right hpart]
    exact List.mem_append_right _ List.mem_cons_self

namespace State

variable {s : State} {z : Zipper} {m : Move} {part t : Text} {c : Char}

theorem part_ne_nil (hs : s.input.rest ≠ []) (hm : s.step = .ok m)
    (hr : s.input.rest = part ++ m.next.input.rest) : part ≠ [] := by
  rintro rfl
  have hlt := length_rest_step hm hs
  rw [List.nil_append] at hr
  rw [hr] at hlt
  exact Nat.lt_irrefl _ hlt

/-- A line begins only below a newline. -/
theorem newline_mem_of_freshLine (hs : s.input.rest ≠ []) (hm : s.step = .ok m)
    (hr : s.input.rest = part ++ m.next.input.rest) (hl : m.next.freshLine = true) :
    '\n' ∈ part ∨ m.next.input.rest = [] := by
  have hfirst : ∀ t, s.input.rest = '\n' :: t → '\n' ∈ part := by
    intro t ht
    obtain ⟨c, u, rfl⟩ := List.exists_cons_of_ne_nil (part_ne_nil hs hm hr)
    rw [ht] at hr
    rw [← (List.cons.inj hr).1]
    exact List.mem_cons_self
  have hline : m.next.input = s.input.splitLine.2 → '\n' ∈ part ∨ m.next.input.rest = [] := by
    intro h
    rw [h] at hr ⊢
    exact Zipper.newline_mem_of_rest_splitLine hr
  cases rule_of_step hs hm with
  | fencedLine => exact hline (input_fencedLine s)
  | backslash => cases hl
  | block _ _ hb =>
    cases hb with
    | paragraphBreak hn => exact .inl (hfirst _ hn)
    | hashRule => exact hline (input_hashRule s.midLine)
    | openFence => exact hline (input_openFence s.midLine)
    | item =>
      rw [Move.next_andThen, (onLists_placeItem _ _).next_eq, next_release] at hl
      cases hl
  | text _ ht =>
    cases ht with
    | underline hn => exact .inl (hfirst _ hn)
    | join hn => exact .inl (hfirst _ hn)
    | push => cases hl
    | link =>
      rw [Move.next_andThen, next_announce, next_release] at hl
      cases hl

/-! ## Heads and first lines of texts that differ in markers -/

theorem Respelled.eq_nil_iff (h : s.Respelled t) : t = [] ↔ s.input.rest = [] := by
  cases h with
  | same => exact Iff.rfl
  | copied hs hm hr h =>
    have hpart := part_ne_nil hs hm hr
    exact iff_of_false (List.append_ne_nil_of_left_ne_nil hpart _) hs
  | @marker s m blanks sign other gap t hm hr hb hx h =>
    obtain ⟨-, d, v, hother, -⟩ := hx.exists_cons (gap ++ t)
    rw [hother]
    exact iff_of_false (List.append_ne_nil_of_right_ne_nil _ (List.cons_ne_nil d v)) hm.rest_ne_nil

/-- Where no marker is recognised both texts go on with the same character. -/
theorem Respelled.head?_eq (h : s.Respelled t) (hs : ∀ m, ¬ s.Recognises m) :
    t.head? = s.input.rest.head? := by
  cases h with
  | same => rfl
  | @copied s m part t hne hm hr h =>
    obtain ⟨c, part, rfl⟩ := List.exists_cons_of_ne_nil (part_ne_nil hne hm hr)
    rw [hr]
    rfl
  | marker hm => exact absurd hm (hs _)

/-- The blanks of a recognised marker are all that follow it, in both texts. -/
theorem Recognises.takeWhile_gap {gap sign blanks : Text} (h : s.Recognises m)
    (hr : s.input.rest = blanks ++ (sign ++ (gap ++ m.next.input.rest)))
    (hnext : m.next.input.rest = s.input.rest.drop (blanks.length + (sign.length +
      ((gap ++ m.next.input.rest).takeWhile isIndent).length)))
    (ht : m.next.Respelled t) :
    (gap ++ m.next.input.rest).takeWhile isIndent = gap ∧
      (gap ++ t).takeWhile isIndent = gap := by
  have hdrop : m.next.input.rest = (gap ++ m.next.input.rest).dropWhile isIndent := by
    rwa [hr, ← List.drop_drop, List.drop_left, ← List.drop_drop, List.drop_left,
      drop_length_takeWhile] at hnext
  have hsplit := List.takeWhile_append_dropWhile (p := isIndent) (l := gap ++ m.next.input.rest)
  rw [← hdrop] at hsplit
  have hgap := List.append_cancel_right hsplit
  have hall : ∀ c ∈ gap, isIndent c := by
    rw [← hgap]
    exact List.all_eq_true.1 List.all_takeWhile
  have hhead : t.head? = m.next.input.rest.head? := by
    refine ht.head?_eq fun n hn => ?_
    have hl := hn.freshLine
    rw [h.freshLine_next] at hl
    cases hl
  refine ⟨hgap, ?_⟩
  have hnone : t.takeWhile isIndent = [] := by
    cases t with
    | nil => rfl
    | cons c t =>
      have hc := List.head?_dropWhile_not isIndent (gap ++ m.next.input.rest)
      rw [← hdrop, ← hhead] at hc
      exact List.takeWhile_cons_of_neg (by simpa using hc)
  rw [List.takeWhile_append_of_pos hall, hnone, List.append_nil]

theorem firstLine_append_eq (hs : s.input.rest ≠ []) (hm : s.step = .ok m)
    (hr : s.input.rest = part ++ m.next.input.rest)
    (h : firstLine t = firstLine m.next.input.rest ∨ ∃ n, m.next.Recognises n) :
    firstLine (part ++ t) = firstLine s.input.rest := by
  rw [hr]
  rcases h with h | ⟨n, hn⟩
  · exact firstLine_append_congr part h
  · rcases newline_mem_of_freshLine hs hm hr hn.freshLine with hmem | hnil
    · rw [firstLine_append_of_mem hmem, firstLine_append_of_mem hmem]
    · exact absurd hnil hn.rest_ne_nil

/-- What a recognised marker is and does, and which marker stands for it in the other text. -/
structure MarkerPair (s : State) (m : Move) (blanks sign other gap t : Text) (marker : Marker)
    (n : Nat) : Prop where
  marker_sign : marker? (sign ++ (gap ++ m.next.input.rest)) = some marker
  marker_other :
    marker? (other ++ (gap ++ t)) = some ⟨marker.style, n, other.length + gap.length⟩
  number : n = marker.number ∨ m.OpensNoList
  last : gap = [] → other.getLast? = sign.getLast?
  root : s.lists.isEmpty → blanks = []
  input : m.next.input = s.input.advance (blanks.length + (sign.length + gap.length))
  move : m = ({ s.midLine with
    input := s.input.advance (blanks.length + marker.width) }.release.andThen
      (placeItem marker (indentWidth blanks)))

theorem Recognises.exists_pair {sign other gap : Text} (h : s.Recognises m)
    (hr : s.input.rest = blanks ++ (sign ++ (gap ++ m.next.input.rest)))
    (hb : ∀ c ∈ blanks, isIndent c) (hx : Exchange m sign other) (ht : m.next.Respelled t) :
    ∃ marker n, MarkerPair s m blanks sign other gap t marker n := by
  obtain ⟨he, marker, hmarker, hnext, hmove⟩ := h.exists_marker hr hb (hx.exists_cons _).1
  obtain ⟨hwidth, -⟩ := hx.exists_marker hmarker rfl
  rw [hwidth] at hnext
  obtain ⟨hgap, hgap'⟩ := h.takeWhile_gap hr (congrArg Zipper.rest hnext) ht
  obtain ⟨-, n, hother, hn⟩ := hx.exists_marker hmarker (hgap'.trans hgap.symm)
  rw [hgap] at hnext hother
  exact ⟨marker, n, hmarker, hother, hn, fun hnil => hx.getLast?_eq hmarker (hgap.trans hnil), he,
    hnext, hmove⟩

/-- Both texts begin with the same line, or with lines that begin with markers. -/
theorem Respelled.firstLine_eq_or (h : s.Respelled t) :
    firstLine t = firstLine s.input.rest ∨ (∃ m, s.Recognises m) ∧
      ¬ isUnderline (firstLine t) ∧ ¬ isUnderline (firstLine s.input.rest) := by
  induction h with
  | same => exact .inl rfl
  | copied hs hm hr h ih => exact .inl (firstLine_append_eq hs hm hr (ih.imp_right And.left))
  | @marker s m blanks sign other gap t hm hr hb hx h ih =>
    obtain ⟨marker, n, hpair⟩ := hm.exists_pair hr hb hx h
    refine .inr ⟨⟨m, hm⟩, not_isUnderline_of_marker? hb hpair.marker_other, ?_⟩
    rw [hr]
    exact not_isUnderline_of_marker? hb hpair.marker_sign

/-! ## The number of a marker -/

/-- The number of a marker is not looked at where no list is opened. -/
theorem placeItem_eq_of_opensNoList {marker : Marker} {indent : Nat} (n w : Nat)
    (h : (s.placeItem marker indent).OpensNoList) :
    s.placeItem ⟨marker.style, n, w⟩ indent = s.placeItem marker indent := by
  rw [placeItem_eq] at h
  rw [placeItem_eq, placeItem_eq]
  refine Move.andThen_congr ?_
  replace h := h.of_andThen
  generalize (s.closeMany (s.lists.deeperThan indent)).next = t at h ⊢
  by_cases hdeeper : t.lists.innermost?.all fun o => o.indent < indent
  · rw [if_pos hdeeper] at h ⊢
    rw [if_pos hdeeper]
    cases hopen : t.lists.opened? ⟨marker.style, marker.number, indent⟩ with
    | none =>
      have hfull := OpenLists.opened?_eq_none_iff.1 hopen
      rw [OpenLists.opened?_eq_none_iff.2 hfull]
    | some lists =>
      rw [hopen] at h
      exact absurd rfl (h ⟨.event (.listOpen marker.style), lists⟩ List.mem_cons_self marker.style)
  · rw [if_neg hdeeper, if_neg hdeeper]

theorem andThen_placeItem_eq {r : Move} {marker : Marker} {indent n w : Nat}
    (h : n = marker.number ∨ (r.andThen (placeItem marker indent)).OpensNoList) :
    r.andThen (placeItem ⟨marker.style, n, w⟩ indent) = r.andThen (placeItem marker indent) := by
  refine Move.andThen_congr ?_
  rcases h with rfl | h
  · rfl
  · exact placeItem_eq_of_opensNoList n w h.of_andThen

end State

/-! ## Places that go with each other -/

namespace Zipper

variable {z : Zipper} {part u : Text} {n : Nat}

theorem previous?_advance_length (hr : z.rest = part ++ u) :
    (z.advance part.length).previous? = part.getLast?.or z.previous? := by
  rw [previous?, before_advance, hr, List.take_left, List.head?_append, List.head?_reverse]
  rfl

theorem count_newline_advance_length (hr : z.rest = part ++ u) :
    (z.advance part.length).before.count '\n' = part.count '\n' + z.before.count '\n' := by
  rw [before_advance, hr, List.take_left, List.count_append, List.count_reverse]

/-- Moving beyond the end is moving to the end. -/
theorem advance_eq_advance_length (hr : z.rest = part ++ u)
    (hn : n = part.length ∨ u = [] ∧ part.length ≤ n) : z.advance n = z.advance part.length := by
  rcases hn with rfl | ⟨rfl, hn⟩
  · rfl
  · rw [List.append_nil] at hr
    rw [advance, advance, hr, List.take_of_length_le hn, List.drop_of_length_le hn,
      List.take_length, List.drop_length]

theorem eq_length_or_of_rest_advance (hr : z.rest = part ++ u) (hn : (z.advance n).rest = u) :
    n = part.length ∨ u = [] ∧ part.length ≤ n := by
  have hlen := congrArg List.length hn
  rw [length_rest_advance, hr, List.length_append] at hlen
  by_cases hu : u = []
  · subst hu
    rw [List.length_nil] at hlen
    exact .inr ⟨rfl, by omega⟩
  · have hpos := List.length_pos_iff.2 hu
    exact .inl (by omega)

end Zipper

namespace State

variable {s : State} {z : Zipper} {m : Move} {part t : Text} {c : Char}

/-- Another place to read from, where what is left differs in markers that are recognised. -/
structure Parallel (s : State) (z : Zipper) : Prop where
  respelled : s.Respelled z.rest
  previous : z.previous? = s.input.previous?
  newlines : z.before.count '\n' = s.input.before.count '\n'

/-- Places go with each other after texts that end alike and hold as many newlines. -/
theorem Parallel.advance_length {other : Text} (h : s.Parallel z)
    (hr : s.input.rest = part ++ m.next.input.rest) (hz : z.rest = other ++ t)
    (ht : m.next.Respelled t) (hlast : other.getLast? = part.getLast?)
    (hcount : other.count '\n' = part.count '\n')
    (hnext : m.next.input = s.input.advance part.length) :
    m.next.Parallel (z.advance other.length) where
  respelled := by rwa [Zipper.rest_advance_length hz]
  previous := by
    rw [hnext, Zipper.previous?_advance_length hz, Zipper.previous?_advance_length hr, hlast,
      h.previous]
  newlines := by
    rw [hnext, Zipper.count_newline_advance_length hz, Zipper.count_newline_advance_length hr,
      hcount, h.newlines]

theorem Parallel.advance {n : Nat} (h : s.Parallel z)
    (hr : s.input.rest = part ++ m.next.input.rest) (hz : z.rest = part ++ t)
    (ht : m.next.Respelled t) (hnext : m.next.input = s.input.advance n) :
    m.next.Parallel (z.advance n) := by
  have hn := Zipper.eq_length_or_of_rest_advance hr (congrArg Zipper.rest hnext).symm
  rw [Zipper.advance_eq_advance_length hr hn] at hnext
  rw [Zipper.advance_eq_advance_length hz (hn.imp_right (And.imp_left ht.eq_nil_iff.2))]
  exact h.advance_length hr hz ht rfl rfl hnext

/-! ## The step of a text that differs in markers -/

/-- A text goes on after a single character as the other does, unless that ends a line. -/
theorem Respelled.head?_eq_of_single (ht : m.next.Respelled t) (hs : s.input.rest ≠ [])
    (hm : s.step = .ok m) (hr : s.input.rest = [c] ++ m.next.input.rest)
    (hc : c = '\n' → s.inFence = true) : t.head? = m.next.input.rest.head? := by
  refine ht.head?_eq fun n hn => ?_
  rcases newline_mem_of_freshLine hs hm hr hn.freshLine with hmem | hnil
  · obtain rfl := List.mem_singleton.1 hmem
    have hf := hc rfl
    have hfence : ¬ s.input.startsWith fence := by
      rw [Zipper.startsWith, hr]
      exact Bool.false_ne_true
    rw [step_eq, if_pos hf, fencedLine_of_not_fence hfence] at hm
    obtain rfl := Except.ok.inj hm
    have hnot : s.inFence = false := hn.inFence
    rw [hf] at hnot
    cases hnot
  · exact hn.rest_ne_nil hnil

/-- What the end of a line moves over is the newline, or the line below as well. -/
theorem part_of_lineEnd {u : Text} (hr : s.input.rest = '\n' :: u)
    (hu : u = part ++ s.lineEnd.next.input.rest) :
    part = [] ∨ '\n' ∈ part ∨ s.lineEnd.next.input.rest = [] := by
  have hone : (s.input.advance 1).rest = u := by
    rw [Zipper.rest_advance, hr]
    rfl
  by_cases hline : s.input.lineBelow?.any isUnderline
  · rw [lineEnd_of_underline hline, underlined, Move.next_andThen, next_raise, next_release] at hu ⊢
    exact .inr (Zipper.newline_mem_of_rest_splitLine (hone.trans hu))
  · rw [lineEnd_of_not_underline hline] at hu
    rw [← hone] at hu
    exact .inl (List.append_left_eq_self.1 hu.symm)

/-- The line below is the same, or underlines nothing. -/
theorem Respelled.firstLine_below {u : Text} (ht : m.next.Respelled t) (hf : s.inFence = false)
    (hl : s.freshLine = false) (hr : s.input.rest = '\n' :: u) (hm : s.step = .ok m)
    (hu : u = part ++ m.next.input.rest) : firstLine (part ++ t) = firstLine u ∨
      ¬ isUnderline (firstLine (part ++ t)) ∧ ¬ isUnderline (firstLine u) := by
  obtain rfl := Except.ok.inj ((step_of_newline_of_midLine hf hl hr).symm.trans hm)
  rcases part_of_lineEnd hr hu with rfl | hmem | hnil
  · rw [hu]
    exact ht.firstLine_eq_or.imp_right And.right
  · left
    rw [hu, firstLine_append_of_mem hmem, firstLine_append_of_mem hmem]
  · left
    rw [hu, hnil, ht.eq_nil_iff.2 hnil]

/-- What a step moves over is the same in both texts: the step is the same. -/
theorem Parallel.exists_step_copied (h : s.Parallel z) (hs : s.input.rest ≠ [])
    (hm : s.step = .ok m) (hr : s.input.rest = part ++ m.next.input.rest) (hz : z.rest = part ++ t)
    (ht : m.next.Respelled t) :
    ∃ w, (s.elsewhere z).step = .ok (m.elsewhere w) ∧ m.next.Parallel w := by
  suffices hmoves : ∃ m', (s.elsewhere z).step = .ok m' ∧ Moves s z m m' by
    obtain ⟨_, hm', n, hn, rfl⟩ := hmoves
    exact ⟨z.advance n, hm', h.advance hr hz ht hn⟩
  obtain ⟨c, part, rfl⟩ := List.exists_cons_of_ne_nil (part_ne_nil hs hm hr)
  by_cases hn : s.inFence = false ∧ c = '\n'
  · obtain ⟨hf, rfl⟩ := hn
    exact exists_moves_newline hf hr hz (fun hl => ht.firstLine_below hf hl hr hm rfl) hm
  · have hc : c = '\n' → s.inFence = true := by
      intro hc
      exact eq_true_of_ne_false fun hf => hn ⟨hf, hc⟩
    have halike : s.input.Alike z := by
      refine ⟨h.previous, ?_, ?_⟩
      · rw [hz]
        exact firstLine_append_eq hs hm hr (ht.firstLine_eq_or.imp_right And.left)
      · rw [hr, hz]
        cases part with
        | nil =>
          have hhead := ht.head?_eq_of_single hs hm hr hc
          show c :: t.take 1 = c :: m.next.input.rest.take 1
          rw [List.take_one, List.take_one, hhead]
        | cons d part => rfl
    refine exists_moves_step halike hs ?_ ?_ hm
    · rw [hr]
      rintro hf ⟨⟩
      exact hn ⟨hf, rfl⟩
    · intro code after hcode hafter
      rw [hr, hafter] at hcode
      have hpart : (c :: part) ++ after = (codeMark :: (code ++ [codeMark])) ++ after := by
        simpa using hcode
      refine ⟨t, ?_⟩
      rw [hz, List.append_cancel_right hpart]
      simp

/-- The marker that stands for another is recognised as well, and makes the same move. -/
theorem MarkerPair.recognises {blanks sign other gap : Text} {marker : Marker} {n : Nat}
    (h : MarkerPair s m blanks sign other gap t marker n) (hm : s.Recognises m)
    (hz : z.rest = blanks ++ (other ++ (gap ++ t))) (hb : ∀ c ∈ blanks, isIndent c)
    (hx : Exchange m sign other) : (s.elsewhere z).Recognises
      (m.elsewhere (z.advance (blanks.length + (other.length + gap.length)))) where
  inFence := hm.inFence
  freshLine := hm.freshLine
  item := by
    have hopens : n = marker.number ∨ ({ s.midLine with
        input := s.input.advance (blanks.length + marker.width) }.release.andThen
          (placeItem marker (indentWidth blanks))).OpensNoList := by
      rw [← h.move]
      exact h.number
    rw [item?_of_blanks (s := (s.elsewhere z).midLine) hz hb (hx.exists_cons _).2 h.root,
      h.marker_other, Option.map_some]
    refine congrArg some ((release_andThen_elsewhere (onLists_placeItem _ _) { s.midLine with
      input := s.input.advance (blanks.length + marker.width) } _).trans ?_)
    rw [andThen_placeItem_eq hopens, ← h.move]
    rfl

/-- Another marker does the same. -/
theorem Parallel.exists_step_marker {blanks sign other gap : Text} (h : s.Parallel z)
    (hm : s.Recognises m) (hr : s.input.rest = blanks ++ (sign ++ (gap ++ m.next.input.rest)))
    (hb : ∀ c ∈ blanks, isIndent c) (hx : Exchange m sign other) (ht : m.next.Respelled t)
    (hz : z.rest = blanks ++ (other ++ (gap ++ t))) :
    ∃ w, (s.elsewhere z).step = .ok (m.elsewhere w) ∧ m.next.Parallel w := by
  obtain ⟨marker, n, hpair⟩ := hm.exists_pair hr hb hx ht
  refine ⟨_, (hpair.recognises hm hz hb hx).step, ?_⟩
  have hr' : s.input.rest = (blanks ++ (sign ++ gap)) ++ m.next.input.rest := by
    simp only [hr, List.append_assoc]
  have hz' : z.rest = (blanks ++ (other ++ gap)) ++ t := by
    simp only [hz, List.append_assoc]
  -- Neither sign holds a newline, and both markers end with the same character.
  obtain ⟨hsign, hother⟩ := hx.newline_not_mem
  have hcount : (blanks ++ (other ++ gap)).count '\n' = (blanks ++ (sign ++ gap)).count '\n' := by
    simp only [List.count_append, List.count_eq_zero_of_not_mem hsign,
      List.count_eq_zero_of_not_mem hother]
  have hlast : (blanks ++ (other ++ gap)).getLast? = (blanks ++ (sign ++ gap)).getLast? := by
    simp only [List.getLast?_append]
    cases gap with
    | nil => rw [hpair.last rfl]
    | cons d gap => rfl
  have hnext : m.next.input = s.input.advance (blanks ++ (sign ++ gap)).length := by
    rw [List.length_append, List.length_append]
    exact hpair.input
  have hparallel := h.advance_length hr' hz' ht hlast hcount hnext
  rwa [List.length_append, List.length_append] at hparallel

/-! ## Steps and readings -/

/-- **The step of a text that differs in markers is the same.** -/
theorem Parallel.exists_step (h : s.Parallel z) (hs : s.input.rest ≠ []) (hm : s.step = .ok m) :
    ∃ w, (s.elsewhere z).step = .ok (m.elsewhere w) ∧ m.next.Parallel w := by
  have hrespelled := h.respelled
  generalize hz : z.rest = v at hrespelled
  cases hrespelled with
  | same =>
    obtain ⟨n, hn⟩ := exists_advance_of_rule (rule_of_step hs hm)
    have hr : s.input.rest = s.input.rest.take n ++ m.next.input.rest := by
      rw [hn, Zipper.rest_advance, List.take_append_drop]
    exact h.exists_step_copied hs hm hr (hz.trans hr) (.same m.next)
  | copied _ hm' hr ht =>
    obtain rfl := Except.ok.inj (hm'.symm.trans hm)
    exact h.exists_step_copied hs hm hr hz ht
  | marker hm' hr hb hx ht =>
    obtain rfl := Except.ok.inj (hm'.step.symm.trans hm)
    exact h.exists_step_marker hm' hr hb hx ht hz

/-- A step that fails fails in the same line. -/
theorem Parallel.exists_error {e : UnclosedCode} (h : s.Parallel z) (hs : s.input.rest ≠ [])
    (he : s.step = .error e) :
    ∃ e', (s.elsewhere z).step = .error e' ∧ e'.place.line = e.place.line := by
  have hrest : z.rest = s.input.rest := by
    have hrespelled := h.respelled
    generalize z.rest = v at hrespelled
    cases hrespelled with
    | same => rfl
    | copied _ hm => cases he.symm.trans hm
    | marker hm => cases he.symm.trans hm.step
  obtain ⟨hf, rfl, t, hr, ht⟩ := (step_eq_error_iff hs).1 he
  refine ⟨⟨z.position⟩, ?_, congrArg (· + 1) h.newlines⟩
  have hz : (s.elsewhere z).input.rest = codeMark :: t := hrest.trans hr
  refine (step_eq_error_iff ?_).2 ⟨hf, rfl, t, hz, ht⟩
  rw [hz]
  exact List.cons_ne_nil codeMark t

/-- **Both readings take the same steps.** -/
theorem Parallel.exists_reads (h : s.Parallel z) (hm : Reads s m) :
    ∃ w, Reads (s.elsewhere z) (m.elsewhere w) ∧ m.next.Parallel w := by
  induction hm generalizing z with
  | stop s => exact ⟨z, .stop _, h⟩
  | step hs hm _ ih =>
    obtain ⟨w, hw, hnext⟩ := h.exists_step hs hm
    obtain ⟨v, hv, hend⟩ := ih hnext
    exact ⟨v, .step (mt h.respelled.eq_nil_iff.1 hs) hw hv, hend⟩

end State

/-- **The spelling of markers does not matter.**  When a document is read with other bullets, and
with other numbers where an item does not open a list, the same is raised with the same lists, and
reading ends without an error or with one in the same line. -/
theorem Zipper.marker_spelling_is_free {z : Zipper} {t : Text}
    (h : (State.initial z).Respelled t) :
    let w : Zipper := ⟨z.before, t⟩
    w.trace.raised = z.trace.raised ∧ w.trace.warnings = z.trace.warnings ∧
    (∀ mk : Markup, w.trace.events mk = z.trace.events mk) ∧
    w.trace.failure?.map (·.place.line) = z.trace.failure?.map (·.place.line) := by
  intro w
  suffices htrace : w.trace.raised = z.trace.raised ∧ w.trace.warnings = z.trace.warnings ∧
      w.trace.failure?.map (·.place.line) = z.trace.failure?.map (·.place.line) by
    obtain ⟨hraised, hwarnings, hline⟩ := htrace
    refine ⟨hraised, hwarnings, fun mk => ?_, hline⟩
    rw [Trace.events, Trace.events, hraised]
  have hparallel : (State.initial z).Parallel w := ⟨h, rfl, rfl⟩
  cases hfail : z.trace.failure? with
  | none =>
    obtain ⟨m, hm, hend, ht⟩ := exists_reads_of_success hfail
    obtain ⟨v, hv, hnext⟩ := hparallel.exists_reads hm
    have hw : w.trace = _ := trace_of_reads_to_end hv (hnext.respelled.eq_nil_iff.2 hend)
    rw [Move.next_elsewhere, State.wrapUp_elsewhere] at hw
    rw [hw, ht]
    exact ⟨rfl, rfl, rfl⟩
  | some e =>
    obtain ⟨m, hm, hne, herr, ht⟩ := exists_reads_of_failure hfail
    obtain ⟨v, hv, hnext⟩ := hparallel.exists_reads hm
    obtain ⟨e', herr', hline⟩ := hnext.exists_error hne herr
    have hw : w.trace = _ :=
      trace_of_reads_to_error hv (mt hnext.respelled.eq_nil_iff.1 hne) herr'
    rw [hw, ht]
    exact ⟨rfl, rfl, congrArg some hline⟩

/-- The items of a list within a list, of which the last is followed by inline code that is never
closed. -/
theorem Zipper.marker_spelling_is_free_nested :
    let z : Zipper := ⟨[], ['2', '.', '\n', ' ', '-', ' ', '\n', '5', '.', ' ', '`']⟩
    let w : Zipper := ⟨[], ['2', '.', '\n', ' ', '*', ' ', '\n', '1', '3', '.', ' ', '`']⟩
    (State.initial z).Respelled w.rest ∧
    (w.trace.raised = z.trace.raised ∧ w.trace.warnings = z.trace.warnings ∧
      (∀ mk : Markup, w.trace.events mk = z.trace.events mk) ∧
      w.trace.failure?.map (·.place.line) = z.trace.failure?.map (·.place.line)) ∧
    z.trace.failure? = some ⟨⟨3, 4⟩⟩ ∧ w.trace.failure? = some ⟨⟨3, 5⟩⟩ := by
  intro z w
  let outer : OpenLists := ⟨[⟨.numbered, 2, 0⟩], by decide⟩
  let inner : OpenLists := ⟨[⟨.bulleted, 1, 1⟩, ⟨.numbered, 2, 0⟩], by decide⟩
  let second : OpenLists := ⟨[⟨.numbered, 3, 0⟩], by decide⟩
  let joined : Buffer := (Buffer.empty.push [.char ' ']).markLine
  let opened : Move := ⟨[⟨.event (.listOpen .numbered), outer⟩, ⟨.event .itemOpen, outer⟩], [],
    ⟨z.advance 2, outer, .empty, false, false, false, false⟩⟩
  let below : Move := .silent ⟨z.advance 3, outer, joined, true, false, false, false⟩
  let nested : Move := ⟨[⟨.text [.char ' '], outer⟩, ⟨.event (.listOpen .bulleted), inner⟩,
    ⟨.event .itemOpen, inner⟩], [], ⟨z.advance 6, inner, .empty, false, false, false, false⟩⟩
  let next : Move := .silent ⟨z.advance 7, inner, joined, true, false, false, false⟩
  let last : Move := ⟨[⟨.text [.char ' '], inner⟩, ⟨.event .itemClose, inner⟩,
    ⟨.event .listClose, inner⟩, ⟨.event .itemClose, outer⟩, ⟨.event .itemOpen, second⟩], [],
    ⟨z.advance 10, second, .empty, false, false, false, false⟩⟩
  have hlast : next.next.Respelled ['1', '3', '.', ' ', '`'] := by
    have hopen : last.OpensNoList := by
      have hboth : ∀ r ∈ last.raised, r.item ≠ .event (.listOpen .numbered) ∧
          r.item ≠ .event (.listOpen .bulleted) := by decide
      intro r hr style
      cases style with
      | numbered => exact (hboth r hr).1
      | bulleted => exact (hboth r hr).2
    have hsign : Exchange last ['5', '.'] ['1', '3', '.'] :=
      @Exchange.number last ['5'] ['1', '3'] hopen (List.all_eq_true.1 rfl) nofun
        (List.all_eq_true.1 rfl)
    have hmarker : next.next.Recognises last := ⟨rfl, rfl, by decide +kernel⟩
    exact @State.Respelled.marker _ _ [] _ _ [' '] ['`'] hmarker (by decide +kernel) nofun hsign
      (.same last.next)
  have hnested : below.next.Respelled (w.rest.drop 3) := by
    have hsign : Exchange nested ['-'] ['*'] := .bullet rfl rfl
    have hmarker : below.next.Recognises nested := ⟨rfl, rfl, by decide +kernel⟩
    have hline : nested.next.input.rest = '\n' :: z.rest.drop 7 := by decide +kernel
    have hend : nested.next.lineEnd = next := by decide +kernel
    have hstep : nested.next.step = .ok next :=
      (State.step_of_newline_of_midLine rfl rfl hline).trans (congrArg _ hend)
    refine @State.Respelled.marker _ _ [' '] _ _ [' '] _ hmarker (by decide +kernel)
      (List.all_eq_true.1 rfl) hsign ?_
    exact @State.Respelled.copied _ _ ['\n'] _ (by decide) hstep (by decide +kernel) hlast
  have h : (State.initial z).Respelled w.rest := by
    have hopened : (State.initial z).Recognises opened := ⟨rfl, rfl, by decide +kernel⟩
    have hline : opened.next.input.rest = '\n' :: z.rest.drop 3 := by decide +kernel
    have hend : opened.next.lineEnd = below := by decide +kernel
    have hbelow : opened.next.step = .ok below :=
      (State.step_of_newline_of_midLine rfl rfl hline).trans (congrArg _ hend)
    refine @State.Respelled.copied _ _ ['2', '.'] _ (by decide) hopened.step (by decide +kernel) ?_
    exact @State.Respelled.copied _ _ ['\n'] _ (by decide) hbelow (by decide +kernel) hnested
  exact ⟨h, marker_spelling_is_free h, by decide +kernel, by decide +kernel⟩

end Roffdown
