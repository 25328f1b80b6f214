import Roffdown.Proofs.Nesting
import Roffdown.Proofs.Raising

/-!
# Numbers of items

A list counts its items from the number that its first marker shows.  What the other markers show
is never looked at, and while lists inside an item are read, the list around them waits unchanged.

* `ListStyle.numberAt`: the number of an item, by the number of items before it.
* `ownItems`: where the items of a list begin, among the events after the one that opens it.
* `Path.ownItems`: along a path the items of a list are counted one by one.
* `Markdown.StartsItem`: the markers, with the number that each shows.
* `items_numbered`: the numbers of the items of every list of a document.
-/

namespace Roffdown

open Markdown Text
open State (Reads)

/-! ## Counting -/

/-- The number of an item of a list that starts with `first`, after `k` other items. -/
def ListStyle.numberAt (style : ListStyle) (first k : Nat) : Nat :=
  match style with
  | .numbered => min (first + k) OpenList.maxNumber
  | .bulleted => 1

/-- The list as it is in that item. -/
def ListStyle.listAt (style : ListStyle) (first indent k : Nat) : OpenList :=
  ⟨style, style.numberAt first k, indent⟩

theorem countItem_listAt (style : ListStyle) (first indent k : Nat) :
    (style.listAt first indent k).countItem = style.listAt first indent (k + 1) := by
  cases style with
  | bulleted => rfl
  | numbered =>
    have hmin : min (min (first + k) OpenList.maxNumber + 1) OpenList.maxNumber =
        min (first + (k + 1)) OpenList.maxNumber := by omega
    show OpenList.mk _ _ _ = OpenList.mk _ _ _
    rw [show ListStyle.numbered.numberAt first (k + 1) = _ from hmin.symm]
    rfl

/-- The items of a list, where they begin, without those of the lists inside.  So many lists inside
are open before the events. -/
def ownItems : Nat → List (Raised Event) → List (Raised Event)
  | _, [] => []
  | inside, r :: rs =>
    match r.item, inside with
    | .listOpen _, inside => ownItems (inside + 1) rs
    | .listClose, 0 => []
    | .listClose, inside + 1 => ownItems inside rs
    | .itemOpen, 0 => r :: ownItems 0 rs
    | _, inside => ownItems inside rs

theorem ownItems_cons_of_not_isOfList {r : Raised Event} (h : r.item.isOfList = false) (n : Nat)
    (rs : List (Raised Event)) : ownItems n (r :: rs) = ownItems n rs := by
  obtain ⟨e, l⟩ := r
  cases e <;> first | rfl | cases h

theorem ownItems_append_of_not_isOfList {es : List (Raised Event)}
    (h : ∀ r ∈ es, r.item.isOfList = false) (n : Nat) (rs : List (Raised Event)) :
    ownItems n (es ++ rs) = ownItems n rs := by
  induction es with
  | nil => rfl
  | cons r es ih =>
    rw [List.cons_append, ownItems_cons_of_not_isOfList (h r List.mem_cons_self)]
    exact ih fun t ht => h t (List.mem_cons_of_mem r ht)

/-- **Along a path the items of a list are counted one by one**, while lists inside come and go. -/
theorem Path.ownItems {a b : Place} {es : List (Raised Event)} (h : Path a es b) {style : ListStyle}
    {first indent j : Nat} {inner outer : List OpenList}
    (ha : a.lists.lists = inner ++ style.listAt first indent j :: outer) (k : Nat)
    {r : Raised Event} (hr : (Roffdown.ownItems inner.length es)[k]? = some r) :
    r.lists.lists = style.listAt first indent (j + 1 + k) :: outer := by
  induction h generalizing inner j k with
  | nil a => simp [Roffdown.ownItems] at hr
  | cons h _ ih =>
    cases h with
    | plain s he =>
      rw [List.singleton_append,
        ownItems_cons_of_not_isOfList (not_isOfList_of_isPlain he)] at hr
      exact ih ha k hr
    | box s title =>
      rw [ownItems_append_of_not_isOfList] at hr
      · exact ih ha k hr
      · intro t ht
        obtain ⟨e, he, rfl⟩ := List.mem_map.1 ht
        exact not_isOfList_of_mem_box e he
    | fenceOpen | fenceLine | fenceClose =>
      rw [List.singleton_append, ownItems_cons_of_not_isOfList rfl] at hr
      exact ih ha k hr
    | @listOpen l s t h =>
      have ht : t.lists = l :: inner ++ style.listAt first indent j :: outer := by
        rw [OpenLists.opened?_eq_some_iff.1 h, ha, List.cons_append]
      exact ih ht k hr
    | @nextItem s h =>
      cases inner with
      | nil =>
        have hs : s.countItem.lists = style.listAt first indent (j + 1) :: outer := by
          rw [OpenLists.lists_countItem, ha, List.nil_append, List.modifyHead_cons,
            countItem_listAt]
        cases k with
        | zero =>
          cases hr
          exact hs
        | succ k =>
          rw [show j + 1 + (k + 1) = j + 1 + 1 + k by omega]
          exact ih (show _ = [] ++ _ :: outer from hs) k hr
      | cons i inner =>
        have hs : s.countItem.lists =
            i.countItem :: inner ++ style.listAt first indent j :: outer := by
          rw [OpenLists.lists_countItem, ha]
          rfl
        exact ih hs k hr
    | @listClose s h =>
      cases inner with
      | nil => simp [Roffdown.ownItems] at hr
      | cons i inner =>
        have hs : s.closed.lists = inner ++ style.listAt first indent j :: outer := by
          rw [OpenLists.lists_closed, ha]
          rfl
        exact ih hs k hr

/-- Where a list is opened on a path, its first item begins, and the path goes on from there. -/
theorem Path.of_listOpen {a b : Place} {es : List (Raised Event)} (h : Path a es b)
    {before after : List (Raised Event)} {style : ListStyle} {l : OpenLists}
    (he : es = before ++ ⟨.listOpen style, l⟩ :: after) :
    ∃ rest, after = ⟨.itemOpen, l⟩ :: rest ∧ Path ⟨l, false⟩ rest b := by
  induction h generalizing before with
  | nil a => simp at he
  | @cons a b c es fs h hs ih =>
    rcases append_eq_append_cons he with ⟨rest, hes, rfl⟩ | ⟨x, -, hfs⟩
    · have hmem : (⟨.listOpen style, l⟩ : Raised Event) ∈ es := by simp [hes]
      cases h with
      | plain s hp =>
        obtain rfl := (Raised.mk.inj (List.mem_singleton.1 hmem)).1
        cases hp
      | box s title =>
        obtain ⟨e, hm, hr⟩ := List.mem_map.1 hmem
        obtain ⟨rfl, -⟩ := Raised.mk.inj hr
        cases not_isOfList_of_mem_box _ hm
      | @listOpen o s t ht =>
        cases before with
        | nil =>
          obtain ⟨hr, hrest⟩ := List.cons.inj hes
          obtain ⟨-, rfl⟩ := Raised.mk.inj hr
          exact ⟨fs, by rw [← hrest]; rfl, hs⟩
        | cons y before =>
          have hlast := (List.cons.inj hes).2
          cases before <;> simp at hlast
      | _ => simp at hmem
    · exact ih hfs

/-! ## Markers -/

/-- The beginnings of list items after their blanks, with the style and the number of the marker. -/
inductive Markdown.StartsItem : Text → ListStyle → Nat → Prop
  | bullet {c d : Char} (t : Text) (hc : isBullet c) (hd : isIndent d) :
      StartsItem (c :: d :: t) .bulleted 1
  | number {digits : Text} (t : Text) (hne : digits ≠ []) (hd : ∀ c ∈ digits, c.isDigit) :
      StartsItem (digits ++ '.' :: t) .numbered (toNat 10 digits)

/-- A marker shows its number, but no more than the largest. -/
theorem Markdown.startsItem_of_marker? {t : Text} {marker : Marker} (h : marker? t = some marker) :
    ∃ n, StartsItem t marker.style n ∧ marker.number = min n OpenList.maxNumber := by
  cases t with
  | nil => cases h
  | cons c t =>
    rw [marker?] at h
    split at h
    · rename_i hc
      split at h
      · cases h
      · rename_i hb
        cases h
        cases t with
        | nil => exact absurd rfl hb
        | cons d t =>
          by_cases hd : isIndent d
          · exact ⟨1, .bullet t hc hd, rfl⟩
          · exact absurd (List.takeWhile_cons_of_neg hd) hb
    · split at h
      · cases h
      · rename_i after hd hne
        cases h
        refine ⟨_, ?_, rfl⟩
        have ht : c :: t = (c :: t).takeWhile Char.isDigit ++ '.' :: after := by
          rw [← hd, List.takeWhile_append_dropWhile]
        conv => arg 1; rw [ht]
        exact .number after hne (List.all_eq_true.1 List.all_takeWhile)
      · cases h

theorem Markdown.StartsItem.numberAt_zero {t : Text} {style : ListStyle} {n : Nat}
    (h : StartsItem t style n) :
    style.numberAt (min n OpenList.maxNumber) 0 = min n OpenList.maxNumber := by
  cases h with
  | bullet => rfl
  | number =>
    show min (min _ _ + 0) _ = _
    omega

theorem not_isOfList_of_mem_hashLine {line : Text} {e : Event} (h : e ∈ hashLine line) :
    e.isOfList = false := by
  cases hashEvent_of_mem e h <;> rfl

/-- A list is opened before a marker, and begins with what the marker shows. -/
theorem State.exists_marker_of_listOpen {s : State} {style : ListStyle} {l : OpenLists}
    (h : s.Raises ⟨.listOpen style, l⟩) :
    ∃ (blanks t : Text) (value : Nat) (outer : List OpenList), s.input.rest = blanks ++ t ∧
      (∀ c ∈ blanks, isIndent c) ∧ StartsItem t style value ∧
      l.lists = style.listAt (min value OpenList.maxNumber) (indentWidth blanks) 0 :: outer := by
  generalize hr : (⟨.listOpen style, l⟩ : Raised Event) = r at h
  cases h with
  | hashLine he =>
    obtain ⟨rfl, -⟩ := Raised.mk.inj hr
    cases not_isOfList_of_mem_hashLine he
  | @link lead t label target =>
    have hp := isPlain_linkEvent label target
    rw [← (Raised.mk.inj hr).1] at hp
    cases hp
  | @listOpen blanks t marker outer l _ hrest hb hm hl =>
    cases hr
    obtain ⟨value, hstarts, hvalue⟩ := startsItem_of_marker? hm
    refine ⟨blanks, t, value, outer, hrest, hb, hstarts, ?_⟩
    rw [hl, hvalue, ListStyle.listAt, hstarts.numberAt_zero]
  | _ => cases (Raised.mk.inj hr).1

/-! ## The lists of a document -/

theorem Zipper.exists_path (mk : Markup) (z : Zipper) :
    ∃ b, Path ⟨.empty, false⟩ (z.trace.events mk) b := by
  unfold Trace.events
  cases hf : z.trace.failure? with
  | none =>
    obtain ⟨m, hm, -, ht⟩ := exists_reads_of_success hf
    have hb : m.next.FenceIsBare := hm.fenceIsBare (State.fenceIsBare_of_not rfl)
    rw [ht, Raised.events_append]
    exact ⟨_, (State.path_of_reads mk hm).append (State.path_wrapUp hb)⟩
  | some e =>
    obtain ⟨m, hm, -, -, ht⟩ := exists_reads_of_failure hf
    rw [ht]
    exact ⟨_, State.path_of_reads mk hm⟩

/-- No list is opened at the end of the text. -/
theorem Zipper.exists_step_of_listOpen {mk : Markup} {z : Zipper}
    {before after : List (Raised Event)} {style : ListStyle} {l : OpenLists}
    (h : z.trace.events mk = before ++ ⟨.listOpen style, l⟩ :: after) :
    ∃ (m n : Move) (x y : List (Raised Event)), Reads (.initial z) m ∧ m.next.input.rest ≠ [] ∧
      m.next.step = .ok n ∧ before = Raised.events mk m.raised ++ x ∧
      Raised.events mk n.raised = x ++ ⟨.listOpen style, l⟩ :: y := by
  unfold Trace.events at h
  cases hf : z.trace.failure? with
  | none =>
    obtain ⟨m, hm, hend, ht⟩ := exists_reads_of_success hf
    rw [ht, Raised.events_append] at h
    rcases append_eq_append_cons h with ⟨rest, hread, -⟩ | ⟨rest, -, hwrap⟩
    · exact hm.exists_step hread
    · have hmem : (⟨.listOpen style, l⟩ : Raised Event) ∈
          Raised.events mk m.next.wrapUp.raised := by simp [hwrap]
      have hraises := State.raises_of_wrapUp hmem
      obtain ⟨blanks, t, value, outer, hr, -, hs, -⟩ := State.exists_marker_of_listOpen hraises
      rw [hend] at hr
      obtain ⟨-, rfl⟩ := List.append_eq_nil_iff.1 hr.symm
      generalize hnil : ([] : Text) = u at hs
      cases hs with
      | bullet => cases hnil
      | number => simp at hnil
  | some e =>
    obtain ⟨m, hm, -, -, ht⟩ := exists_reads_of_failure hf
    rw [ht] at h
    exact hm.exists_step h

/-- Whether an event is raised where reading stands before a marker, with blanks in front of it:
`value` is the number of the marker as it is written, and `indent` the width of the blanks. -/
def RaisedAtMarker (mk : Markup) (z : Zipper) (before : List (Raised Event)) (r : Raised Event)
    (style : ListStyle) (value indent : Nat) : Prop :=
  ∃ (m n : Move) (x y : List (Raised Event)) (blanks t : Text),
    Reads (.initial z) m ∧ m.next.step = .ok n ∧ before = Raised.events mk m.raised ++ x ∧
      Raised.events mk n.raised = x ++ r :: y ∧ m.next.input.rest = blanks ++ t ∧
      (∀ c ∈ blanks, isIndent c) ∧ indentWidth blanks = indent ∧ StartsItem t style value

/-- **The items of a list count on from its first marker**, for every list that is opened in a
document, also in one that fails later. -/
theorem items_numbered {mk : Markup} {z : Zipper} {before after : List (Raised Event)}
    {style : ListStyle} {l : OpenLists}
    (h : z.trace.events mk = before ++ ⟨.listOpen style, l⟩ :: after) :
    ∃ (value indent : Nat) (outer : List OpenList),
      RaisedAtMarker mk z before ⟨.listOpen style, l⟩ style value indent ∧
      l.lists = style.listAt (min value OpenList.maxNumber) indent 0 :: outer ∧
      ∀ (k : Nat) (r : Raised Event), (ownItems 0 after)[k]? = some r →
        r.lists.lists = style.listAt (min value OpenList.maxNumber) indent k :: outer := by
  obtain ⟨m, n, x, y, hm, hne, hn, hbefore, hy⟩ := z.exists_step_of_listOpen h
  have hmem : (⟨.listOpen style, l⟩ : Raised Event) ∈ Raised.events mk n.raised := by simp [hy]
  have hraises := State.raises_of_rule (State.rule_of_step hne hn) hmem
  obtain ⟨blanks, t, value, outer, hrest, hb, hs, hl⟩ := State.exists_marker_of_listOpen hraises
  refine ⟨value, indentWidth blanks, outer, ?_, hl, ?_⟩
  · exact ⟨m, n, x, y, blanks, t, hm, hn, hbefore, hy, hrest, hb, rfl, hs⟩
  · intro k r hr
    obtain ⟨b, hpath⟩ := z.exists_path mk
    obtain ⟨rest, rfl, hpath⟩ := hpath.of_listOpen h
    cases k with
    | zero =>
      cases hr
      exact hl
    | succ k =>
      have hk := hpath.ownItems (show _ = [] ++ _ :: outer from hl) k hr
      rwa [show 0 + 1 + k = k + 1 by omega] at hk

/-- A list that starts with 3 goes on with 4 after a list inside, whatever the marker shows, in a
document that fails in the end. -/
theorem items_numbered_after_inner_list :
    ∃ after : List (Raised Event),
      (Zipper.start "3. a\n - b\n9. c\n`".toList).trace.events tagMarkup =
        [] ++ ⟨.listOpen .numbered, ⟨[⟨.numbered, 3, 0⟩], by decide⟩⟩ :: after ∧
      (ownItems 0 after)[1]? = some ⟨.itemOpen, ⟨[⟨.numbered, 4, 0⟩], by decide⟩⟩ ∧
      ∃ (value indent : Nat) (outer : List OpenList),
        RaisedAtMarker tagMarkup (.start "3. a\n - b\n9. c\n`".toList) []
          ⟨.listOpen .numbered, ⟨[⟨.numbered, 3, 0⟩], by decide⟩⟩ .numbered value indent ∧
        [⟨.numbered, 3, 0⟩] =
          ListStyle.numbered.listAt (min value OpenList.maxNumber) indent 0 :: outer ∧
        ∀ (k : Nat) (r : Raised Event), (ownItems 0 after)[k]? = some r → r.lists.lists =
          ListStyle.numbered.listAt (min value OpenList.maxNumber) indent k :: outer := by
  have h : (Zipper.start "3. a\n - b\n9. c\n`".toList).trace.events tagMarkup =
      [] ++ ⟨.listOpen .numbered, ⟨[⟨.numbered, 3, 0⟩], by decide⟩⟩ ::
        ((Zipper.start "3. a\n - b\n9. c\n`".toList).trace.events tagMarkup).tail := by
    decide +kernel
  exact ⟨_, h, by decide +kernel, items_numbered h⟩

end Roffdown
