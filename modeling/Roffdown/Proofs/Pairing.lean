import Roffdown.Proofs.RunningText

/-!
# Marks that pair up

Bold and italic are switched on and off along a whole document, across lines, paragraphs and lists,
while the running text they are put into is cut, raised and collapsed.  All marks come out, once
each and in their order: in the record of a document, where they are spelled as tags, they can be
read back, and they pair up as they were put in.

* `tagsOf`, `tagsOf_collapse`: the tags in a text, and that collapsing leaves them.
* `State.marks`: the marks that the steps of a reading put in, with their places.
* `CodePaired`, `Toggles.alternates`: how marks pair up.
* `Zipper.tags_pair_up`: the tags of a document, whatever is in it but tags.
-/

namespace Roffdown

open Markdown Text
open State (Reads)

/-! ## Reading tags -/

/-- The tag that a text begins with. -/
def tag? (t : Text) : Option FontMark :=
  [FontMark.boldOn, .italicOn, .styleOff, .codeOn, .codeOff].find? fun x =>
    (tagMarkup x).isPrefixOf t

/-- The tags in a text. -/
def tagsOf : Text → List FontMark
  | [] => []
  | c :: t => (tag? (c :: t)).toList ++ tagsOf t

theorem tagsOf_mark (x : FontMark) (t : Text) : tagsOf (tagMarkup x ++ t) = x :: tagsOf t := by
  cases x <;> rfl

theorem tag?_cons_of_ne {c : Char} (hc : c ≠ '<') (t : Text) : tag? (c :: t) = none := by
  rw [tag?, List.find?_eq_none]
  intro x _ hx
  obtain ⟨u, hu⟩ := List.isPrefixOf_iff_prefix.1 hx
  cases x <;> exact hc (List.cons.inj hu).1.symm

theorem tagsOf_cons_of_ne {c : Char} (hc : c ≠ '<') (t : Text) : tagsOf (c :: t) = tagsOf t := by
  rw [tagsOf, tag?_cons_of_ne hc]
  rfl

theorem tagsOf_eq_nil {t : Text} (h : '<' ∉ t) : tagsOf t = [] := by
  induction t with
  | nil => rfl
  | cons c t ih =>
    rw [List.mem_cons, not_or] at h
    rw [tagsOf_cons_of_ne (Ne.symm h.1), ih h.2]

/-- The tags are the marks, and no other opening bracket is there, if none is among the
characters. -/
theorem tagsOf_expand {pieces : List Piece} (h : .char '<' ∉ pieces) :
    tagsOf (expand tagMarkup pieces) = marksOf pieces ∧
      (expand tagMarkup pieces).count '<' = (marksOf pieces).length := by
  induction pieces with
  | nil => exact ⟨rfl, rfl⟩
  | cons p pieces ih =>
    rw [List.mem_cons, not_or] at h
    obtain ⟨htags, hcount⟩ := ih h.2
    cases p with
    | char c =>
      have hc : c ≠ '<' := fun he => h.1 (by rw [he])
      have hexpand : expand tagMarkup (.char c :: pieces) = c :: expand tagMarkup pieces := rfl
      rw [hexpand, tagsOf_cons_of_ne hc, List.count_cons_of_ne hc]
      exact ⟨htags, hcount⟩
    | mark x =>
      have hexpand : expand tagMarkup (.mark x :: pieces) =
          tagMarkup x ++ expand tagMarkup pieces := rfl
      have hone : (tagMarkup x).count '<' = 1 := by cases x <;> rfl
      rw [hexpand, tagsOf_mark, List.count_append, hone, htags, hcount, Nat.add_comm]
      exact ⟨rfl, rfl⟩

theorem solid_tagMarkup : tagMarkup.Solid :=
  Markup.solid_of_all fun x => by cases x <;> decide

/-- Collapsing leaves the tags. -/
theorem tagsOf_collapse {pieces : List Piece} (h : .char '<' ∉ pieces) :
    tagsOf (collapse (expand tagMarkup pieces)) = marksOf pieces ∧
      (collapse (expand tagMarkup pieces)).count '<' = (marksOf pieces).length := by
  obtain ⟨left, hleft, hshown⟩ := exists_collapse_expand solid_tagMarkup pieces
  have hmarks : marksOf left = marksOf pieces := by
    rw [← marksOf_filter_isShown, hshown, marksOf_filter_isShown]
  have hchar : .char '<' ∉ left := by
    intro hl
    have hmem : .char '<' ∈ left.filter Piece.isShown := List.mem_filter.2 ⟨hl, by decide⟩
    rw [hshown] at hmem
    exact h (List.mem_filter.1 hmem).1
  rw [hleft, ← hmarks]
  exact tagsOf_expand hchar

/-! ## Marks and their places -/

namespace State

/-- The marks that the steps of a reading put into the running text, each with the place of the
step. -/
def marks (s : State) : List (FontMark × Zipper) :=
  if _ : s.input.rest = [] then []
  else
    match _ : s.step with
    | .error _ => []
    | .ok m => (marksOf (m.put s)).map (·, s.input) ++ m.next.marks
termination_by s.input.rest.length
decreasing_by exact length_rest_step ‹_› ‹_›

variable {s : State} {m : Move}

theorem marks_of_end (h : s.input.rest = []) : s.marks = [] := by
  rw [marks, dif_pos h]

theorem marks_of_error {e : UnclosedCode} (hs : s.input.rest ≠ []) (h : s.step = .error e) :
    s.marks = [] := by
  rw [marks, dif_neg hs]
  split
  · rfl
  · simp_all

theorem marks_of_step (hs : s.input.rest ≠ []) (h : s.step = .ok m) :
    s.marks = (marksOf (m.put s)).map (·, s.input) ++ m.next.marks := by
  rw [marks, dif_neg hs]
  split
  · simp_all
  · rename_i n hn
    obtain rfl : m = n := by simpa [h] using hn
    rfl

/-- A reading to the end puts in the marks of its steps. -/
theorem Reads.marks_eq (h : Reads s m) (hend : m.next.input.rest = []) :
    s.marks.map Prod.fst = marksOf (m.put s) := by
  induction h with
  | stop s =>
    rw [marks_of_end (s := s) hend]
    simp [Move.put, Move.taken]
  | step hs hm hn ih =>
    rw [marks_of_step hs hm, List.map_append, ih hend, put_andThen (reads_of_step hs hm) hn,
      marksOf_append]
    simp [Function.comp_def]

theorem boundary_of_puts {z : Zipper} {bold italic bold' italic' : Bool} {pieces : List Piece}
    (h : z.Puts bold italic pieces bold' italic') {x : FontMark} (hx : x ∈ marksOf pieces)
    (ho : x.opens) : z.AtDelimiter ∧ z.previous?.all isBoundary := by
  cases h with
  | chars => simp at hx
  | code =>
    rw [marksOf_codePieces] at hx
    rcases List.mem_pair.1 hx with rfl | rfl <;> cases ho
  | boldOn hz hb => exact ⟨hz, hb⟩
  | italicOn hz hb => exact ⟨hz, hb⟩
  | boldOff =>
    obtain rfl := List.mem_singleton.1 hx
    cases ho
  | italicOff =>
    obtain rfl := List.mem_singleton.1 hx
    cases ho

/-- **Emphasis begins at a delimiter** that stands after a boundary, or where the text begins. -/
theorem boundary_of_mem_marks {x : FontMark} {w : Zipper} (h : (x, w) ∈ s.marks) (ho : x.opens) :
    w.source = s.input.source ∧ w.AtDelimiter ∧ w.previous?.all isBoundary := by
  induction hn : s.input.rest.length using Nat.strongRecOn generalizing s with
  | ind n ih =>
    subst hn
    by_cases hs : s.input.rest = []
    · rw [marks_of_end hs] at h
      cases h
    cases hm : s.step with
    | error e =>
      rw [marks_of_error hs hm] at h
      cases h
    | ok m =>
      rw [marks_of_step hs hm] at h
      rcases List.mem_append.1 h with h | h
      · obtain ⟨y, hy, he⟩ := List.mem_map.1 h
        obtain ⟨rfl, rfl⟩ := Prod.mk.inj he
        exact ⟨rfl, boundary_of_puts (writes_of_step hs hm).puts hy ho⟩
      · obtain ⟨n, hadvance⟩ := exists_advance_of_rule (rule_of_step hs hm)
        obtain ⟨hsource, hplace⟩ := ih _ (length_rest_step hm hs) h rfl
        exact ⟨by rw [hsource, hadvance, Zipper.source_advance], hplace⟩

end State

/-! ## Inline code -/

/-- Marks among which every beginning of code is followed by its end. -/
inductive CodePaired : List FontMark → Prop
  | nil : CodePaired []
  | style {x : FontMark} {l : List FontMark} (hx : x ≠ .codeOn ∧ x ≠ .codeOff)
      (h : CodePaired l) : CodePaired (x :: l)
  | code {l : List FontMark} (h : CodePaired l) : CodePaired (.codeOn :: .codeOff :: l)

theorem CodePaired.append {a b : List FontMark} (ha : CodePaired a) (hb : CodePaired b) :
    CodePaired (a ++ b) := by
  induction ha with
  | nil => exact hb
  | style hx _ ih => exact .style hx ih
  | code _ ih => exact .code ih

theorem codePaired_of_puts {z : Zipper} {bold italic bold' italic' : Bool} {pieces : List Piece}
    (h : z.Puts bold italic pieces bold' italic') : CodePaired (marksOf pieces) := by
  cases h with
  | chars => rw [marksOf_chars]; exact .nil
  | code => rw [marksOf_codePieces]; exact .code .nil
  | _ => exact .style (by decide) .nil

/-- **Inline code is never cut**: in what is raised and in what waits it is whole. -/
theorem State.Reads.codePaired {s : State} {m : Move} (h : Reads s m)
    (hheld : CodePaired (marksOf s.buffer.held)) (hline : CodePaired (marksOf s.buffer.line)) :
    (∀ p ∈ Raised.parts m.raised, CodePaired (marksOf p)) ∧
      CodePaired (marksOf m.next.buffer.held) ∧ CodePaired (marksOf m.next.buffer.line) := by
  induction h with
  | stop s => exact ⟨List.forall_mem_nil _, hheld, hline⟩
  | step hs hm _ ih =>
    have hw := State.writes_of_step hs hm
    have happ (p q : List Piece) (hp : CodePaired (marksOf p)) (hq : CodePaired (marksOf q)) :
        CodePaired (marksOf (p ++ q)) := by
      rw [marksOf_append]
      exact hp.append hq
    obtain ⟨hparts, hheld, hline⟩ := hw.onBuffer.forall_parts (Q := fun p => CodePaired (marksOf p))
      happ .nil hheld hline (codePaired_of_puts hw.puts)
    obtain ⟨hlater, hend⟩ := ih hheld hline
    refine ⟨fun p hp => ?_, hend⟩
    rw [Move.raised_andThen, Raised.parts_append] at hp
    exact (List.mem_append.1 hp).elim (hparts p) (hlater p)

theorem Zipper.codePaired_of_mem_parts {z : Zipper} (h : z.trace.failure? = none) :
    ∀ p ∈ Raised.parts z.trace.raised, CodePaired (marksOf p) := by
  obtain ⟨m, hm, -, ht⟩ := exists_reads_of_success h
  obtain ⟨hparts, hheld, hline⟩ := hm.codePaired .nil .nil
  intro p hp
  rw [ht, Raised.parts_append, State.parts_wrapUp] at hp
  rcases List.mem_append.1 hp with hp | hp
  · exact hparts p hp
  · obtain rfl := List.mem_singleton.1 (List.mem_filter.1 hp).1
    rw [Buffer.all_eq, marksOf_append]
    exact hheld.append hline

/-! ## Bold and italic -/

/-- Whether a mark begins or ends bold or italic. -/
def FontMark.isStyle : FontMark → Bool
  | .codeOn | .codeOff => false
  | _ => true

namespace Toggles

variable {l : List FontMark} {bold italic : Bool}

/-- Inline code does not matter to bold and italic. -/
theorem styles (h : Toggles l bold italic) :
    Toggles (l.filter FontMark.isStyle) bold italic := by
  induction h with
  | nil => exact .nil
  | code _ ih => rw [List.filter_append]; exact (List.append_nil _).symm ▸ ih
  | boldOn _ ih => rw [List.filter_append]; exact ih.boldOn
  | boldOff _ ih => rw [List.filter_append]; exact ih.boldOff
  | italicOn _ ih => rw [List.filter_append]; exact ih.italicOn
  | italicOff _ ih => rw [List.filter_append]; exact ih.italicOff

/-- Up to any place, bold and italic have been switched one after the other as well. -/
theorem exists_of_prefix (h : Toggles l bold italic) (hl : ∀ x ∈ l, x.isStyle)
    {p : List FontMark} (hp : p <+: l) : ∃ bold' italic', Toggles p bold' italic' := by
  have hlast {l : List FontMark} {x : FontMark} {bold italic : Bool}
      (h : Toggles (l ++ [x]) bold italic) (hp : p <+: l ++ [x])
      (ih : p <+: l → ∃ bold' italic', Toggles p bold' italic') :
      ∃ bold' italic', Toggles p bold' italic' := by
    rcases List.prefix_concat_iff.1 hp with rfl | hp
    · exact ⟨bold, italic, h⟩
    · exact ih hp
  have hleft {a b : List FontMark} (h : ∀ x ∈ a ++ b, x.isStyle) : ∀ x ∈ a, x.isStyle :=
    fun x hx => h x (List.mem_append_left b hx)
  induction h with
  | nil => exact ⟨false, false, List.prefix_nil.1 hp ▸ .nil⟩
  | code => cases hl .codeOn (by simp)
  | boldOn h ih => exact hlast h.boldOn hp (ih (hleft hl))
  | boldOff h ih => exact hlast h.boldOff hp (ih (hleft hl))
  | italicOn h ih => exact hlast h.italicOn hp (ih (hleft hl))
  | italicOff h ih => exact hlast h.italicOff hp (ih (hleft hl))

end Toggles

/-- A mark stands in a list as often as one likes, but an end is between any two of them, and after
the last when it is off. -/
structure Alternates (x : FontMark) (l : List FontMark) (on : Bool) : Prop where
  between : ∀ a b c, l = a ++ x :: b ++ x :: c → .styleOff ∈ b
  after : on = false → ∀ a b, l = a ++ x :: b → .styleOff ∈ b

namespace Alternates

variable {x y : FontMark} {l : List FontMark} {on : Bool}

/-- Another mark put after them. -/
theorem other (h : Alternates x l on) (hy : y ≠ x) : Alternates x (l ++ [y]) on where
  between := by
    intro a b c he
    rcases concat_eq_append_cons he with ⟨-, hyx⟩ | ⟨d, -, hl⟩
    · exact absurd hyx hy
    · exact h.between a b d hl
  after := by
    intro hon a b he
    rcases concat_eq_append_cons he with ⟨-, hyx⟩ | ⟨d, rfl, hl⟩
    · exact absurd hyx hy
    · exact List.mem_append_left _ (h.after hon a d hl)

/-- The mark itself, when it is off. -/
theorem begins (h : Alternates x l false) : Alternates x (l ++ [x]) true where
  between := by
    intro a b c he
    rcases concat_eq_append_cons he with ⟨hl, -⟩ | ⟨d, -, hl⟩
    · exact h.after rfl a b hl
    · exact h.between a b d hl
  after := fun hon => absurd hon (by decide)

theorem ends (h : Alternates x l on) (hx : x ≠ .styleOff) (on' : Bool) :
    Alternates x (l ++ [.styleOff]) on' where
  between := (h.other hx.symm).between
  after := by
    intro _ a b he
    rcases concat_eq_append_cons he with ⟨-, hyx⟩ | ⟨d, rfl, -⟩
    · exact absurd hyx.symm hx
    · exact List.mem_append_right _ List.mem_cons_self

end Alternates

/-- **Bold does not begin twice, nor does italic**, without an end between. -/
theorem Toggles.alternates {l : List FontMark} {bold italic : Bool} (h : Toggles l bold italic) :
    Alternates .boldOn l bold ∧ Alternates .italicOn l italic := by
  have hnil (x : FontMark) : Alternates x [] false :=
    ⟨fun a b c he => absurd he (by simp), fun _ a b he => absurd he (by simp)⟩
  induction h with
  | nil => exact ⟨hnil _, hnil _⟩
  | @code l _ _ _ ih =>
    rw [List.append_cons l .codeOn [.codeOff]]
    exact ⟨(ih.1.other (by decide)).other (by decide), (ih.2.other (by decide)).other (by decide)⟩
  | boldOn _ ih => exact ⟨ih.1.begins, ih.2.other (by decide)⟩
  | boldOff _ ih => exact ⟨ih.1.ends (by decide) _, ih.2.ends (by decide) _⟩
  | italicOn _ ih => exact ⟨ih.1.other (by decide), ih.2.begins⟩
  | italicOff _ ih => exact ⟨ih.1.ends (by decide) _, ih.2.ends (by decide) _⟩

/-! ## Documents -/

/-- The lines of text and the titles among what is raised, with the marks as tags. -/
def Raised.shown (signals : List (Raised Signal)) : List Text :=
  (Raised.events tagMarkup signals).filterMap fun r => r.item.line?

/-- The lines of text and the titles in the record of a document. -/
def Zipper.shown (z : Zipper) : List Text := Raised.shown z.trace.raised

/-- A text without tags but those of its marks, if any text is shown. -/
theorem Raised.shown_singleton {r : Raised Signal} (hpieces : .char '<' ∉ r.item.pieces)
    (hevent : ∀ e t, r.item = .event e → e.line? = some t → '<' ∉ t) :
    (shown [r] = [] ∧ marksOf r.item.pieces = []) ∨
      ∃ t, shown [r] = [t] ∧ tagsOf t = marksOf r.item.pieces ∧
        t.count '<' = (tagsOf t).length := by
  have hcollapse {p : List Piece} (hp : .char '<' ∉ p) (h : collapse (expand tagMarkup p) = []) :
      marksOf p = [] := by
    rw [← (tagsOf_collapse hp).1, h]
    rfl
  obtain ⟨signal, lists⟩ := r
  rw [shown, Raised.events_singleton]
  cases signal with
  | text p =>
    rw [Signal.event?_text]
    split
    · exact .inl ⟨rfl, hcollapse hpieces ‹_›⟩
    · obtain ⟨htags, hcount⟩ := tagsOf_collapse hpieces
      exact .inr ⟨_, rfl, htags, hcount.trans (congrArg List.length htags.symm)⟩
  | title p =>
    rw [Signal.event?_title]
    split
    · exact .inl ⟨rfl, hcollapse hpieces ‹_›⟩
    · obtain ⟨htags, hcount⟩ := tagsOf_collapse hpieces
      exact .inr ⟨_, rfl, htags, hcount.trans (congrArg List.length htags.symm)⟩
  | event e =>
    cases ht : e.line? with
    | none => exact .inl ⟨by simp [Signal.event?, ht], rfl⟩
    | some t =>
      have htags := tagsOf_eq_nil (hevent e t rfl ht)
      refine .inr ⟨t, by simp [Signal.event?, ht], htags, ?_⟩
      rw [htags, List.count_eq_zero.2 (hevent e t rfl ht)]
      rfl

section

variable {signals : List (Raised Signal)} (hpieces : ∀ r ∈ signals, .char '<' ∉ r.item.pieces)
  (hevent : ∀ r ∈ signals, ∀ e t, r.item = .event e → e.line? = some t → '<' ∉ t)

include hpieces hevent

theorem Raised.tagsOf_shown :
    (shown signals).flatMap tagsOf = marksOf (signals.flatMap fun r => r.item.pieces) := by
  induction signals with
  | nil => rfl
  | cons r signals ih =>
    obtain ⟨hfirst, hothers⟩ := List.forall_mem_cons.1 hpieces
    obtain ⟨hevent, hevents⟩ := List.forall_mem_cons.1 hevent
    have happend : shown (r :: signals) = shown [r] ++ shown signals := by
      rw [shown, ← List.singleton_append, Raised.events_append, List.filterMap_append]
      rfl
    rw [happend, List.flatMap_append, List.flatMap_cons, marksOf_append, ih hothers hevents]
    congr 1
    rcases shown_singleton hfirst hevent with ⟨hnone, hmarks⟩ | ⟨t, ht, htags, -⟩
    · rw [hnone, hmarks]
      rfl
    · rw [ht, List.flatMap_singleton, htags]

theorem Raised.exists_of_mem_shown {t : Text} (ht : t ∈ shown signals) :
    ∃ r ∈ signals, tagsOf t = marksOf r.item.pieces ∧ t.count '<' = (tagsOf t).length := by
  obtain ⟨e, he, hline⟩ := List.mem_filterMap.1 ht
  obtain ⟨r, hr, he⟩ := List.mem_filterMap.1 he
  have hmem : t ∈ shown [r] :=
    List.mem_filterMap.2 ⟨e, List.mem_filterMap.2 ⟨r, List.mem_singleton_self r, he⟩, hline⟩
  rcases shown_singleton (hpieces r hr) (hevent r hr) with ⟨hnone, -⟩ | ⟨u, hu, htags⟩
  · rw [hnone] at hmem
    cases hmem
  · rw [hu] at hmem
    obtain rfl := List.mem_singleton.1 hmem
    exact ⟨r, hr, htags⟩

end

/-- The tags in the record of a document are its marks, and they pair up. -/
structure Zipper.TagsPairUp (z : Zipper) : Prop where
  /-- No tag is lost, split or doubled. -/
  tags_eq : z.shown.flatMap tagsOf = (State.initial z).marks.map Prod.fst
  count_eq : ∀ t ∈ z.shown, t.count '<' = (tagsOf t).length
  codePaired : ∀ t ∈ z.shown, CodePaired (tagsOf t)
  /-- Up to any place, bold and italic have ended no more often than they began, and no more than
  two are on. -/
  counts : ∀ p, p <+: (z.shown.flatMap tagsOf).filter FontMark.isStyle →
    closeCount p ≤ openCount p ∧ openCount p ≤ closeCount p + 2
  alternates : ∀ x, x = .boldOn ∨ x = .italicOn → ∀ a b c,
    (z.shown.flatMap tagsOf).filter FontMark.isStyle = a ++ x :: b ++ x :: c → .styleOff ∈ b
  boundary : ∀ x w, (x, w) ∈ (State.initial z).marks → x.opens →
    w.source = z.source ∧ w.AtDelimiter ∧ w.previous?.all isBoundary
  stillOn : ∃ s, (State.initial z).scan.stop = .ok s ∧
    openCount (z.shown.flatMap tagsOf) =
      closeCount (z.shown.flatMap tagsOf) + s.bold.toNat + s.italic.toNat

/-- **The tags in the record of a document pair up**, if no opening bracket is in the text that
could begin another. -/
theorem Zipper.tags_pair_up {z : Zipper} (hz : '<' ∉ z.rest) (h : z.trace.failure? = none) :
    z.TagsPairUp := by
  obtain ⟨m, hm, hend, -⟩ := exists_reads_of_success h
  have hparts := flatten_parts_trace hm hend
  rw [Raised.flatten_parts] at hparts
  have hpieces : ∀ r ∈ z.trace.raised, .char '<' ∉ r.item.pieces := by
    intro r hr hc
    have hput : .char '<' ∈ m.put (.initial z) := hparts ▸ List.mem_flatMap.2 ⟨r, hr, hc⟩
    exact (hm.mem_put hput).elim hz (by decide)
  have hevent : ∀ r ∈ z.trace.raised, ∀ e t, r.item = .event e → e.line? = some t → '<' ∉ t :=
    fun r hr e t he ht hc => hz (quotes_of_trace h r hr e he t ht _ hc)
  have htags : z.shown.flatMap tagsOf = marksOf (m.put (.initial z)) := by
    rw [shown, Raised.tagsOf_shown hpieces hevent, hparts]
  have htoggles : Toggles (z.shown.flatMap tagsOf) m.next.bold m.next.italic := by
    rw [htags]
    exact Toggles.nil.reads hm
  have hof {t : Text} (ht : t ∈ z.shown) := Raised.exists_of_mem_shown hpieces hevent ht
  constructor
  case tags_eq => rw [htags, hm.marks_eq hend]
  case count_eq =>
    intro t ht
    obtain ⟨r, -, -, hcount⟩ := hof ht
    exact hcount
  case codePaired =>
    intro t ht
    obtain ⟨r, hr, htags, -⟩ := hof ht
    rw [htags]
    by_cases hempty : r.item.pieces = []
    · rw [hempty]
      exact .nil
    · refine codePaired_of_mem_parts h _ (List.mem_filter.2 ⟨List.mem_map_of_mem hr, ?_⟩)
      simpa using hempty
  case counts =>
    intro p hp
    have hstyle : ∀ x ∈ (z.shown.flatMap tagsOf).filter FontMark.isStyle, x.isStyle :=
      fun x hx => (List.mem_filter.1 hx).2
    obtain ⟨bold, italic, hprefix⟩ := htoggles.styles.exists_of_prefix hstyle hp
    have hcount := hprefix.openCount_eq
    have hbold := bold.toNat_le
    have hitalic := italic.toNat_le
    omega
  case alternates =>
    obtain ⟨hbold, hitalic⟩ := htoggles.styles.alternates
    rintro x (rfl | rfl)
    · exact hbold.between
    · exact hitalic.between
  case boundary => exact fun x w => State.boundary_of_mem_marks
  case stillOn =>
    refine ⟨m.next, ?_, htoggles.openCount_eq⟩
    rw [State.scan_of_reads hm, State.scan_of_end hend]
    rfl

/-- Emphasis that overlaps, across a section title, and is not all ended. -/
theorem Zipper.tags_pair_up_overlapping :
    let z : Zipper := .start "**a _b\n---\n- c** \x60d  e\x60 __f\n\n*g".toList
    z.TagsPairUp ∧ z.shown = ["<B>a <I>b".toList, "c</><C>d e</C><B>f".toList, "</>g".toList] := by
  intro z
  exact ⟨tags_pair_up (by decide +kernel) (by decide +kernel), by decide +kernel⟩

end Roffdown
