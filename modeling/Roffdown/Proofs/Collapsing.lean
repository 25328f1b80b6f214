import Roffdown.Text.Collapse

/-!
# What collapsing makes of a text

`collapse` passes over a text once, and knows no more of it than the last character that was not
blank and whether blanks have followed.  Seen from the places of the text, it makes the one text
that has the same characters but for blanks, no blanks at its ends, and between two neighbours a
single space or nothing.

* `Text.GapAt`: the blanks between a character and the next that is not blank.
* `Text.Collapsed`: a text collapsed, told by its gaps.
* `Text.eq_of_gapAt`: a text without blanks at its ends is told by its other characters and its
  gaps.
* `Text.collapsed_iff`: the text that is collapsed is the one that `collapse` makes.
* `Text.collapse_eq_self_iff`: the texts that collapsing leaves as they are, by the places of their
  blanks.
-/

namespace Roffdown.Text

/-! ## Gaps -/

/-- The characters of a text that are not blank. -/
def solid (t : Text) : Text := t.filter fun c => !isBlank c

/-- In a text, `p` is the `n`-th character that is not blank, counted from 0; after it come blanks,
and then `q`, the next one that is not. -/
inductive GapAt (t : Text) (n : Nat) (p : Char) (blanks : Text) (q : Char) : Prop
  | intro (before after : Text) (ht : t = before ++ p :: (blanks ++ q :: after))
      (hn : (solid before).length = n) (hp : isBlank p = false) (hb : ∀ c ∈ blanks, isBlank c)
      (hq : isBlank q = false)

/-- A text begins and ends with no blank, so it is empty if it is all blanks. -/
structure Trimmed (t : Text) : Prop where
  head : ∀ c ∈ t.head?, isBlank c = false
  last : ∀ c ∈ t.getLast?, isBlank c = false

/-- A text `y` is what is left of `x` when its blanks are collapsed. -/
structure Collapsed (x y : Text) : Prop where
  solid_eq : solid y = solid x
  trimmed : Trimmed y
  /-- Of the blanks between two characters a single space is left if one of the two is an ASCII
  letter or digit, and else nothing. -/
  gap : ∀ n p blanks q, GapAt x n p blanks q →
    GapAt y n p (if blanks ≠ [] ∧ (isWordChar p ∨ isWordChar q) then [' '] else []) q

@[simp] theorem solid_append (s t : Text) : solid (s ++ t) = solid s ++ solid t :=
  List.filter_append s t

section

variable {c p q p' q' : Char} {t x y z blanks blanks' : Text} {n : Nat}

theorem solid_cons_of_not_blank (h : isBlank c = false) (t : Text) :
    solid (c :: t) = c :: solid t :=
  List.filter_cons_of_pos (by simp [h])

theorem solid_eq_nil_iff : solid t = [] ↔ ∀ c ∈ t, isBlank c := by
  simp [solid, List.filter_eq_nil_iff]

/-- The place of a character that is not blank is told by how many of its kind stand before it. -/
theorem append_cons_inj_of_solid {a b a' b' : Text} (h : a ++ p :: b = a' ++ p' :: b')
    (hp : isBlank p = false) (hp' : isBlank p' = false)
    (hn : (solid a).length = (solid a').length) : a = a' ∧ p = p' ∧ b = b' := by
  have hlonger {a e : Text} {d : Char} (hd : isBlank d = false) :
      (solid a).length ≠ (solid (a ++ d :: e)).length := by
    rw [solid_append, solid_cons_of_not_blank hd, List.length_append, List.length_cons]
    omega
  rcases List.append_eq_append_iff.1 h with ⟨e, rfl, he⟩ | ⟨e, rfl, he⟩
  · cases e with
    | nil => simpa using he
    | cons d e =>
      obtain ⟨rfl, -⟩ := List.cons.inj he
      exact absurd hn (hlonger hp)
  · cases e with
    | nil => simpa [eq_comm] using he
    | cons d e =>
      obtain ⟨rfl, -⟩ := List.cons.inj he
      exact absurd hn.symm (hlonger hp')

/-- A gap is told by its place. -/
theorem GapAt.unique (h : GapAt t n p blanks q) (h' : GapAt t n p' blanks' q') :
    blanks = blanks' := by
  obtain ⟨before, after, rfl, rfl, hp, hb, hq⟩ := h
  obtain ⟨before', after', ht, hn, hp', hb', hq'⟩ := h'
  obtain ⟨-, -, hrest⟩ := append_cons_inj_of_solid ht hp hp' hn.symm
  have hnone : (solid blanks).length = (solid blanks').length := by
    rw [solid_eq_nil_iff.2 hb, solid_eq_nil_iff.2 hb']
  exact (append_cons_inj_of_solid hrest hq hq' hnone).1

/-- Two characters that are not blank and have none of their kind between them have a gap. -/
theorem exists_gapAt_iff : (∃ blanks, GapAt t n p blanks q) ↔
    ∃ u v, solid t = u ++ p :: q :: v ∧ u.length = n := by
  constructor
  · rintro ⟨blanks, before, after, rfl, hn, hp, hb, hq⟩
    refine ⟨solid before, solid after, ?_, hn⟩
    rw [solid_append, solid_cons_of_not_blank hp, solid_append, solid_eq_nil_iff.2 hb,
      List.nil_append, solid_cons_of_not_blank hq]
  · rintro ⟨u, v, ht, hn⟩
    obtain ⟨b, t, rfl, hb, ht⟩ := List.filter_eq_append_iff.1 ht
    obtain ⟨g, t, rfl, hg, hp, ht⟩ := List.filter_eq_cons_iff.1 ht
    obtain ⟨blanks, after, rfl, hblanks, hq, -⟩ := List.filter_eq_cons_iff.1 ht
    simp only [Bool.not_eq_true, Bool.not_eq_false'] at hg hblanks
    refine ⟨blanks, b ++ g, after, by simp, ?_, by simpa using hp, hblanks, by simpa using hq⟩
    rw [solid_append, solid_eq_nil_iff.2 hg, List.append_nil, ← hn]
    exact congrArg List.length hb

theorem GapAt.exists_of_solid (h : GapAt y n p blanks q) (hs : solid y = solid x) :
    ∃ blanks', GapAt x n p blanks' q := by
  rw [exists_gapAt_iff, ← hs, ← exists_gapAt_iff]
  exact ⟨blanks, h⟩

/-! ## Texts with the same gaps -/

theorem Trimmed.eq_nil (h : Trimmed t) (hs : solid t = []) : t = [] := by
  cases t with
  | nil => rfl
  | cons c t =>
    have hc := solid_eq_nil_iff.1 hs c List.mem_cons_self
    rw [h.head c rfl] at hc
    cases hc

/-- Nothing but blanks after the last of its other characters: then there are no blanks. -/
theorem Trimmed.after_eq_nil {u : Text} (h : Trimmed (u ++ p :: t)) (hs : solid t = []) :
    t = [] := by
  rcases List.eq_nil_or_concat t with rfl | ⟨t, c, rfl⟩
  · rfl
  · have hc := solid_eq_nil_iff.1 hs c (by simp)
    rw [h.last c (by simp [List.getLast?_cons])] at hc
    cases hc

/-- Texts with the same gaps that are the same up to a character are the same after it. -/
theorem eq_of_gapAt_after (hy : Trimmed y) (hz : Trimmed z)
    (hgap : ∀ n p blanks q, GapAt y n p blanks q → GapAt z n p blanks q) {u t t' : Text}
    (hyt : y = u ++ p :: t) (hzt : z = u ++ p :: t') (hp : isBlank p = false)
    (hs : solid t = solid t') : t = t' := by
  induction hlen : t.length using Nat.strongRecOn generalizing u p t t' with
  | ind k ih =>
    subst hlen
    cases ht : solid t with
    | nil =>
      rw [hyt] at hy
      rw [hzt] at hz
      rw [hy.after_eq_nil ht, hz.after_eq_nil (hs.symm.trans ht)]
    | cons q w =>
      obtain ⟨blanks, after, rfl, hb, hq, -⟩ := List.filter_eq_cons_iff.1 ht
      simp only [Bool.not_eq_true, Bool.not_eq_false'] at hb hq
      obtain ⟨before, after', hzg, hn, -, -, -⟩ :=
        hgap _ p blanks q ⟨u, after, hyt, rfl, hp, hb, by simpa using hq⟩
      obtain ⟨rfl, -, rfl⟩ := append_cons_inj_of_solid (hzt.symm.trans hzg) hp hp hn.symm
      have hq' : isBlank q = false := by simpa using hq
      have hafter : solid after = solid after' := by
        simpa [solid_cons_of_not_blank hq'] using hs
      rw [ih after.length (by simp; omega) (u := u ++ p :: blanks) (p := q) (by simp [hyt])
        (by simp [hzg]) hq' hafter rfl]

/-- **A text without blanks at its ends is told by its other characters and its gaps.** -/
theorem eq_of_gapAt (hs : solid y = solid z) (hy : Trimmed y) (hz : Trimmed z)
    (hgap : ∀ n p blanks q, GapAt y n p blanks q → GapAt z n p blanks q) : y = z := by
  cases y with
  | nil => exact (hz.eq_nil hs.symm).symm
  | cons p t =>
    have hp := hy.head p rfl
    rw [solid_cons_of_not_blank hp] at hs
    cases z with
    | nil => cases hs
    | cons p' t' =>
      rw [solid_cons_of_not_blank (hz.head p' rfl)] at hs
      obtain ⟨rfl, htail⟩ := List.cons.inj hs
      rw [eq_of_gapAt_after hy hz hgap (u := []) rfl rfl hp htail]

/-! ## What `collapse` makes -/

theorem not_blank_of_mem_getLast?_collapseAfter (blank : Bool) (t : Text) :
    ∀ d ∈ (collapseAfter c blank t).getLast?, isBlank d = false := by
  induction t generalizing c blank with
  | nil => simp [collapseAfter]
  | cons x t ih =>
    rw [collapseAfter]
    split
    · exact ih true
    · rename_i hx
      intro d hd
      rw [List.getLast?_append, List.getLast?_cons, Option.some_or, Option.mem_some_iff] at hd
      cases hl : (collapseAfter x false t).getLast? with
      | none =>
        rw [hl] at hd
        subst hd
        exact Bool.eq_false_iff.2 hx
      | some e =>
        rw [hl] at hd
        subst hd
        exact ih false _ hl

theorem trimmed_collapse (t : Text) : Trimmed (collapse t) := by
  induction t with
  | nil => exact ⟨by simp, by simp⟩
  | cons c t ih =>
    by_cases hc : isBlank c
    · rwa [collapse_cons_of_blank hc]
    · rw [Bool.not_eq_true] at hc
      rw [collapse_cons_of_not_blank hc]
      refine ⟨by simpa using hc, fun d hd => ?_⟩
      -- What is left after a character does not depend on what stands before it.
      have hafter := not_blank_of_mem_getLast?_collapseAfter (c := c) false (c :: t) d
      rw [collapseAfter, hc] at hafter
      exact hafter hd

theorem collapseAfter_blanks_append (hb : ∀ c ∈ blanks, isBlank c) (p : Char) (blank : Bool)
    (t : Text) :
    collapseAfter p blank (blanks ++ t) = collapseAfter p (blank || !blanks.isEmpty) t := by
  induction blanks generalizing blank with
  | nil => simp
  | cons c blanks ih =>
    obtain ⟨hc, hb⟩ := List.forall_mem_cons.1 hb
    rw [List.cons_append, collapseAfter, if_pos hc, ih hb]
    simp

/-- What is left of the blanks between two characters. -/
theorem collapseAfter_gap (hb : ∀ c ∈ blanks, isBlank c) (hq : isBlank q = false) (t : Text) :
    collapseAfter p false (blanks ++ q :: t) =
      (if blanks ≠ [] ∧ (isWordChar p ∨ isWordChar q) then [' '] else []) ++
        q :: collapseAfter q false t := by
  rw [collapseAfter_blanks_append hb, collapseAfter, hq, if_neg Bool.false_ne_true]
  cases blanks with
  | nil => simp
  | cons c blanks => simp [gap]

theorem collapsed_collapse (x : Text) : Collapsed x (collapse x) where
  solid_eq := filter_collapse x
  trimmed := trimmed_collapse x
  gap := by
    rintro n p blanks q ⟨before, after, rfl, rfl, hp, hb, hq⟩
    obtain ⟨u, hu⟩ := exists_collapse_append hp before
    have hsolid : solid u = solid before := by
      have h := filter_collapse (before ++ [p])
      rw [hu] at h
      have h' : solid u ++ solid [p] = solid before ++ solid [p] := by
        rw [← solid_append, ← solid_append]
        exact h
      exact List.append_cancel_right h'
    refine ⟨u, collapseAfter q false after, ?_, by rw [hsolid], hp, ?_, hq⟩
    · rw [collapse_append_cons hp, hu, collapseAfter_gap hb hq, List.append_assoc,
        List.singleton_append]
    · intro c hc
      split at hc
      · rw [List.mem_singleton.1 hc]
        rfl
      · cases hc

/-! ## The places of blanks -/

theorem mem_blankIndexes_iff :
    n ∈ blankIndexes t ↔ ∃ y c z, t = y ++ c :: z ∧ y.length = n ∧ isBlank c := by
  have hplace : n ∈ blankIndexes t ↔ ∃ c ∈ t[n]?, isBlank c := by
    simp [blankIndexes, List.mem_zipIdx_iff_getElem?]
  rw [hplace]
  constructor
  · rintro ⟨c, hcn, hc⟩
    obtain ⟨hn, rfl⟩ := List.getElem?_eq_some_iff.1 hcn
    refine ⟨t.take n, t[n], t.drop (n + 1), ?_, List.length_take_of_le (Nat.le_of_lt hn), hc⟩
    rw [← List.drop_eq_getElem_cons hn, List.take_append_drop]
  · rintro ⟨y, c, z, rfl, rfl, hc⟩
    refine ⟨c, ?_, hc⟩
    rw [Option.mem_def, List.getElem?_append_right (Nat.le_refl _), Nat.sub_self,
      List.getElem?_cons_zero]

/-- At a place of a text a single space, between two characters that are not blank and of which one
is an ASCII letter or digit. -/
inductive SpaceAt (t : Text) (n : Nat) : Prop
  | intro (before after : Text) {p q : Char} (ht : t = before ++ p :: ' ' :: q :: after)
      (hn : before.length + 1 = n) (hp : isBlank p = false) (hq : isBlank q = false)
      (hw : isWordChar p ∨ isWordChar q)

/-- The last character of a text that is not blank. -/
theorem exists_last_solid (h : solid t ≠ []) :
    ∃ before p after, t = before ++ p :: after ∧ isBlank p = false ∧ ∀ c ∈ after, isBlank c := by
  obtain ⟨w, p, hw⟩ := (List.eq_nil_or_concat (solid t)).resolve_left h
  obtain ⟨a, b, rfl, -, hb⟩ := List.filter_eq_append_iff.1 (hw.trans (List.concat_eq_append ..))
  obtain ⟨g, after, rfl, -, hp, hafter⟩ := List.filter_eq_cons_iff.1 hb
  exact ⟨a ++ g, p, after, by simp, by simpa using hp, solid_eq_nil_iff.1 hafter⟩

/-- A blank of a text without blanks at its ends lies in a gap. -/
theorem Trimmed.exists_gapAt (ht : Trimmed (y ++ c :: z)) (hc : isBlank c) :
    ∃ before p u v q after, y = before ++ p :: u ∧ z = v ++ q :: after ∧
      GapAt (y ++ c :: z) (solid before).length p (u ++ c :: v) q := by
  have hy : solid y ≠ [] := by
    intro h
    cases y with
    | nil => rw [ht.head c rfl] at hc; cases hc
    | cons d y =>
      rw [solid_cons_of_not_blank (ht.head d rfl)] at h
      cases h
  obtain ⟨before, p, u, rfl, hp, hu⟩ := exists_last_solid hy
  rw [List.append_assoc, List.cons_append] at ht
  have hcz : solid (c :: z) ≠ [] := by
    intro h
    have hall := ht.after_eq_nil (by rw [solid_append, solid_eq_nil_iff.2 hu, h]; rfl)
    exact List.cons_ne_nil c z (List.append_eq_nil_iff.1 hall).2
  obtain ⟨q, w, hq⟩ := List.exists_cons_of_ne_nil hcz
  rw [show solid (c :: z) = solid z from List.filter_cons_of_neg (by simp [hc])] at hq
  obtain ⟨v, after, rfl, hv, hq, -⟩ := List.filter_eq_cons_iff.1 hq
  simp only [Bool.not_eq_true, Bool.not_eq_false'] at hv
  rw [Bool.not_eq_true'] at hq
  refine ⟨before, p, u, v, q, after, rfl, rfl, before, after, by simp, rfl, hp, ?_, hq⟩
  intro d hd
  rcases List.mem_append.1 hd with hd | hd
  · exact hu d hd
  · rcases List.mem_cons.1 hd with rfl | hd
    · exact hc
    · exact hv d hd

/-- Every blank that is left is a single space beside an ASCII letter or digit. -/
theorem spaceAt_of_collapse_eq (h : collapse x = y ++ c :: z) (hc : isBlank c) :
    SpaceAt (collapse x) y.length := by
  have hx := collapsed_collapse x
  have htrimmed := hx.trimmed
  rw [h] at htrimmed
  obtain ⟨before, p, u, v, q, after, rfl, rfl, hgap⟩ := htrimmed.exists_gapAt hc
  rw [← h] at hgap
  obtain ⟨blanks, hgap'⟩ := hgap.exists_of_solid hx.solid_eq
  -- The gap that this blank lies in is what is left of the blanks of the first text.
  have hunique := hgap.unique (hx.gap _ p blanks q hgap')
  obtain ⟨-, -, -, -, hp, -, hq⟩ := hgap
  split at hunique
  · rename_i hword
    cases u with
    | nil =>
      obtain ⟨rfl, rfl⟩ := List.cons.inj hunique
      exact ⟨before, after, by simpa using h, by simp, hp, hq, hword.2⟩
    | cons e u => simp at hunique
  · simp at hunique

section

variable (hspaces : ∀ n ∈ blankIndexes t, SpaceAt t n)

include hspaces

/-- What stands around a blank. -/
theorem eq_of_blank (ht : t = y ++ c :: z) (hc : isBlank c) : c = ' ' ∧ ∃ before p q after,
    y = before ++ [p] ∧ z = q :: after ∧ isBlank p = false ∧ isBlank q = false ∧
      (isWordChar p ∨ isWordChar q) := by
  have hn : y.length ∈ blankIndexes t := mem_blankIndexes_iff.2 ⟨y, c, z, ht, rfl, hc⟩
  obtain ⟨before, after, ht', hlength, hp, hq, hw⟩ := hspaces _ hn
  have hsame : y ++ c :: z = (before ++ [_]) ++ ' ' :: _ :: after :=
    ht.symm.trans (ht'.trans (List.append_cons before _ _))
  obtain ⟨rfl, hrest⟩ :=
    List.append_inj hsame (by rw [List.length_append]; exact hlength.symm)
  obtain ⟨rfl, rfl⟩ := List.cons.inj hrest
  exact ⟨rfl, before, _, _, after, rfl, rfl, hp, hq, hw⟩

theorem trimmed_of_spaceAt : Trimmed t := by
  constructor
  · intro c hc
    obtain ⟨z, hz⟩ := List.head?_eq_some_iff.1 hc
    rw [← Bool.not_eq_true]
    intro hblank
    have hz : t = [] ++ c :: z := hz
    obtain ⟨-, before, p, -, -, hnil, -⟩ := eq_of_blank hspaces hz hblank
    exact List.append_ne_nil_of_right_ne_nil before (List.cons_ne_nil p []) hnil.symm
  · intro c hc
    obtain ⟨y, hy⟩ := List.getLast?_eq_some_iff.1 hc
    rw [← Bool.not_eq_true]
    intro hblank
    obtain ⟨-, -, -, q, after, -, hnil, -⟩ := eq_of_blank hspaces hy hblank
    exact List.cons_ne_nil q after hnil.symm

/-- Each gap has nothing or a single space in it. -/
theorem GapAt.eq_of_spaceAt (h : GapAt t n p blanks q) :
    blanks = [] ∨ blanks = [' '] ∧ (isWordChar p ∨ isWordChar q) := by
  obtain ⟨before, after, ht, -, -, hb, -⟩ := h
  cases blanks with
  | nil => exact .inl rfl
  | cons c blanks =>
    have ht : t = (before ++ [p]) ++ c :: (blanks ++ q :: after) := by simpa using ht
    obtain ⟨rfl, before', p', q', after', hbefore, hafter, -, hq', hw⟩ :=
      eq_of_blank hspaces ht (hb c List.mem_cons_self)
    obtain ⟨-, hp⟩ := List.append_inj' hbefore rfl
    obtain rfl := List.head_eq_of_cons_eq hp
    cases blanks with
    | nil =>
      obtain rfl := List.head_eq_of_cons_eq hafter
      exact .inr ⟨rfl, hw⟩
    | cons d blanks =>
      obtain rfl := List.head_eq_of_cons_eq hafter
      have hd := hb d (List.mem_cons_of_mem _ List.mem_cons_self)
      rw [hq'] at hd
      cases hd

end

/-- **Collapsing leaves a text as it is when all its blanks are single spaces**, each between two
other characters and beside an ASCII letter or digit. -/
theorem collapse_eq_self_iff : collapse t = t ↔ ∀ n ∈ blankIndexes t, SpaceAt t n := by
  constructor
  · intro h n hn
    obtain ⟨y, c, z, ht, rfl, hc⟩ := mem_blankIndexes_iff.1 hn
    rw [← h]
    exact spaceAt_of_collapse_eq (h.trans ht) hc
  · intro h
    have hx := collapsed_collapse t
    symm
    apply eq_of_gapAt hx.solid_eq.symm (trimmed_of_spaceAt h) hx.trimmed
    intro n p blanks q hgap
    have hleft := hx.gap n p blanks q hgap
    rcases hgap.eq_of_spaceAt h with rfl | ⟨rfl, hw⟩
    · simpa using hleft
    · rwa [if_pos ⟨List.cons_ne_nil _ _, hw⟩] at hleft

end

/-- **There is one text that is left when the blanks of a text are collapsed**, and it is what
`collapse` makes. -/
theorem collapsed_iff (x y : Text) : Collapsed x y ↔ y = collapse x := by
  constructor
  · intro h
    have hx := collapsed_collapse x
    refine eq_of_gapAt (h.solid_eq.trans hx.solid_eq.symm) h.trimmed hx.trimmed ?_
    intro n p blanks q hgap
    obtain ⟨blanks', hgap'⟩ := hgap.exists_of_solid h.solid_eq
    rw [hgap.unique (h.gap n p blanks' q hgap')]
    exact hx.gap n p blanks' q hgap'
  · rintro rfl
    exact collapsed_collapse x

/-- Blanks of each kind, beside letters and beside other characters. -/
example : collapse " \ta\x0b(\n \x0c(b, c.\r.\n".toList = "a ((b, c..".toList := by decide

end Roffdown.Text
