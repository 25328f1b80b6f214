import Roffdown.Text.Blank

/-!
# Collapsed blanks

roff fills running text, so a line of it carries no indentation and no doubled blanks.  `collapse`
drops the blanks at both ends, and keeps of every run of blanks inside a single space when the
character before it or the character after it is an ASCII letter or digit, and nothing otherwise.

* `collapse_eq_nil_iff`: the texts that collapse to nothing are those of blanks alone.
* `filter_collapse`: the other characters stay, in their order.
* `collapse_append_cons`, `collapse_infix`: what is collapsed between two characters that are not
  blank does not depend on the text around them.
-/

namespace Roffdown.Text

/-- ASCII letters and digits. -/
def isWordChar (c : Char) : Bool := c.isAlphanum

/-- What is left of the blanks between the characters `p` and `q`. -/
def gap (p q : Char) : Text := if isWordChar p || isWordChar q then [' '] else []

/-- Collapses the text after the character `p`; `blank` tells whether blanks stood since `p`. -/
def collapseAfter (p : Char) (blank : Bool) : Text → Text
  | [] => []
  | c :: t =>
    if isBlank c then collapseAfter p true t
    else (if blank then gap p c else []) ++ c :: collapseAfter c false t

/-- The text with its runs of blanks reduced as the header of this module says. -/
def collapse : Text → Text
  | [] => []
  | c :: t => if isBlank c then collapse t else c :: collapseAfter c false t

@[simp] theorem collapse_nil : collapse [] = [] := rfl

theorem collapse_cons_of_blank {c : Char} (h : isBlank c) (t : Text) :
    collapse (c :: t) = collapse t := by simp [collapse, h]

theorem collapse_cons_of_not_blank {c : Char} (h : isBlank c = false) (t : Text) :
    collapse (c :: t) = c :: collapseAfter c false t := by simp [collapse, h]

theorem collapse_eq_nil_iff {t : Text} : collapse t = [] ↔ ∀ c ∈ t, isBlank c := by
  induction t with
  | nil => simp
  | cons c t ih => by_cases h : isBlank c <;> simp [collapse, h, ih]

/-! ## What is kept -/

theorem filter_gap (p q : Char) : (gap p q).filter (fun c => !isBlank c) = [] := by
  unfold gap
  split <;> rfl

theorem filter_collapseAfter (p : Char) (blank : Bool) (t : Text) :
    (collapseAfter p blank t).filter (fun c => !isBlank c) = t.filter fun c => !isBlank c := by
  induction t generalizing p blank with
  | nil => rfl
  | cons c t ih =>
    by_cases hc : isBlank c
    · rw [collapseAfter, if_pos hc, ih, List.filter_cons_of_neg (by simp [hc])]
    · have hgap : (if blank then gap p c else []).filter (fun c => !isBlank c) = [] := by
        split
        · exact filter_gap p c
        · rfl
      rw [collapseAfter, if_neg hc, List.filter_append, hgap, List.nil_append,
        List.filter_cons_of_pos (by simp [hc]), List.filter_cons_of_pos (by simp [hc]), ih]

/-- Collapsing takes away and puts in nothing but blanks. -/
theorem filter_collapse (t : Text) :
    (collapse t).filter (fun c => !isBlank c) = t.filter fun c => !isBlank c := by
  induction t with
  | nil => rfl
  | cons c t ih =>
    by_cases hc : isBlank c
    · rw [collapse_cons_of_blank hc, ih, List.filter_cons_of_neg (by simp [hc])]
    · rw [collapse_cons_of_not_blank (Bool.eq_false_iff.2 hc),
        List.filter_cons_of_pos (by simp [hc]), List.filter_cons_of_pos (by simp [hc]),
        filter_collapseAfter]

/-! ## Parts of a text -/

section

variable {p q : Char} (hq : isBlank q = false)

include hq

theorem collapseAfter_append_cons (p : Char) (blank : Bool) (t u : Text) :
    collapseAfter p blank (t ++ q :: u) =
      collapseAfter p blank (t ++ [q]) ++ collapseAfter q false u := by
  induction t generalizing p blank with
  | nil => simp [collapseAfter, hq]
  | cons c t ih =>
    simp only [List.cons_append, collapseAfter]
    split
    · exact ih p true
    · rw [ih c false, List.append_assoc, List.cons_append]

/-- A text is collapsed up to a character that is not blank, and after it. -/
theorem collapse_append_cons (t u : Text) :
    collapse (t ++ q :: u) = collapse (t ++ [q]) ++ collapseAfter q false u := by
  induction t with
  | nil => simp [collapse, collapseAfter, hq]
  | cons c t ih =>
    simp only [List.cons_append, collapse]
    split
    · exact ih
    · rw [collapseAfter_append_cons hq, List.cons_append]

theorem exists_collapseAfter_append (p : Char) (blank : Bool) (t : Text) :
    ∃ u, collapseAfter p blank (t ++ [q]) = u ++ [q] := by
  induction t generalizing p blank with
  | nil => exact ⟨if blank then gap p q else [], by simp [collapseAfter, hq]⟩
  | cons c t ih =>
    simp only [List.cons_append, collapseAfter]
    split
    · exact ih p true
    · obtain ⟨u, hu⟩ := ih c false
      exact ⟨(if blank then gap p c else []) ++ c :: u, by rw [hu]; simp⟩

theorem exists_collapse_append (t : Text) : ∃ u, collapse (t ++ [q]) = u ++ [q] := by
  induction t with
  | nil => exact ⟨[], by simp [collapse, collapseAfter, hq]⟩
  | cons c t ih =>
    simp only [List.cons_append, collapse]
    split
    · exact ih
    · obtain ⟨u, hu⟩ := exists_collapseAfter_append hq c false t
      exact ⟨c :: u, by rw [hu, List.cons_append]⟩

end

/-- **What is collapsed inside of a text** is in the text when it is collapsed, if it neither begins
nor ends with a blank. -/
theorem collapse_infix {t : Text} (hhead : ∀ c ∈ t.head?, isBlank c = false)
    (hlast : ∀ c ∈ t.getLast?, isBlank c = false) (before after : Text) :
    collapse t <:+: collapse (before ++ t ++ after) := by
  cases t with
  | nil => exact List.nil_infix
  | cons c t =>
    have hc := hhead c rfl
    obtain ⟨u, hu⟩ := exists_collapse_append hc before
    obtain ⟨v, q, hv⟩ : ∃ v q, c :: t = v ++ [q] :=
      ⟨_, _, (List.dropLast_concat_getLast (List.cons_ne_nil c t)).symm⟩
    have hq := hlast q (by rw [hv, List.getLast?_append]; rfl)
    refine ⟨u, collapseAfter q false after, ?_⟩
    calc
      u ++ collapse (c :: t) ++ collapseAfter q false after
        = collapse (before ++ c :: t) ++ collapseAfter q false after := by
          rw [collapse_append_cons hc before t, hu, collapse_cons_of_not_blank hc,
            List.append_assoc u [c], List.singleton_append]
      _ = collapse (before ++ (c :: t) ++ after) := by
          rw [hv, ← List.append_assoc before v, ← collapse_append_cons hq]
          simp

end Roffdown.Text
