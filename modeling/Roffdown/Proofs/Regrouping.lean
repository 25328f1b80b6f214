import Roffdown.Proofs.Collapsing
import Roffdown.Proofs.Escaping
import Roffdown.Proofs.ItemLines

/-!
# Collapsing part by part

Collapsing keeps of the blanks between two parts of a text what the characters beside them ask for,
and these characters are still there when each part is collapsed before.  So it does not matter into
which parts a text is cut at its blanks, how many blanks there are, or whether a part was collapsed
already: running text can wait line by line, and be collapsed when it is raised.

* `Text.collapse_append_blanks`: blanks cut a text into two parts that are collapsed on their own.
* `Text.collapse_collapse`: collapsing twice is collapsing once.
* `State.GathersLines`: lines of running text that are read one after the other, and wait.
* `State.GathersLines.gathers`: what waits is the lines, with single spaces between them.
* `collapse_by_parts`: all of it, for any parts and for any lines.
-/

namespace Roffdown

open Markdown Text

namespace Text

/-! ## Parts between blanks -/

/-- Two collapsed texts that had blanks between them. -/
def beside (x y : Text) : Text :=
  x ++ (x.getLast?.bind fun p => y.head?.map (gap p)).getD [] ++ y

section

variable {w : Text}

theorem collapse_blanks_append (hw : ∀ c ∈ w, isBlank c) (t : Text) :
    collapse (w ++ t) = collapse t := by
  induction w with
  | nil => rfl
  | cons c w ih =>
    obtain ⟨hc, hw⟩ := List.forall_mem_cons.1 hw
    rw [List.cons_append, collapse_cons_of_blank hc, ih hw]

/-- After blanks, what is collapsed is known but for the gap before it. -/
theorem collapseAfter_true (p : Char) (t : Text) :
    collapseAfter p true t = ((collapse t).head?.map (gap p)).getD [] ++ collapse t := by
  induction t with
  | nil => rfl
  | cons c t ih =>
    by_cases hc : isBlank c
    · rw [collapseAfter, if_pos hc, ih, collapse_cons_of_blank hc]
    · rw [collapseAfter, if_neg hc, collapse_cons_of_not_blank (Bool.eq_false_iff.2 hc)]
      rfl

variable (hne : w ≠ []) (hw : ∀ c ∈ w, isBlank c)

include hne hw

theorem collapseAfter_append_blanks (p : Char) (blank : Bool) (t u : Text) :
    collapseAfter p blank (t ++ (w ++ u)) = collapseAfter p blank t ++
      collapseAfter ((collapseAfter p blank t).getLast?.getD p) true u := by
  induction t generalizing p blank with
  | nil =>
    rw [List.nil_append, collapseAfter_blanks_append hw, List.isEmpty_eq_false_iff.2 hne,
      Bool.not_false, Bool.or_true]
    rfl
  | cons c t ih =>
    by_cases hc : isBlank c
    · rw [List.cons_append, collapseAfter, if_pos hc, ih, collapseAfter, if_pos hc]
    · rw [List.cons_append, collapseAfter, if_neg hc, ih, collapseAfter, if_neg hc,
        List.append_assoc, List.cons_append, List.getLast?_append, List.getLast?_cons,
        Option.some_or, Option.getD_some]

/-- **Blanks cut a text** into two parts that are collapsed on their own, and leave a gap that the
ends of the collapsed parts tell. -/
theorem collapse_append_blanks (t u : Text) :
    collapse (t ++ (w ++ u)) = beside (collapse t) (collapse u) := by
  induction t with
  | nil => exact collapse_blanks_append hw u
  | cons c t ih =>
    by_cases hc : isBlank c
    · rw [List.cons_append, collapse_cons_of_blank hc, ih, collapse_cons_of_blank hc]
    · rw [Bool.not_eq_true] at hc
      rw [List.cons_append, collapse_cons_of_not_blank hc, collapseAfter_append_blanks hne hw,
        collapse_cons_of_not_blank hc, collapseAfter_true, beside, List.getLast?_cons,
        Option.bind_some, List.append_assoc, List.cons_append]

end

/-! ## What is collapsed already -/

theorem gap_eq (p q : Char) :
    gap p q = if isWordChar p ∨ isWordChar q then [' '] else [] := by
  unfold gap
  simp only [Bool.or_eq_true]

theorem collapseAfter_collapseAfter (p : Char) (blank : Bool) (t : Text) :
    collapseAfter p false (collapseAfter p blank t) = collapseAfter p blank t := by
  induction t generalizing p blank with
  | nil => rfl
  | cons c t ih =>
    by_cases hc : isBlank c
    · rw [collapseAfter, if_pos hc, ih]
    · rw [collapseAfter, if_neg hc]
      -- The gap that was left is a space exactly where one would be left of it.
      have hgap : (∀ d ∈ (if blank then gap p c else []), isBlank d) ∧
          (if (if blank then gap p c else []) ≠ [] ∧ (isWordChar p ∨ isWordChar c) then [' ']
            else []) = if blank then gap p c else [] := by
        rw [gap_eq]
        by_cases hword : isWordChar p ∨ isWordChar c <;> cases blank <;> simp [hword, isBlank]
      rw [collapseAfter_gap hgap.1 (Bool.eq_false_iff.2 hc), hgap.2, ih]

/-- **What is collapsed stays as it is** when it is collapsed again. -/
theorem collapse_collapse (t : Text) : collapse (collapse t) = collapse t := by
  induction t with
  | nil => rfl
  | cons c t ih =>
    by_cases hc : isBlank c
    · rw [collapse_cons_of_blank hc, ih]
    · rw [Bool.not_eq_true] at hc
      rw [collapse_cons_of_not_blank hc, collapse_cons_of_not_blank hc, collapseAfter_collapseAfter]

theorem collapse_append_space_append (t u : Text) :
    collapse (t ++ ' ' :: u) = beside (collapse t) (collapse u) :=
  collapse_append_blanks (w := [' ']) (List.cons_ne_nil _ _) (List.forall_mem_singleton.2 rfl) t u

/-- Parts that are collapsed before they are joined are collapsed as well as parts that are not. -/
theorem collapse_join_map_collapse (parts : List Text) :
    collapse (join ' ' (parts.map collapse)) = collapse (join ' ' parts) := by
  induction parts with
  | nil => rfl
  | cons part parts ih =>
    cases parts with
    | nil => exact collapse_collapse part
    | cons next parts =>
      rw [List.map_cons, List.map_cons, join_cons_cons, ← List.map_cons,
        collapse_append_space_append, ih, collapse_collapse, join_cons_cons,
        collapse_append_space_append]

end Text

/-! ## Lines of running text -/

/-- Lines of running text as they wait: a space stands between each and the next. -/
def joinLines (lines : List (List Piece)) : List Piece := [Piece.char ' '].intercalate lines

theorem joinLines_cons (line : List Piece) {lines : List (List Piece)} (h : lines ≠ []) :
    joinLines (line :: lines) = line ++ .char ' ' :: joinLines lines := by
  obtain ⟨next, lines, rfl⟩ := List.exists_cons_of_ne_nil h
  simp [joinLines, List.intercalate]

theorem expand_joinLines (k : Markup) (lines : List (List Piece)) :
    expand k (joinLines lines) = join ' ' (lines.map (expand k)) := by
  induction lines with
  | nil => rfl
  | cons line lines ih =>
    cases lines with
    | nil => simp [joinLines, List.intercalate, join]
    | cons next lines =>
      rw [joinLines_cons line (List.cons_ne_nil _ _), expand_append, List.map_cons, List.map_cons,
        join_cons_cons, ← List.map_cons, ← ih]
      rfl

namespace State

/-- Reading leads from a state to another, and puts lines into the running text that waits.  Each
but the last is ended by a newline, and none is underlined. -/
inductive GathersLines : State → List (List Piece) → State → Prop
  | last {s r : State} {line : List Piece} (h : s.Gathers line r) : GathersLines s [line] r
  | next {s t r : State} {line : List Piece} {lines : List (List Piece)} {u : Text}
      (h : s.Gathers line t) (hf : t.inFence = false) (hl : t.freshLine = false)
      (hr : t.input.rest = '\n' :: u) (hu : ¬ isUnderline (firstLine u))
      (hnext : GathersLines t.lineEnd.next lines r) : GathersLines s (line :: lines) r

variable {s t r : State} {u : Text} {lines : List (List Piece)}

theorem GathersLines.ne_nil (h : s.GathersLines lines r) : lines ≠ [] := by
  cases h <;> exact List.cons_ne_nil _ _

/-- A newline puts a space between two lines of running text. -/
theorem gathers_newline (hf : t.inFence = false) (hl : t.freshLine = false)
    (hr : t.input.rest = '\n' :: u) (hu : ¬ isUnderline (firstLine u)) :
    t.Gathers [.char ' '] t.lineEnd.next := by
  have hbelow : ¬ t.input.lineBelow?.any isUnderline := by
    rw [lineBelow?_of_newline hr]
    exact hu
  rw [lineEnd_of_not_underline hbelow]
  refine gathers_of_step hr (step_of_newline hf hl hr hu) ?_ rfl rfl
  exact (Buffer.all_markLine _).trans (Buffer.all_push _ _)

/-- **What waits is the lines**, with single spaces between them. -/
theorem GathersLines.gathers (h : s.GathersLines lines r) : s.Gathers (joinLines lines) r := by
  induction h with
  | last h => simpa [joinLines, List.intercalate] using h
  | next h hf hl hr hu hnext ih =>
    rw [joinLines_cons _ hnext.ne_nil]
    exact h.trans ((gathers_newline hf hl hr hu).trans ih)

end State

/-! ## Regrouping -/

/-- **Collapsing does not depend on how a text is cut at its blanks.**  Two parts with blanks
between them can be collapsed before, and the blanks can be a single space; so a text can be
collapsed twice, a text of parts can be collapsed part by part, and so can running text that is read
line by line. -/
theorem collapse_by_parts {w : Text} (hne : w ≠ []) (hw : ∀ c ∈ w, isBlank c) (a b : Text) :
    collapse (a ++ w ++ b) = collapse (collapse a ++ w ++ collapse b) ∧
    collapse (a ++ w ++ b) = collapse (a ++ [' '] ++ b) ∧
    collapse (collapse a) = collapse a ∧
    (∀ lines : List Text, collapse (join ' ' (lines.map collapse)) = collapse (join ' ' lines)) ∧
    ∀ (k : Markup) {s r : State} {lines : List (List Piece)}, s.buffer.all = [] →
      s.GathersLines lines r → r.buffer.all = joinLines lines ∧
        collapse (expand k r.buffer.all) =
          collapse (join ' ' (lines.map fun line => collapse (expand k line))) := by
  refine ⟨?_, ?_, collapse_collapse a, collapse_join_map_collapse, ?_⟩
  · rw [List.append_assoc, List.append_assoc, collapse_append_blanks hne hw,
      collapse_append_blanks hne hw, collapse_collapse, collapse_collapse]
  · rw [List.append_assoc, List.append_assoc, collapse_append_blanks hne hw,
      List.singleton_append, collapse_append_space_append]
  · intro k s r lines hs h
    have hall : r.buffer.all = joinLines lines := by
      rw [h.gathers.buffer, hs, List.nil_append]
    refine ⟨hall, ?_⟩
    rw [hall, expand_joinLines, ← collapse_join_map_collapse, List.map_map]
    rfl

/-- Blanks beside blanks and beside other characters, and two lines with bold in the second. -/
theorem collapse_by_parts_mixed :
    let a := "a( ".toList
    let w := "\t\n".toList
    let b := " .b ".toList
    let z := Zipper.start "a  b \n( **c**".toList
    let lines := [("a  b ".toList).map Piece.char,
      ("( ".toList).map Piece.char ++ [.mark .boldOn, .char 'c', .mark .styleOff]]
    w ≠ [] ∧ (∀ c ∈ w, isBlank c) ∧
      collapse (a ++ w ++ b) = collapse ("a(".toList ++ w ++ ".b".toList) ∧
      collapse (a ++ w ++ b) = collapse (a ++ [' '] ++ b) ∧
      collapse (join ' ' ["a(".toList, ".b".toList]) = collapse (join ' ' [a, b]) ∧
      ∃ r, (State.initial z).GathersLines lines r ∧ r.buffer.all = joinLines lines ∧
        collapse (expand tagMarkup r.buffer.all) =
          collapse (join ' ' ["a b".toList, "(<B>c</>".toList]) := by
  intro a w b z lines
  have hne : w ≠ [] := by decide
  have hw : ∀ c ∈ w, isBlank c := List.all_eq_true.1 (by decide)
  let m := ((State.initial z).firstSteps 5).get (by decide +kernel)
  have hm : State.Reads (.initial z) m := State.reads_of_firstSteps (Option.some_get _).symm
  let n := (m.next.lineEnd.next.firstSteps 5).get (by decide +kernel)
  have hn : State.Reads m.next.lineEnd.next n :=
    State.reads_of_firstSteps (Option.some_get _).symm
  have hlines : (State.initial z).GathersLines lines n.next := by
    refine .next (u := "( **c**".toList) ⟨⟨m, hm, ?_, rfl⟩, ?_, ?_, ?_⟩ ?_ ?_ ?_ ?_
      (.last ⟨⟨n, hn, ?_, rfl⟩, ?_, ?_, ?_⟩) <;> decide +kernel
  obtain ⟨hparts, hspace, -, hjoin, hread⟩ := collapse_by_parts hne hw a b
  obtain ⟨hall, hcollapse⟩ := hread tagMarkup (s := .initial z) rfl hlines
  exact ⟨hne, hw, hparts, hspace, hjoin [a, b], n.next, hlines, hall, hcollapse⟩

end Roffdown
