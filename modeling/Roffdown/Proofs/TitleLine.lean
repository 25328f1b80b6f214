import Roffdown.Conversion
import Roffdown.Proofs.Splicing

/-!
# A title line and the text below it

A document that is read from the beginning of a line is read as if nothing stood above; only the
numbers of lines are larger.  The packages that take the title line for the header therefore convert
the text below it as it would be converted alone, and the title line becomes the arguments of `.TH`.

* `Zipper.trace_of_newline`: reading from the beginning of a line.
* `Document.takeTitle_eq`: the title line, and the place below it.
* `title_line_is_apart`: the conversion of a document with a title line.
-/

namespace Roffdown

open Roff Text

/-- Reading from the beginning of a line is reading what follows alone. -/
theorem Zipper.trace_of_newline {z : Zipper} (h : z.previous? = some '\n') : z.trace =
    ⟨(start z.rest).trace.raised, (start z.rest).trace.warnings,
      (start z.rest).trace.failure?.map (UnclosedCode.below z.before.reverse)⟩ := by
  have ha : EndsLine z.before.reverse := by
    right
    rw [List.getLast?_reverse]
    exact h
  have hz : (start z.rest).within z.before.reverse [] = z := by simp [within, start]
  rw [← trace_within ha, hz]

/-- A line that a newline ends, and the place below it. -/
theorem Zipper.splitLine_of_newline {z : Zipper} {line below : Text}
    (hr : z.rest = line ++ '\n' :: below) (hl : '\n' ∉ line) :
    z.splitLine = (line, ⟨'\n' :: (line.reverse ++ z.before), below⟩) := by
  have htake : z.rest.take (line.length + 1) = line ++ ['\n'] := by
    rw [hr, List.append_cons]
    exact List.take_left' (by simp)
  have hdrop : z.rest.drop (line.length + 1) = below := by
    rw [hr, List.append_cons]
    exact List.drop_left' (by simp)
  rw [splitLine_of_rest_eq hr hl, advance, htake, hdrop]
  simp

/-- The place below a title line is the beginning of what follows, in a longer text. -/
theorem Document.takeTitle_eq {name title body : Text} {blank : Char} (hb : isIndent blank)
    (ht : '\n' ∉ title) :
    (Document.mk name ('#' :: blank :: (title ++ '\n' :: body))).takeTitle =
      (some title, (Zipper.start body).within ('#' :: blank :: (title ++ ['\n'])) []) := by
  have hsplit := Zipper.splitLine_of_newline (z := ⟨[blank, '#'], title ++ '\n' :: body⟩) rfl ht
  have htake : (Document.mk name ('#' :: blank :: (title ++ '\n' :: body))).takeTitle =
      (some (Zipper.mk [blank, '#'] (title ++ '\n' :: body)).splitLine.1,
        (Zipper.mk [blank, '#'] (title ++ '\n' :: body)).splitLine.2) := if_pos hb
  rw [htake, hsplit]
  simp [Zipper.within, Zipper.start]

theorem MacroPackage.titleHeading_of_title (name title : Text) (date : Date)
    (fields : HeaderFields) : titleHeading ⟨name, some title, date, fields⟩ =
      [if trim isWhiteSpace title = [] then ".TH".toList
        else ".TH ".toList ++ trim isWhiteSpace title] := by
  simp only [titleHeading, requestLine, List.isEmpty_iff]
  rfl

/-- **A title line and the text below it are converted apart.**  From the beginning of a line a
document is read as if what stands above were not there, but for the number of the line where it
fails.  So a document with a title line becomes the opening lines, its title, and what the text
below becomes alone; its name, the header fields and the date are not looked at. -/
theorem title_line_is_apart :
    (∀ z : Zipper, z.previous? = some '\n' →
      (∀ mk : Markup, z.trace.events mk = (Zipper.start z.rest).trace.events mk) ∧
      (∀ p : MacroPackage, z.trace.lines p = (Zipper.start z.rest).trace.lines p) ∧
      z.trace.failure? = (Zipper.start z.rest).trace.failure?.map fun e =>
        ⟨⟨e.place.line + z.before.count '\n', e.place.column⟩⟩) ∧
    ∀ (dialect : Dialect) (name : Text) (fields : HeaderFields) (date : Date) (blank : Char)
      (title body : Text), dialect = .man ∨ dialect = .mdoc → blank = ' ' ∨ blank = '\t' →
      '\n' ∉ title →
      ((Document.mk name ('#' :: blank :: (title ++ '\n' :: body))).toRoff
          dialect fields date).result =
        (Zipper.start body).trace.failure?.elim
          (.ok ([".\\\" x-roff document".toList, ".do mso ".toList ++ dialect.package.file,
              if trim isWhiteSpace title = [] then ".TH".toList
              else ".TH ".toList ++ trim isWhiteSpace title] ++
            (Zipper.start body).trace.lines dialect.package))
          fun e => .error ⟨⟨e.place.line + 1, e.place.column⟩⟩ := by
  constructor
  · intro z hz
    have htrace := Zipper.trace_of_newline hz
    refine ⟨fun mk => ?_, fun p => ?_, ?_⟩
    · rw [htrace]
      rfl
    · rw [htrace]
      rfl
    · rw [htrace]
      refine Option.map_congr fun e _ => ?_
      rw [UnclosedCode.below, List.count_reverse]
  · intro dialect name fields date blank title body hd hb ht
    have hblank : isIndent blank := by
      rcases hb with rfl | rfl <;> rfl
    have hbelow : EndsLine ('#' :: blank :: (title ++ ['\n'])) := by
      right
      rw [← List.cons_append, ← List.cons_append, List.getLast?_concat]
    have htrace := Zipper.trace_within hbelow (.start body)
    have hcount : ('#' :: blank :: (title ++ ['\n'])).count '\n' = 1 := by
      have hn : blank ≠ '\n' := by
        rcases hb with rfl | rfl <;> decide
      simp [List.count_eq_zero.2 ht, hn]
    have hheader : dialect.package.usesTitleLine = true ∧
        dialect.package.header ⟨name, some title, date, fields⟩ =
          MacroPackage.titleHeading ⟨name, some title, date, fields⟩ := by
      rcases hd with rfl | rfl <;> exact ⟨rfl, rfl⟩
    unfold Document.toRoff
    simp only [hheader.1, if_true, Document.takeTitle_eq hblank ht, htrace]
    cases he : (Zipper.start body).trace.failure? with
    | none =>
      rw [hheader.2, MacroPackage.titleHeading_of_title]
      rfl
    | some e =>
      change Except.error (e.below _) = Except.error _
      rw [UnclosedCode.below, hcount]

/-- A title line with a tab, above a line that fails. -/
theorem title_line_is_apart_tab :
    let z : Zipper := ⟨"\nT\t#".toList, "x `y".toList⟩
    let d : Document := ⟨"d.md".toList, "#\tT\nx `y".toList⟩
    let alone : Zipper := .start "x `y".toList
    z.previous? = some '\n' ∧ '\n' ∉ "T".toList ∧ alone.trace.failure? = some ⟨⟨1, 3⟩⟩ ∧
    (∀ mk : Markup, z.trace.events mk = alone.trace.events mk) ∧
    (∀ p : MacroPackage, z.trace.lines p = alone.trace.lines p) ∧
    z.trace.failure? = some ⟨⟨2, 3⟩⟩ ∧
    (d.toRoff .mdoc .standard ⟨2024, 5, 1⟩).result = .error ⟨⟨2, 3⟩⟩ := by
  intro z d alone
  have halone : alone.trace.failure? = some ⟨⟨1, 3⟩⟩ := by decide +kernel
  obtain ⟨hevents, hlines, hfailure⟩ := title_line_is_apart.1 z rfl
  have hresult := title_line_is_apart.2 .mdoc d.name .standard ⟨2024, 5, 1⟩ '\t' "T".toList
    "x `y".toList (.inr rfl) (.inr rfl) (by decide)
  refine ⟨rfl, by decide, halone, hevents, hlines, ?_, ?_⟩
  · rw [hfailure, show Zipper.start z.rest = alone from rfl, halone]
    rfl
  · rw [show Zipper.start "x `y".toList = alone from rfl, halone] at hresult
    exact hresult

end Roffdown
