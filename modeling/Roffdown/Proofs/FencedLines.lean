import Roffdown.Proofs.Requests

/-!
# What roff prints of a fenced block

The lines of a fenced block are meant to be printed as they stand.  roff takes a line that begins
with its control character, or with an apostrophe, for a request, and a backslash in any other line
for the beginning of an escape sequence.  The packages change the control character around a line
that begins with a point.  They do nothing for an apostrophe or for a backslash.

* `Roff.Escapes`, `Roff.Reader`: what roff makes of a line.
* `Roff.Escapes.print_eq_self_iff`: the texts that are printed as they stand.
* `Dialect.control_readLines`: what is written for an event leaves the control character as it was.
* `Zipper.fenced_line_is_printed`: the lines of a fenced block that are printed as they stand.
-/

namespace Roffdown

open Markdown Roff Text
open State (Reads)

namespace Roff

/-! ## Escape sequences -/

/-- The escape sequences of roff: what each prints and what it leaves of the line, from the text
after its backslash.  A backslash is printed by `\e` alone. -/
structure Escapes where
  read : Text → Text × Text
  suffix : ∀ t, (read t).2 <:+ t
  backslash : ∀ t, read ('e' :: t) = (['\\'], t)
  other : ∀ t, t.head? ≠ some 'e' → '\\' ∉ (read t).1

namespace Escapes

variable (esc : Escapes)

/-- What a line prints. -/
def print : Text → Text
  | [] => []
  | c :: t => if c = '\\' then (esc.read t).1 ++ print (esc.read t).2 else c :: print t
termination_by t => t.length
decreasing_by
  · exact Nat.lt_succ_of_le (esc.suffix t).length_le
  · exact Nat.lt_succ_self _

theorem print_nil : esc.print [] = [] := by rw [print]

theorem print_backslash (t : Text) :
    esc.print ('\\' :: t) = (esc.read t).1 ++ esc.print (esc.read t).2 := by
  rw [print, if_pos rfl]

theorem print_cons {c : Char} (hc : c ≠ '\\') (t : Text) :
    esc.print (c :: t) = c :: esc.print t := by
  rw [print, if_neg hc]

/-- A text has no fewer backslashes than what it prints, and if it has no more, then each of them
has cost a character. -/
theorem count_print (t : Text) : (esc.print t).count '\\' ≤ t.count '\\' ∧
    ((esc.print t).count '\\' = t.count '\\' →
      (esc.print t).length + t.count '\\' = t.length) := by
  induction hn : t.length using Nat.strongRecOn generalizing t with
  | ind n ih =>
    subst hn
    rcases t with - | ⟨c, t⟩
    · simp [print_nil]
    by_cases hc : c = '\\'
    · subst hc
      rw [print_backslash]
      by_cases he : t.head? = some 'e'
      · obtain ⟨u, rfl⟩ := List.head?_eq_some_iff.1 he
        obtain ⟨hle, heq⟩ := ih u.length (Nat.lt_succ_of_lt (Nat.lt_succ_self _)) u rfl
        simp only [esc.backslash, List.singleton_append, List.count_cons_self, List.length_cons,
          List.count_cons_of_ne (show 'e' ≠ '\\' by decide)]
        omega
      · -- Another sequence prints no backslash, so one is lost for good.
        have hsuffix := esc.suffix t
        have hlost := List.count_eq_zero.2 (esc.other t he)
        have hrest := hsuffix.sublist.count_le '\\'
        obtain ⟨hle, -⟩ := ih _ (Nat.lt_succ_of_le hsuffix.length_le) (esc.read t).2 rfl
        rw [List.count_append, hlost, List.count_cons_self]
        omega
    · obtain ⟨hle, heq⟩ := ih t.length (Nat.lt_succ_self _) t rfl
      rw [print_cons esc hc, List.count_cons_of_ne hc, List.count_cons_of_ne hc, List.length_cons,
        List.length_cons]
      omega

theorem print_of_backslash_not_mem {t : Text} (h : '\\' ∉ t) : esc.print t = t := by
  induction t with
  | nil => exact esc.print_nil
  | cons c t ih =>
    rw [List.mem_cons, not_or] at h
    rw [esc.print_cons (Ne.symm h.1), ih h.2]

/-- **A text is printed as it stands when no backslash is in it, and only then.** -/
theorem print_eq_self_iff {t : Text} : esc.print t = t ↔ '\\' ∉ t := by
  refine ⟨fun h => ?_, esc.print_of_backslash_not_mem⟩
  have hlength := (esc.count_print t).2 (by rw [h])
  rw [h] at hlength
  exact List.count_eq_zero.1 (by omega)

end Escapes

/-! ## Lines -/

/-- The control character after a request.  Only `cc` changes it, to a point if it is told no
other. -/
def controlAfter (control : Char) (request : Text) : Char :=
  let words := trimStart isIndent request.tail
  let name := firstWord words
  if name = "cc".toList then (trimStart isIndent (words.drop name.length)).head?.getD '.'
  else control

/-- roff between two lines. -/
structure Reader where
  /-- The character that begins a request, besides the apostrophe. -/
  control : Char
  /-- The lines that are printed. -/
  printed : List Text

namespace Reader

variable (esc : Escapes)

/-- roff before the first line. -/
def start : Reader := ⟨'.', []⟩

/-- Reads a line; a request prints nothing. -/
def readLine (r : Reader) (line : Text) : Reader :=
  if line.head? = some r.control ∨ line.head? = some '\x27' then
    { r with control := controlAfter r.control line }
  else { r with printed := r.printed ++ [esc.print line] }

/-- Reads lines one after the other. -/
def readLines (r : Reader) (lines : List Text) : Reader := lines.foldl (readLine esc) r

theorem readLines_append (r : Reader) (a b : List Text) :
    r.readLines esc (a ++ b) = (r.readLines esc a).readLines esc b := List.foldl_append

variable {esc} {r : Reader} {line : Text}

theorem readLine_of_request (h : line.head? = some r.control ∨ line.head? = some '\x27') :
    r.readLine esc line = { r with control := controlAfter r.control line } := if_pos h

theorem readLine_of_text (hc : line.head? ≠ some r.control) (ha : line.head? ≠ some '\x27') :
    r.readLine esc line = { r with printed := r.printed ++ [esc.print line] } :=
  if_neg (not_or.2 ⟨hc, ha⟩)

/-- A line of a fenced block prints one line, unless it begins with an apostrophe. -/
theorem readLines_fenceLine (hc : r.control = '.') (ha : line.head? ≠ some '\x27') :
    r.readLines esc (MacroPackage.fenceLine line) = ⟨'.', r.printed ++ [esc.print line]⟩ := by
  rw [MacroPackage.fenceLine, verbatimLines]
  split
  · rename_i hpoint
    have hon : r.readLine esc ".cc !".toList = ⟨'!', r.printed⟩ := by
      rw [readLine_of_request (.inl (by rw [hc]; rfl))]
      rfl
    have hline : readLine esc ⟨'!', r.printed⟩ line = ⟨'!', r.printed ++ [esc.print line]⟩ := by
      refine readLine_of_text ?_ ha
      rw [hpoint]
      exact (by decide : some '.' ≠ some '!')
    show ((r.readLine esc ".cc !".toList).readLine esc line).readLine esc "!cc .".toList = _
    rw [hon, hline, readLine_of_request (.inl rfl)]
    rfl
  · rename_i hpoint
    show r.readLine esc line = _
    rw [readLine_of_text (by rwa [hc]) ha, ← hc]

/-- One that begins with an apostrophe prints nothing. -/
theorem printed_readLines_fenceLine (ha : line.head? = some '\x27') :
    (r.readLines esc (MacroPackage.fenceLine line)).printed = r.printed := by
  rw [MacroPackage.fenceLine, verbatimLines, if_neg (by rw [ha]; decide)]
  show (r.readLine esc line).printed = _
  rw [readLine_of_request (.inr ha)]

end Reader

/-! ## The control character -/

theorem controlAfter_eq_self {control c : Char} {line : Text}
    (h : (firstWord line).tail.head? = some c) (hc : isIndent c = false)
    (hname : (firstWord line).tail ≠ "cc".toList) : controlAfter control line = control := by
  rcases line with - | ⟨x, t⟩
  · cases h
  have hword : (firstWord (x :: t)).tail = firstWord t := by
    unfold firstWord at h ⊢
    rw [List.takeWhile_cons] at h ⊢
    split at h
    · rw [if_pos ‹_›, List.tail_cons]
    · cases h
  rw [hword] at h hname
  have hstart : trimStart isIndent t = t := by
    obtain ⟨u, hu⟩ : firstWord t <+: t := List.takeWhile_prefix _
    obtain ⟨v, hv⟩ := List.head?_eq_some_iff.1 h
    rw [← hu, hv]
    exact List.dropWhile_cons_of_neg (by rw [hc]; exact Bool.false_ne_true)
  rw [controlAfter, List.tail_cons, hstart]
  exact if_neg hname

end Roff

/-- No request that a dialect writes outside of fenced blocks changes the control character. -/
theorem Dialect.controlAfter_of_mem_requests {d : Dialect} {line : Text}
    (h : firstWord line ∈ d.requests) (control : Char) : controlAfter control line = control := by
  have hrequests : ∀ name ∈ d.requests,
      name.tail.head?.any (! isIndent ·) ∧ name.tail ≠ "cc".toList := by
    cases d <;> decide
  obtain ⟨hhead, hname⟩ := hrequests _ h
  obtain ⟨c, hc, hi⟩ := Option.any_eq_true _ _ |>.1 hhead
  exact controlAfter_eq_self hc (by simpa using hi) hname

section

variable (esc : Escapes) (d : Dialect)

theorem Roff.Reader.control_readLine {r : Reader} {line : Text} (hc : r.control = '.')
    (h : isRequest line → firstWord line ∈ d.requests) : (r.readLine esc line).control = '.' := by
  unfold readLine
  split
  · rename_i hr
    have hrequest : isRequest line := by
      rw [hc] at hr
      rcases hr with hr | hr <;> rw [isRequest, hr] <;> rfl
    rw [d.controlAfter_of_mem_requests (h hrequest)]
    exact hc
  · exact hc

theorem Roff.Reader.control_readLines {r : Reader} {lines : List Text} (hc : r.control = '.')
    (h : ∀ line ∈ lines, isRequest line → firstWord line ∈ d.requests) :
    (r.readLines esc lines).control = '.' := by
  induction lines generalizing r with
  | nil => exact hc
  | cons line lines ih =>
    obtain ⟨hline, hlines⟩ := List.forall_mem_cons.1 h
    exact ih (control_readLine esc d hc hline) hlines

theorem Dialect.lines_fenceLine (hd : d ≠ .mom) (line : Text) (l : OpenLists) :
    d.package.lines (.fenceLine line) l = MacroPackage.fenceLine line := by
  cases d with
  | mom => contradiction
  | _ => rfl

/-- What is written for an event leaves the control character as it was, unless it is a line of a
fenced block that begins with an apostrophe. -/
theorem Dialect.control_readLines_lines (hd : d ≠ .mom) {r : Reader} (hc : r.control = '.')
    {e : Event} (he : ∀ line, e = .fenceLine line → line.head? ≠ some '\x27') (l : OpenLists) :
    (r.readLines esc (d.package.lines e l)).control = '.' := by
  by_cases hf : ∃ line, e = .fenceLine line
  · obtain ⟨line, rfl⟩ := hf
    rw [d.lines_fenceLine hd, Reader.readLines_fenceLine hc (he line rfl)]
  · obtain ⟨names, hown, hnames⟩ := d.exists_requestNames l (not_exists.1 hf)
    refine Reader.control_readLines esc d hc fun line hline hr => hown _ ?_
    rw [← hnames e (.refl e)]
    exact List.mem_map_of_mem (List.mem_filter.2 ⟨hline, hr⟩)

theorem Dialect.control_readLines (hd : d ≠ .mom) {events : List (Raised Event)}
    (he : ∀ r ∈ events, ∀ line, r.item = .fenceLine line → line.head? ≠ some '\x27')
    {r : Reader} (hc : r.control = '.') :
    (r.readLines esc (events.flatMap fun r => d.package.lines r.item r.lists)).control = '.' := by
  induction events generalizing r with
  | nil => exact hc
  | cons e events ih =>
    obtain ⟨hfirst, hothers⟩ := List.forall_mem_cons.1 he
    rw [List.flatMap_cons, Reader.readLines_append]
    exact ih hothers (d.control_readLines_lines esc hd hc hfirst e.lists)

end

/-! ## Fenced blocks -/

/-- What is raised up to a line of a fenced block, and the line itself. -/
theorem Zipper.exists_events_of_fenceLine {z : Zipper} {m : Move} (h : Reads (.initial z) m)
    (hne : m.next.input.rest ≠ []) (hf : m.next.inFence = true)
    (hfence : ¬ m.next.input.startsWith fence) (mk : Markup) : ∃ after,
      z.trace.events mk = Raised.events mk m.raised ++
        ⟨.fenceLine m.next.input.restOfLine, m.next.lists⟩ :: after := by
  have hstep : m.next.step = .ok m.next.fencedLine := by rw [State.step_eq, if_pos hf]
  obtain ⟨later, hlater⟩ := exists_raised_of_reads (h.snoc hne hstep)
  refine ⟨Raised.events mk later, ?_⟩
  rw [Trace.events, hlater, Move.raised_andThen, Raised.events_append, Raised.events_append,
    State.fencedLine_of_not_fence hfence, Raised.events_announce, List.append_assoc]
  rfl

/-- **A line of a fenced block is printed as it stands, and roff reads on as before, if it does not
begin with an apostrophe and no backslash is in it; else it is not.**  What comes before it can be
anything but a line of a fenced block that begins with an apostrophe. -/
theorem Zipper.fenced_line_is_printed (esc : Escapes) {d : Dialect} (hd : d ≠ .mom) {z : Zipper}
    {m : Move} (h : Reads (.initial z) m) (hne : m.next.input.rest ≠ [])
    (hf : m.next.inFence = true) (hfence : ¬ m.next.input.startsWith fence)
    (hbefore : ∀ r ∈ Raised.events d.package.markup m.raised,
      ∀ line, r.item = .fenceLine line → line.head? ≠ some '\x27') :
    let line := m.next.input.restOfLine
    let lines := d.package.lines (.fenceLine line) m.next.lists
    let above := (Raised.events d.package.markup m.raised).flatMap fun r =>
      d.package.lines r.item r.lists
    above ++ lines <+: z.trace.lines d.package ∧
      (Reader.start.readLines esc above).control = '.' ∧
      (Reader.start.readLines esc (above ++ lines) =
          ⟨'.', (Reader.start.readLines esc above).printed ++ [line]⟩ ↔
        line.head? ≠ some '\x27' ∧ '\\' ∉ line) := by
  intro line lines above
  have hcontrol : (Reader.start.readLines esc above).control = '.' :=
    d.control_readLines esc hd hbefore rfl
  refine ⟨?_, hcontrol, ?_⟩
  · obtain ⟨after, hevents⟩ := exists_events_of_fenceLine h hne hf hfence d.package.markup
    rw [Trace.lines, hevents, List.flatMap_append, List.flatMap_cons, ← List.append_assoc]
    exact List.prefix_append _ _
  rw [Reader.readLines_append, show lines = _ from d.lines_fenceLine hd line _]
  by_cases ha : line.head? = some '\x27'
  · refine iff_of_false (fun he => ?_) fun hline => hline.1 ha
    have hprinted := congrArg Reader.printed he
    rw [Reader.printed_readLines_fenceLine ha] at hprinted
    exact List.cons_ne_nil _ _ (List.self_eq_append_right.1 hprinted)
  · rw [Reader.readLines_fenceLine hcontrol ha, ← esc.print_eq_self_iff]
    simp [ha]

/-- Escape sequences of two characters, of which `\e` alone prints anything. -/
def Roff.Escapes.bare : Escapes where
  read t := if t.head? = some 'e' then (['\\'], t.tail) else ([], t.tail)
  suffix t := by split <;> exact List.tail_suffix t
  backslash _ := rfl
  other t h := by
    rw [if_neg h]
    exact List.not_mem_nil

/-- A line that would be a request, after a line that is printed wrongly. -/
theorem Zipper.fenced_line_is_printed_point :
    let z : Zipper := .start "```\na\\&b\n.TH x\n```".toList
    let above := [".RS 4".toList, ".EX".toList, "a\\&b".toList]
    let lines := [".cc !".toList, ".TH x".toList, "!cc .".toList]
    above ++ lines <+: z.trace.lines Dialect.man.package ∧
      Reader.start.readLines .bare (above ++ lines) =
        ⟨'.', (Reader.start.readLines .bare above).printed ++ [".TH x".toList]⟩ := by
  intro z above lines
  let m := ((State.initial z).firstSteps 2).get (by decide +kernel)
  have hm : Reads (.initial z) m := State.reads_of_firstSteps (Option.some_get _).symm
  have hline : m.next.input.restOfLine = ".TH x".toList := by decide +kernel
  have hevents : Raised.events Dialect.man.package.markup m.raised =
      [⟨.fenceOpen, .empty⟩, ⟨.fenceLine "a\\&b".toList, .empty⟩] := by decide +kernel
  obtain ⟨hlines, -, hread⟩ := fenced_line_is_printed .bare (d := .man) (by decide) hm
    (by decide +kernel) (by decide +kernel) (by decide +kernel) (by simp [hevents])
  rw [hline, hevents] at hlines hread
  exact ⟨hlines, hread.2 (by decide)⟩

/-- Of a line that begins with an apostrophe nothing is printed, and of a line with an escape
sequence only the rest is. -/
theorem Zipper.fenced_line_is_lost :
    let apostrophe := (start "```\n\x27x\n```".toList).trace.lines Dialect.man.package
    let backslash := (start "```\na\\&b\n```".toList).trace.lines Dialect.man.package
    (Reader.start.readLines .bare apostrophe).printed = [] ∧
      (Reader.start.readLines .bare backslash).printed = ["ab".toList] := by
  decide +kernel

end Roffdown
