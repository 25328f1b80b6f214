import Roffdown.Conversion
import Roffdown.Proofs.Letters
import Roffdown.Proofs.Raising

/-!
# Requests and running text

roff takes a line for a request when it begins with a control character.  Outside of fenced blocks
the macro packages let no line begin so but their own requests, and no event has a newline in what
it says, so nothing in a document can begin a line that the packages did not begin.

* `State.newline_not_mem_words`: what is raised is told on one line.
* `Dialect.newline_not_mem_lines`: so a dialect writes it in whole lines.
* `Dialect.requests`: the names of the requests of a dialect.
* `Dialect.exists_requestNames`: those written for an event do not depend on what it says.
* `running_text_is_no_request`: both for all lines of a document.
-/

namespace Roffdown

open Markdown Roff Text
open State (Reads)

/-! ## Newlines -/

theorem newline_not_mem_collapseAfter (c : Char) (blank : Bool) (t : Text) :
    '\n' ∉ collapseAfter c blank t := by
  have hgap (c d : Char) : '\n' ∉ gap c d := by
    unfold gap
    split <;> decide
  induction t generalizing c blank with
  | nil => exact List.not_mem_nil
  | cons d t ih =>
    unfold collapseAfter
    split
    · exact ih c true
    · rename_i hd
      simp only [List.mem_append, List.mem_cons, not_or]
      refine ⟨?_, ?_, ih d false⟩
      · split
        · exact hgap c d
        · exact List.not_mem_nil
      · rintro rfl
        exact hd rfl

theorem newline_not_mem_collapse (t : Text) : '\n' ∉ collapse t := by
  induction t with
  | nil => exact List.not_mem_nil
  | cons c t ih =>
    by_cases hc : isBlank c
    · rwa [collapse_cons_of_blank hc]
    · rw [collapse_cons_of_not_blank (Bool.eq_false_iff.2 hc), List.mem_cons, not_or]
      refine ⟨?_, newline_not_mem_collapseAfter c false t⟩
      rintro rfl
      exact hc rfl

theorem mem_of_mem_trim {p : Char → Bool} {t : Text} {c : Char} (h : c ∈ trim p t) : c ∈ t := by
  rw [trim, trimEnd, List.mem_reverse] at h
  have hstart := List.mem_reverse.1 ((List.dropWhile_suffix p).subset h)
  exact (List.dropWhile_suffix p).subset hstart

/-- What the events of a line with hashes say is in the line. -/
theorem mem_of_mem_words_hashLine {line : Text} {e : Event} (he : e ∈ hashLine line) {c : Char}
    (hc : c ∈ e.words) : c ∈ line := by
  cases hashEvent_of_mem e he with
  | title => exact mem_of_mem_trim hc
  | header rank hashes => exact List.mem_of_mem_drop (mem_of_mem_trim hc)
  | _ => cases hc

theorem newline_not_mem_words_linkEvent {t label target : Text}
    (h : linkBody? t = some (label, target)) : '\n' ∉ (linkEvent label target).words := by
  obtain ⟨-, -, hl, -, ht⟩ := linkBody?_eq_some_iff.1 h
  unfold linkEvent
  split
  · rw [Event.words, List.mem_append, not_or]
    exact ⟨hl, by decide⟩
  · rw [Event.words, List.mem_append, not_or]
    exact ⟨hl, ht⟩

/-- **What is raised is told on one line.** -/
theorem State.newline_not_mem_words {s : State} {r : Raised Event} (h : s.Raises r) :
    '\n' ∉ r.item.words := by
  cases h with
  | text => exact newline_not_mem_collapse _
  | title => exact newline_not_mem_collapse _
  | hashLine he =>
    intro hc
    exact newline_not_mem_firstLine _ (mem_of_mem_words_hashLine he hc)
  | fenceLine => exact newline_not_mem_firstLine _
  | link _ hb => exact newline_not_mem_words_linkEvent hb
  | _ => exact List.not_mem_nil

theorem newline_not_mem_requestLine {name arguments : Text} (hn : '\n' ∉ name)
    (ha : '\n' ∉ arguments) : '\n' ∉ requestLine name arguments := by
  unfold requestLine
  split
  · exact hn
  · simp [hn, ha]

theorem newline_not_mem_textLine {t : Text} (h : '\n' ∉ t) : '\n' ∉ textLine t := by
  cases t with
  | nil => exact h
  | cons c t =>
    rw [textLine]
    split
    · rw [List.mem_cons, List.mem_cons, not_or, not_or]
      exact ⟨by decide, by decide, h⟩
    · exact h

theorem newline_not_mem_quoted {t : Text} (h : '\n' ∉ t) : '\n' ∉ quoted t := by
  have hb : '\n' ∉ quotedBody t := by
    simp only [quotedBody, List.mem_flatMap, not_exists, not_and]
    intro c hc
    split
    · decide
    · rw [List.mem_singleton]
      rintro rfl
      exact h hc
  simp [quoted, hb]

theorem newline_not_mem_ofNat (n : Nat) : '\n' ∉ ofNat n := by
  intro h
  have := Nat.isDigit_of_mem_toDigits (by decide) (by decide) h
  contradiction

theorem newline_not_mem_address {l : Link} (h : '\n' ∉ l.target) : '\n' ∉ l.address := by
  unfold Link.address
  split
  · exact fun hm => h (List.mem_of_mem_drop hm)
  · exact h

theorem newline_not_mem_manPage {page : Text} (h : '\n' ∉ page) :
    '\n' ∉ MacroPackage.manPage page := by
  unfold MacroPackage.manPage
  split
  · rename_i name volume hs
    obtain ⟨rfl, -⟩ := splitAtFirst_eq_some_iff.1 hs
    simp only [List.mem_append, List.mem_cons, not_or] at h
    refine List.not_mem_append (List.not_mem_append ?_ h.2.2) (by decide)
    exact List.not_mem_append (List.not_mem_append (by decide) h.1) (by decide)
  · exact List.not_mem_append (List.not_mem_append (by decide) h) (by decide)

theorem newline_not_mem_verbatimLines {on off line : Text} (hon : '\n' ∉ on) (hoff : '\n' ∉ off)
    (h : '\n' ∉ line) : ∀ l ∈ verbatimLines on off line, '\n' ∉ l := by
  unfold verbatimLines
  split <;> simp [hon, hoff, h]

theorem newline_not_mem_fenceLine {line : Text} (h : '\n' ∉ line) :
    ∀ l ∈ MacroPackage.fenceLine line, '\n' ∉ l :=
  newline_not_mem_verbatimLines (by decide) (by decide) h

theorem newline_not_mem_manItem (lists : OpenLists) :
    ∀ line ∈ MacroPackage.manItem lists, '\n' ∉ line := by
  unfold MacroPackage.manItem
  split
  · exact List.forall_mem_nil _
  · exact List.forall_mem_singleton.2 (by decide)
  · refine List.forall_mem_singleton.2 (List.not_mem_append ?_ (by decide))
    exact List.not_mem_append (by decide) (newline_not_mem_ofNat _)

theorem newline_not_mem_mdocListType (style : ListStyle) (depth : Nat) :
    '\n' ∉ MacroPackage.mdocListType style depth := by
  cases style with
  | numbered => exact (by decide : '\n' ∉ "enum".toList)
  | bulleted =>
    show '\n' ∉ if depth % 2 = 1 then _ else _
    split <;> decide

theorem newline_not_mem_momEnumerator (style : ListStyle) (depth : Nat) :
    '\n' ∉ MacroPackage.momEnumerator style depth := by
  cases style with
  | numbered =>
    show '\n' ∉ if depth = 2 then _ else if depth = 4 then _ else _
    split
    · decide
    · split <;> decide
  | bulleted =>
    show '\n' ∉ if depth % 2 = 1 then _ else _
    split <;> decide

section

variable {e : Event} (h : '\n' ∉ e.words) (lists : OpenLists)
include h

theorem newline_not_mem_man : ∀ line ∈ MacroPackage.man.lines e lists, '\n' ∉ line := by
  cases e with
  | text line => exact List.forall_mem_singleton.2 (newline_not_mem_textLine h)
  | fenceLine line => exact newline_not_mem_fenceLine h
  | itemOpen => exact newline_not_mem_manItem lists
  | heading rank title =>
    rw [Event.words] at h
    cases rank with
    | major => exact List.forall_mem_singleton.2 (newline_not_mem_requestLine (by decide) h)
    | minor => exact List.forall_mem_singleton.2 (newline_not_mem_requestLine (by decide) h)
    | sub =>
      refine List.forall_mem_cons.2 ⟨by decide, List.forall_mem_singleton.2 ?_⟩
      exact List.not_mem_append (List.not_mem_append (by decide) h) (by decide)
  | manPage page =>
    simp only [Event.words, List.mem_append, not_or] at h
    exact List.forall_mem_singleton.2 (newline_not_mem_manPage h.1)
  | link l =>
    simp only [Event.words, List.mem_append, not_or] at h
    have htitle := newline_not_mem_textLine h.1
    simp only [MacroPackage.man]
    split
    · have hopen : '\n' ∉ requestLine ".MT".toList l.address :=
        newline_not_mem_requestLine (by decide) (newline_not_mem_address h.2)
      exact List.forall_mem_cons.2 ⟨hopen, List.forall_mem_cons.2 ⟨htitle, by decide⟩⟩
    · have hopen : '\n' ∉ requestLine ".UR".toList l.target :=
        newline_not_mem_requestLine (by decide) h.2
      exact List.forall_mem_cons.2 ⟨hopen, List.forall_mem_cons.2 ⟨htitle, by decide⟩⟩
  | _ =>
    simp only [MacroPackage.man]
    decide

theorem newline_not_mem_mdoc : ∀ line ∈ MacroPackage.mdoc.lines e lists, '\n' ∉ line := by
  cases e with
  | text line => exact List.forall_mem_singleton.2 (newline_not_mem_textLine h)
  | fenceLine line => exact newline_not_mem_fenceLine h
  | listOpen style =>
    refine List.forall_mem_singleton.2 (List.not_mem_append ?_ (by decide))
    exact List.not_mem_append (by decide) (newline_not_mem_mdocListType style lists.depth)
  | heading rank title =>
    cases rank with
    | major => exact List.forall_mem_singleton.2 (newline_not_mem_requestLine (by decide) h)
    | minor => exact List.forall_mem_singleton.2 (newline_not_mem_requestLine (by decide) h)
    | sub => exact List.forall_mem_singleton.2 (newline_not_mem_requestLine (by decide) h)
  | manPage page =>
    simp only [Event.words, List.mem_append, not_or] at h
    exact List.forall_mem_singleton.2 (newline_not_mem_requestLine (by decide) h.1)
  | link l =>
    simp only [Event.words, List.mem_append, not_or] at h
    simp only [MacroPackage.mdoc]
    split
    · refine List.forall_mem_singleton.2 (List.not_mem_append ?_ (newline_not_mem_address h.2))
      exact List.not_mem_append (List.not_mem_append (by decide) h.1) (by decide)
    · refine List.forall_mem_singleton.2 (List.not_mem_append ?_ ?_)
      · exact List.not_mem_append (by decide) h.2
      · exact List.not_mem_cons_of_ne_of_not_mem (by decide) (newline_not_mem_quoted h.1)
  | _ =>
    simp only [MacroPackage.mdoc]
    decide

theorem newline_not_mem_mm : ∀ line ∈ MacroPackage.mm.lines e lists, '\n' ∉ line := by
  cases e with
  | text line => exact List.forall_mem_singleton.2 (newline_not_mem_textLine h)
  | fenceLine line => exact newline_not_mem_fenceLine h
  | listOpen style => cases style <;> exact List.forall_mem_singleton.2 (by decide)
  | heading rank title =>
    cases rank with
    | major => exact List.forall_mem_singleton.2 (newline_not_mem_requestLine (by decide) h)
    | minor => exact List.forall_mem_singleton.2 (newline_not_mem_requestLine (by decide) h)
    | sub => exact List.forall_mem_singleton.2 (newline_not_mem_requestLine (by decide) h)
  | manPage page =>
    simp only [Event.words, List.mem_append, not_or] at h
    exact List.forall_mem_singleton.2 (newline_not_mem_textLine h.1)
  | link l =>
    simp only [Event.words, List.mem_append, not_or] at h
    have htitle : '\n' ∉ l.title ++ " <".toList := List.not_mem_append h.1 (by decide)
    refine List.forall_mem_singleton.2 (newline_not_mem_textLine ?_)
    exact List.not_mem_append (List.not_mem_append htitle h.2) (by decide)
  | _ =>
    simp only [MacroPackage.mm]
    decide

theorem newline_not_mem_mom : ∀ line ∈ MacroPackage.mom.lines e lists, '\n' ∉ line := by
  cases e with
  | text line => exact List.forall_mem_singleton.2 (newline_not_mem_textLine h)
  | fenceLine line => exact newline_not_mem_verbatimLines (by decide) (by decide) h
  | listOpen style =>
    refine List.forall_mem_singleton.2 (List.not_mem_append (by decide) ?_)
    exact newline_not_mem_momEnumerator style lists.depth
  | heading rank title =>
    have hlevel : '\n' ∉ ".HEADING ".toList ++ MacroPackage.momLevel rank := by
      cases rank <;> decide
    refine List.forall_mem_singleton.2 (List.not_mem_append hlevel ?_)
    exact List.not_mem_cons_of_ne_of_not_mem (by decide) (newline_not_mem_quoted h)
  | manPage page =>
    simp only [Event.words, List.mem_append, not_or] at h
    exact List.forall_mem_singleton.2 (newline_not_mem_textLine h.1)
  | link l =>
    simp only [Event.words, List.mem_append, not_or] at h
    have htitle : '\n' ∉ l.title ++ " \\*[UL]".toList := List.not_mem_append h.1 (by decide)
    refine List.forall_mem_singleton.2 (newline_not_mem_textLine ?_)
    exact List.not_mem_append (List.not_mem_append htitle h.2) (by decide)
  | _ =>
    simp only [MacroPackage.mom]
    decide

/-- A dialect has lines for an event; none of them is broken unless the event says a newline. -/
theorem Dialect.newline_not_mem_lines (d : Dialect) :
    ∀ line ∈ d.package.lines e lists, '\n' ∉ line := by
  cases d with
  | man => exact newline_not_mem_man h lists
  | mdoc => exact newline_not_mem_mdoc h lists
  | mm => exact newline_not_mem_mm h lists
  | mom => exact newline_not_mem_mom h lists

end

/-! ## Requests -/

namespace Roff

/-- Whether roff takes a line for a request. -/
def isRequest (line : Text) : Bool := line.head?.any isControl

/-- The word that a line begins with. -/
def firstWord (line : Text) : Text := line.takeWhile (· != ' ')

/-- The names of the requests among some lines. -/
def requestNames (lines : List Text) : List Text := (lines.filter isRequest).map firstWord

theorem isRequest_append {name : Text} (h : isRequest name) (t : Text) :
    isRequest (name ++ t) := by
  cases name with
  | nil => cases h
  | cons c name => exact h

theorem isRequest_textLine (t : Text) : isRequest (textLine t) = false := by
  unfold isRequest
  cases h : (textLine t).head? with
  | none => rfl
  | some c => exact not_isControl_of_head?_textLine h

theorem isRequest_manPage (page : Text) : isRequest (MacroPackage.manPage page) = false := by
  unfold MacroPackage.manPage
  split <;> rfl

/-- A word ends at its space, whatever follows. -/
theorem firstWord_append {name : Text} (h : ' ' ∈ name) (t : Text) :
    firstWord (name ++ t) = firstWord name := by
  obtain ⟨word, rest, rfl⟩ := List.append_of_mem h
  induction word with
  | nil => rfl
  | cons c word ih =>
    have ih := ih (List.mem_append_right word List.mem_cons_self)
    simp only [firstWord, List.cons_append, List.takeWhile_cons] at ih ⊢
    rw [ih]

theorem firstWord_requestLine {name : Text} (h : ' ' ∉ name) (arguments : Text) :
    firstWord (requestLine name arguments) = name := by
  have hname (t : Text) : firstWord (name ++ t) = name ++ firstWord t := takeWhile_bne_append h t
  unfold requestLine
  split
  · rw [← List.append_nil name, hname, List.append_nil]
    exact List.append_nil name
  · rw [hname]
    exact List.append_nil name

variable {line name : Text} (lines : List Text)

theorem requestNames_cons_of_not_isRequest (h : isRequest line = false) :
    requestNames (line :: lines) = requestNames lines := by
  rw [requestNames, List.filter_cons_of_neg (by rw [h]; exact Bool.false_ne_true)]
  rfl

theorem requestNames_textLine_cons (t : Text) :
    requestNames (textLine t :: lines) = requestNames lines :=
  requestNames_cons_of_not_isRequest lines (isRequest_textLine t)

theorem requestNames_append_cons (h : isRequest name) (hs : ' ' ∈ name) (t : Text) :
    requestNames ((name ++ t) :: lines) = firstWord name :: requestNames lines := by
  rw [requestNames, List.filter_cons_of_pos (isRequest_append h t), List.map_cons,
    firstWord_append hs]
  rfl

theorem requestNames_requestLine_cons (h : isRequest name) (hs : ' ' ∉ name) (arguments : Text) :
    requestNames (requestLine name arguments :: lines) = name :: requestNames lines := by
  have hr : isRequest (requestLine name arguments) := by
    unfold requestLine
    split
    · exact h
    · exact isRequest_append h _
  rw [requestNames, List.filter_cons_of_pos hr, List.map_cons, firstWord_requestLine hs]
  rfl

end Roff

/-- The names of the requests that a dialect writes outside of fenced blocks. -/
def Dialect.requests (d : Dialect) : List Text :=
  (match d with
  | .man =>
    [".PP", ".br", ".RS", ".EX", ".EE", ".RE", ".IP", ".SH", ".SS", ".TP", ".B", ".FT", ".MT",
      ".ME", ".UR", ".UE"]
  | .mdoc =>
    [".Pp", ".br", ".Bd", ".Ed", ".Bl", ".It", ".El", ".Sh", ".Ss", ".FT", ".Xr", ".An", ".Lk"]
  | .mm =>
    [".PP", ".br", ".RS", ".EX", ".EE", ".RE", ".AL", ".BL", ".LI", ".LE", ".SH", ".SS", ".FT"]
  | .mom => [".PP", ".BR", ".CODE", ".LIST", ".ITEM", ".HEADING", ".DRH"]).map String.toList

/-- Two events that differ in nothing but what they say.  A link to a mailbox is of another kind
than a link to elsewhere. -/
inductive Event.SameKind : Event → Event → Prop
  | refl (e : Event) : SameKind e e
  | text (a b : Text) : SameKind (.text a) (.text b)
  | heading (rank : SectionRank) (a b : Text) : SameKind (.heading rank a) (.heading rank b)
  | manPage (a b : Text) : SameKind (.manPage a) (.manPage b)
  | link {a b : Link} (h : a.isMail = b.isMail) : SameKind (.link a) (.link b)

section

variable (d : Dialect) (lists : OpenLists)

theorem requestNames_text (t : Text) : requestNames (d.package.lines (.text t) lists) = [] := by
  cases d <;> exact requestNames_textLine_cons [] t

theorem exists_requestNames_heading (rank : SectionRank) : ∃ names, (∀ n ∈ names, n ∈ d.requests) ∧
    ∀ t, requestNames (d.package.lines (.heading rank t) lists) = names := by
  cases d with
  | man =>
    cases rank with
    | major =>
      exact ⟨[".SH".toList], by decide, requestNames_requestLine_cons [] (by decide) (by decide)⟩
    | minor =>
      exact ⟨[".SS".toList], by decide, requestNames_requestLine_cons [] (by decide) (by decide)⟩
    | sub => exact ⟨[".TP".toList], by decide, fun _ => rfl⟩
  | mdoc =>
    cases rank with
    | major =>
      exact ⟨[".Sh".toList], by decide, requestNames_requestLine_cons [] (by decide) (by decide)⟩
    | minor =>
      exact ⟨[".Ss".toList], by decide, requestNames_requestLine_cons [] (by decide) (by decide)⟩
    | sub =>
      exact ⟨[".Ss".toList], by decide, requestNames_requestLine_cons [] (by decide) (by decide)⟩
  | mm =>
    cases rank with
    | major =>
      exact ⟨[".SH".toList], by decide, requestNames_requestLine_cons [] (by decide) (by decide)⟩
    | minor =>
      exact ⟨[".SS".toList], by decide, requestNames_requestLine_cons [] (by decide) (by decide)⟩
    | sub =>
      exact ⟨[".SS".toList], by decide, requestNames_requestLine_cons [] (by decide) (by decide)⟩
  | mom =>
    refine ⟨[".HEADING".toList], by decide, fun t => ?_⟩
    show requestNames [".HEADING ".toList ++ _ ++ _] = _
    rw [List.append_assoc, requestNames_append_cons [] (by decide) (by decide)]
    rfl

theorem exists_requestNames_manPage : ∃ names, (∀ n ∈ names, n ∈ d.requests) ∧
    ∀ t, requestNames (d.package.lines (.manPage t) lists) = names := by
  cases d with
  | man =>
    refine ⟨[], by decide, fun t => ?_⟩
    exact requestNames_cons_of_not_isRequest [] (isRequest_manPage t)
  | mdoc =>
    exact ⟨[".Xr".toList], by decide, requestNames_requestLine_cons [] (by decide) (by decide)⟩
  | mm => exact ⟨[], by decide, requestNames_textLine_cons []⟩
  | mom => exact ⟨[], by decide, requestNames_textLine_cons []⟩

theorem exists_requestNames_link (mail : Bool) : ∃ names, (∀ n ∈ names, n ∈ d.requests) ∧
    ∀ l : Link, l.isMail = mail → requestNames (d.package.lines (.link l) lists) = names := by
  cases d with
  | man =>
    cases mail with
    | true =>
      refine ⟨[".MT".toList, ".ME".toList], by decide, fun l hl => ?_⟩
      show requestNames (if l.isMail then [_, _, _] else _) = _
      rw [if_pos hl, requestNames_requestLine_cons _ (by decide) (by decide),
        requestNames_textLine_cons]
      rfl
    | false =>
      refine ⟨[".UR".toList, ".UE".toList], by decide, fun l hl => ?_⟩
      show requestNames (if l.isMail then _ else [_, _, _]) = _
      rw [if_neg (Bool.eq_false_iff.1 hl), requestNames_requestLine_cons _ (by decide) (by decide),
        requestNames_textLine_cons]
      rfl
  | mdoc =>
    cases mail with
    | true =>
      refine ⟨[".An".toList], by decide, fun l hl => ?_⟩
      show requestNames (if l.isMail then [".An ".toList ++ _ ++ _ ++ _] else _) = _
      rw [if_pos hl, List.append_assoc, List.append_assoc,
        requestNames_append_cons [] (by decide) (by decide)]
      rfl
    | false =>
      refine ⟨[".Lk".toList], by decide, fun l hl => ?_⟩
      show requestNames (if l.isMail then _ else [".Lk ".toList ++ _ ++ _]) = _
      rw [if_neg (Bool.eq_false_iff.1 hl), List.append_assoc,
        requestNames_append_cons [] (by decide) (by decide)]
      rfl
  | mm => exact ⟨[], by decide, fun l _ => requestNames_textLine_cons [] _⟩
  | mom => exact ⟨[], by decide, fun l _ => requestNames_textLine_cons [] _⟩

theorem requestNames_listOpen (style : ListStyle) :
    ∀ n ∈ requestNames (d.package.lines (.listOpen style) lists), n ∈ d.requests := by
  cases d with
  | man => exact List.forall_mem_nil _
  | mdoc =>
    show ∀ n ∈ requestNames [".Bl -".toList ++ _ ++ _], _
    rw [List.append_assoc, requestNames_append_cons [] (by decide) (by decide)]
    decide
  | mm =>
    cases style with
    | numbered => exact (by decide : ∀ n ∈ [".AL".toList], n ∈ Dialect.mm.requests)
    | bulleted => exact (by decide : ∀ n ∈ [".BL".toList], n ∈ Dialect.mm.requests)
  | mom =>
    show ∀ n ∈ requestNames [".LIST ".toList ++ _], _
    rw [requestNames_append_cons [] (by decide) (by decide)]
    decide

theorem requestNames_itemOpen :
    ∀ n ∈ requestNames (d.package.lines .itemOpen lists), n ∈ d.requests := by
  cases d with
  | man =>
    show ∀ n ∈ requestNames (MacroPackage.manItem lists), _
    unfold MacroPackage.manItem
    split
    · exact List.forall_mem_nil _
    · decide
    · rw [List.append_assoc, requestNames_append_cons [] (by decide) (by decide)]
      decide
  | mdoc => exact (by decide : ∀ n ∈ [".It".toList], n ∈ Dialect.mdoc.requests)
  | mm => exact (by decide : ∀ n ∈ [".LI".toList], n ∈ Dialect.mm.requests)
  | mom => exact (by decide : ∀ n ∈ [".ITEM".toList], n ∈ Dialect.mom.requests)

/-- **What an event says has no part in the requests that are written for it.** -/
theorem Dialect.exists_requestNames {e : Event} (hf : ∀ line, e ≠ .fenceLine line) :
    ∃ names, (∀ n ∈ names, n ∈ d.requests) ∧
      ∀ b, e.SameKind b → requestNames (d.package.lines b lists) = names := by
  have hrefl (h : ∀ n ∈ requestNames (d.package.lines e lists), n ∈ d.requests)
      (hb : ∀ b, e.SameKind b → b = e) : ∃ names, (∀ n ∈ names, n ∈ d.requests) ∧
      ∀ b, e.SameKind b → requestNames (d.package.lines b lists) = names :=
    ⟨_, h, fun b hk => by rw [hb b hk]⟩
  cases e with
  | text t =>
    refine ⟨[], List.forall_mem_nil _, fun b hb => ?_⟩
    cases hb <;> exact requestNames_text d lists _
  | fenceLine line => exact absurd rfl (hf line)
  | heading rank t =>
    obtain ⟨names, hown, hnames⟩ := exists_requestNames_heading d lists rank
    refine ⟨names, hown, fun b hb => ?_⟩
    cases hb <;> exact hnames _
  | manPage t =>
    obtain ⟨names, hown, hnames⟩ := exists_requestNames_manPage d lists
    refine ⟨names, hown, fun b hb => ?_⟩
    cases hb <;> exact hnames _
  | link l =>
    obtain ⟨names, hown, hnames⟩ := exists_requestNames_link d lists l.isMail
    refine ⟨names, hown, fun b hb => ?_⟩
    cases hb with
    | refl => exact hnames l rfl
    | link h => exact hnames _ h.symm
  | listOpen style =>
    refine hrefl (requestNames_listOpen d lists style) fun b hb => ?_
    cases hb
    rfl
  | itemOpen =>
    refine hrefl (requestNames_itemOpen d lists) fun b hb => ?_
    cases hb
    rfl
  | _ =>
    refine hrefl ?_ fun b hb => ?_
    · cases d <;>
        simp only [Dialect.package, MacroPackage.man, MacroPackage.mdoc, MacroPackage.mm,
          MacroPackage.mom] <;> decide
    · cases hb
      rfl

end

/-! ## Documents -/

theorem split_of_not_mem {c : Char} {t : Text} (h : c ∉ t) : split c t = [t] := by
  induction t with
  | nil => rfl
  | cons x t ih =>
    rw [List.mem_cons, not_or] at h
    rw [split, if_neg (Ne.symm h.1), ih h.2]

/-- Lines are read back one by one when no newline is in them. -/
theorem split_ofLines {lines : List Text} (h : ∀ line ∈ lines, '\n' ∉ line) :
    split '\n' (ofLines lines) = lines ++ [[]] := by
  induction lines with
  | nil => rfl
  | cons line lines ih =>
    obtain ⟨hline, hlines⟩ := List.forall_mem_cons.1 h
    have hcons : ofLines (line :: lines) = line ++ '\n' :: ofLines lines := by
      simp [ofLines]
    rw [hcons, split_append, split_of_not_mem hline, ih hlines]
    rfl

theorem Zipper.newline_not_mem_lines (d : Dialect) (z : Zipper) :
    ∀ line ∈ z.trace.lines d.package, '\n' ∉ line := by
  intro line hline
  obtain ⟨r, hr, hline⟩ := List.mem_flatMap.1 hline
  obtain ⟨m, -, hm⟩ := z.exists_raises hr
  exact d.newline_not_mem_lines (State.newline_not_mem_words hm) r.lists line hline

/-- **Nothing in a document begins a request.**  What is written for an event is whole lines, and
outside of fenced blocks a request among them is one of the dialect's own, which another event of
the same kind has as well, whatever it says. -/
theorem running_text_is_no_request (d : Dialect) (z : Zipper) :
    (∀ line ∈ z.trace.lines d.package, '\n' ∉ line) ∧
    split '\n' (ofLines (z.trace.lines d.package)) = z.trace.lines d.package ++ [[]] ∧
    ∀ r ∈ z.trace.events d.package.markup, (∀ line, r.item ≠ .fenceLine line) →
      (∀ line ∈ d.package.lines r.item r.lists, isRequest line → firstWord line ∈ d.requests) ∧
      ∀ e, r.item.SameKind e → requestNames (d.package.lines e r.lists) =
        requestNames (d.package.lines r.item r.lists) := by
  have hlines := z.newline_not_mem_lines d
  refine ⟨hlines, split_ofLines hlines, ?_⟩
  intro r _ hf
  obtain ⟨names, hown, hnames⟩ := d.exists_requestNames r.lists hf
  refine ⟨fun line hline hr => ?_, fun e he => (hnames e he).trans (hnames _ (.refl _)).symm⟩
  apply hown
  rw [← hnames _ (.refl _)]
  exact List.mem_map_of_mem (List.mem_filter.2 ⟨hline, hr⟩)

/-- A line of text that looks like a section, after a section. -/
theorem running_text_is_no_request_after_point :
    let z : Zipper := .start "a\n===\n\\.SH [.TH](.b)".toList
    let r : Raised Event := ⟨.text ".SH".toList, ⟨[], by decide⟩⟩
    r ∈ z.trace.events Dialect.man.package.markup ∧ (∀ line, r.item ≠ .fenceLine line) ∧
      (∀ line ∈ Dialect.man.package.lines r.item r.lists, isRequest line →
        firstWord line ∈ Dialect.man.requests) ∧
      ∀ e, r.item.SameKind e → requestNames (Dialect.man.package.lines e r.lists) =
        requestNames (Dialect.man.package.lines r.item r.lists) := by
  intro z r
  have hr : r ∈ z.trace.events Dialect.man.package.markup := by decide +kernel
  have hf : ∀ line, r.item ≠ .fenceLine line := by
    intro line h
    cases h
  exact ⟨hr, hf, (running_text_is_no_request .man z).2.2 r hr hf⟩

end Roffdown
