import Roffdown.Proofs.RunningText

/-!
# Fonts of running text

roff knows the current font and the one before it.  Bold, italic and code each select a font, and
each of them ends by going back to the font before, so roff forgets the roman font when one of them
begins inside of another.  Text outside of all of them is set in roman as long as they stand apart.

* `Roff.Typesetter`: roff in running text, with its fonts.
* `Roff.Typesetter.read_expand`: what the marks of running text do to the fonts.
* `SpansApart`: bold, italic and code begin only where neither bold nor italic is on.
* `Toggles.fonts`: the roman font is kept as long as they do, and is lost for good when not.
* `Zipper.plain_text_is_roman`: the font of every character outside of bold, italic and code.
-/

namespace Roffdown

open Markdown Roff Text
open State (Reads)

namespace Roff

/-! ## Setting text -/

/-- The fonts of roff, by their names. -/
structure Fonts where
  current : Text
  previous : Text
deriving DecidableEq

/-- The roman font. -/
def roman : Text := ['R']

namespace Fonts

/-- The fonts where a text begins. -/
def start : Fonts := ⟨roman, roman⟩

/-- A font is selected by its name; `P` is the one before. -/
def select (name : Text) (f : Fonts) : Fonts :=
  if name = ['P'] then ⟨f.previous, f.current⟩ else ⟨name, f.current⟩

/-- The fonts after a mark. -/
def after (f : Fonts) : FontMark → Fonts
  | .boldOn => f.select ['B']
  | .italicOn => f.select ['I']
  | .codeOn => f.select ['C', 'R']
  | .styleOff | .codeOff => f.select ['P']

/-- The fonts after marks. -/
def afterAll (f : Fonts) (marks : List FontMark) : Fonts := marks.foldl after f

theorem afterAll_append (f : Fonts) (a b : List FontMark) :
    f.afterAll (a ++ b) = (f.afterAll a).afterAll b := List.foldl_append

end Fonts

/-- How much of an escape sequence is read. -/
inductive Escape
  | none
  /-- The backslash. -/
  | begun
  /-- The backslash and `f`. -/
  | font
  /-- The beginning of a name in brackets. -/
  | named (name : Text)
deriving DecidableEq

/-- roff within a line of text. -/
structure Typesetter where
  escape : Escape
  fonts : Fonts
  /-- The characters that are set, each with its font. -/
  set : List (Char × Text)
deriving DecidableEq

namespace Typesetter

/-- Where a text begins. -/
def start : Typesetter := ⟨.none, .start, []⟩

/-- Reads a character.  `\f` selects a font, by a name of one character or by one in brackets; of
other escape sequences it matters here only that they set nothing. -/
def readChar (t : Typesetter) (c : Char) : Typesetter :=
  match t.escape with
  | .none =>
    if c = '\\' then { t with escape := .begun }
    else { t with set := t.set ++ [(c, t.fonts.current)] }
  | .begun => { t with escape := if c = 'f' then .font else .none }
  | .font =>
    if c = '[' then { t with escape := .named [] }
    else { t with escape := .none, fonts := t.fonts.select [c] }
  | .named name =>
    if c = ']' then { t with escape := .none, fonts := t.fonts.select name }
    else { t with escape := .named (name ++ [c]) }

/-- Reads a text. -/
def read (t : Typesetter) (line : Text) : Typesetter := line.foldl readChar t

variable {t : Typesetter}

theorem read_append (t : Typesetter) (u v : Text) : t.read (u ++ v) = (t.read u).read v :=
  List.foldl_append

/-- A character that is none of an escape sequence is set in the current font. -/
theorem read_singleton (ht : t.escape = .none) {c : Char} (hc : c ≠ '\\') :
    t.read [c] = { t with set := t.set ++ [(c, t.fonts.current)] } := by
  show t.readChar c = _
  rw [readChar, ht]
  exact if_neg hc

/-- A mark sets no more than what it shows, and changes the fonts. -/
theorem read_mark (ht : t.escape = .none) (x : FontMark) :
    (t.read (MacroPackage.fontMarkup x)).escape = .none ∧
      (t.read (MacroPackage.fontMarkup x)).fonts = t.fonts.after x := by
  obtain ⟨escape, fonts, set⟩ := t
  obtain rfl : escape = .none := ht
  cases x <;> exact ⟨rfl, rfl⟩

/-- **The fonts after running text are those after its marks.** -/
theorem read_expand (ht : t.escape = .none) {pieces : List Piece} (hp : .char '\\' ∉ pieces) :
    (t.read (expand MacroPackage.fontMarkup pieces)).escape = .none ∧
      (t.read (expand MacroPackage.fontMarkup pieces)).fonts =
        t.fonts.afterAll (marksOf pieces) := by
  induction pieces generalizing t with
  | nil => exact ⟨ht, rfl⟩
  | cons p pieces ih =>
    rw [List.mem_cons, not_or] at hp
    have hexpand : expand MacroPackage.fontMarkup (p :: pieces) =
        p.expand MacroPackage.fontMarkup ++ expand MacroPackage.fontMarkup pieces := rfl
    rw [hexpand, read_append]
    cases p with
    | char c =>
      have hread := read_singleton ht (c := c) fun hc => hp.1 (by rw [hc])
      rw [Piece.expand, hread]
      exact ih ht hp.2
    | mark x =>
      obtain ⟨hescape, hfonts⟩ := read_mark ht x
      obtain ⟨hescape', hfonts'⟩ := ih hescape hp.2
      exact ⟨hescape', hfonts'.trans (congrArg (Fonts.afterAll · (marksOf pieces)) hfonts)⟩

end Typesetter

end Roff

/-! ## The roman font -/

/-- Whether a mark begins bold, italic or code. -/
def FontMark.begins : FontMark → Bool
  | .boldOn | .italicOn | .codeOn => true
  | _ => false

/-- Bold, italic and code begin only where bold and italic have ended as often as they began. -/
def SpansApart (marks : List FontMark) : Prop :=
  ∀ a x b, marks = a ++ x :: b → x.begins → openCount a = closeCount a

theorem spansApart_nil : SpansApart [] := fun a x b he => absurd he (by simp)

theorem spansApart_concat {l : List FontMark} {y : FontMark} : SpansApart (l ++ [y]) ↔
    SpansApart l ∧ (y.begins → openCount l = closeCount l) := by
  constructor
  · intro h
    refine ⟨fun a x b he => h a x (b ++ [y]) (by rw [he, List.append_assoc]; rfl), ?_⟩
    exact h l y [] rfl
  · rintro ⟨hl, hy⟩ a x b he
    rcases concat_eq_append_cons he with ⟨rfl, rfl⟩ | ⟨c, -, hc⟩
    · exact hy
    · exact hl a x c hc

namespace Roff.Fonts

variable {f : Fonts} {x : FontMark}

theorem after_of_begins (hx : x.begins) (f : Fonts) :
    (f.after x).current ≠ roman ∧ (f.after x).previous = f.current := by
  cases x with
  | boldOn => exact ⟨(by decide : ['B'] ≠ roman), rfl⟩
  | italicOn => exact ⟨(by decide : ['I'] ≠ roman), rfl⟩
  | codeOn => exact ⟨(by decide : ['C', 'R'] ≠ roman), rfl⟩
  | _ => cases hx

theorem after_of_end (hx : x.begins = false) (f : Fonts) : f.after x = ⟨f.previous, f.current⟩ := by
  cases x <;> first | (cases hx; done) | rfl

/-- The roman font is forgotten. -/
structure Lost (f : Fonts) : Prop where
  current : f.current ≠ roman
  previous : f.previous ≠ roman

/-- What begins while another font is current makes roff forget the font before. -/
theorem lost_of_begins (h : f.current ≠ roman) (hx : x.begins) : (f.after x).Lost := by
  obtain ⟨hcurrent, hprevious⟩ := after_of_begins hx f
  exact ⟨hcurrent, by rwa [hprevious]⟩

theorem Lost.after (h : f.Lost) (x : FontMark) : (f.after x).Lost := by
  cases hx : x.begins with
  | true => exact lost_of_begins h.current hx
  | false =>
    rw [after_of_end hx]
    exact ⟨h.previous, h.current⟩

/-- The roman font is current where bold and italic are off, and the one before where one is on. -/
inductive Kept (f : Fonts) : Bool → Bool → Prop
  | plain (hc : f.current = roman) : Kept f false false
  | bold (hc : f.current ≠ roman) (hp : f.previous = roman) : Kept f true false
  | italic (hc : f.current ≠ roman) (hp : f.previous = roman) : Kept f false true

end Roff.Fonts

open Roff.Fonts (Kept Lost after_of_begins after_of_end lost_of_begins)

theorem afterAll_concat (l : List FontMark) (x : FontMark) :
    Fonts.start.afterAll (l ++ [x]) = (Fonts.start.afterAll l).after x :=
  Fonts.afterAll_append _ l [x]

/-- Marks that stand apart and leave bold and italic so, after which the roman font is kept. -/
structure Keeps (l : List FontMark) (bold italic : Bool) : Prop where
  apart : SpansApart l
  fonts : Kept (Fonts.start.afterAll l) bold italic

/-- Marks that do not stand apart, after which the roman font is forgotten. -/
structure Forgets (l : List FontMark) : Prop where
  apart : ¬ SpansApart l
  fonts : Lost (Fonts.start.afterAll l)

variable {l : List FontMark} {bold italic : Bool} {x : FontMark}

/-- What is forgotten stays forgotten. -/
theorem Forgets.concat (h : Forgets l) (x : FontMark) : Forgets (l ++ [x]) where
  apart := fun hs => h.apart (spansApart_concat.1 hs).1
  fonts := by
    rw [afterAll_concat]
    exact h.fonts.after x

/-- So it is when something begins while bold or italic is on. -/
theorem forgets_concat (hon : openCount l ≠ closeCount l)
    (hc : (Fonts.start.afterAll l).current ≠ roman) (hx : x.begins) : Forgets (l ++ [x]) where
  apart := fun hs => hon ((spansApart_concat.1 hs).2 hx)
  fonts := by
    rw [afterAll_concat]
    exact lost_of_begins hc hx

/-- Where bold and italic are off something can begin. -/
theorem Keeps.begins (h : Keeps l false false) (hoff : openCount l = closeCount l)
    (hx : x.begins) : SpansApart (l ++ [x]) ∧
      (Fonts.start.afterAll (l ++ [x])).current ≠ roman ∧
      (Fonts.start.afterAll (l ++ [x])).previous = roman := by
  obtain ⟨hcurrent, hprevious⟩ := after_of_begins hx (Fonts.start.afterAll l)
  have hroman : (Fonts.start.afterAll l).current = roman := by
    cases h.fonts with
    | plain hc => exact hc
  rw [afterAll_concat]
  exact ⟨spansApart_concat.2 ⟨h.apart, fun _ => hoff⟩, hcurrent, hprevious.trans hroman⟩

/-- And it ends with the roman font. -/
theorem keeps_concat (hs : SpansApart l) (hp : (Fonts.start.afterAll l).previous = roman)
    (hx : x.begins = false) : Keeps (l ++ [x]) false false where
  apart := spansApart_concat.2 ⟨hs, fun h => absurd h (by rw [hx]; decide)⟩
  fonts := by
    refine .plain ?_
    rw [afterAll_concat, after_of_end hx]
    exact hp

/-- Inline code while bold and italic are as they are. -/
theorem keeps_or_forgets_code (ht : Toggles l bold italic) (h : Keeps l bold italic) :
    Keeps (l ++ [.codeOn, .codeOff]) bold italic ∨ Forgets (l ++ [.codeOn, .codeOff]) := by
  have hcount := ht.openCount_eq
  rw [List.append_cons l .codeOn [.codeOff]]
  cases h.fonts with
  | plain hc =>
    obtain ⟨hs, -, hp⟩ := h.begins hcount (x := .codeOn) rfl
    exact .inl (keeps_concat hs hp rfl)
  | bold hc _ => exact .inr ((forgets_concat (by rw [hcount]; simp) hc rfl).concat _)
  | italic hc _ => exact .inr ((forgets_concat (by rw [hcount]; simp) hc rfl).concat _)

/-- **The roman font is kept as long as bold, italic and code stand apart**, and then forgotten for
good. -/
theorem Toggles.keeps_or_forgets (h : Toggles l bold italic) : Keeps l bold italic ∨ Forgets l := by
  induction h with
  | nil => exact .inl ⟨spansApart_nil, .plain rfl⟩
  | code ht ih =>
    rcases ih with h | h
    · exact keeps_or_forgets_code ht h
    · rw [List.append_cons]
      exact .inr ((h.concat _).concat _)
  | boldOn ht ih =>
    rcases ih with h | h
    · have hcount := ht.openCount_eq
      cases h.fonts with
      | plain _ =>
        obtain ⟨hs, hc, hp⟩ := h.begins hcount (x := .boldOn) rfl
        exact .inl ⟨hs, .bold hc hp⟩
      | italic hc _ => exact .inr (forgets_concat (by rw [hcount]; simp) hc rfl)
    · exact .inr (h.concat _)
  | boldOff _ ih =>
    rcases ih with h | h
    · cases h.fonts with
      | bold _ hp => exact .inl (keeps_concat h.apart hp rfl)
    · exact .inr (h.concat _)
  | italicOn ht ih =>
    rcases ih with h | h
    · have hcount := ht.openCount_eq
      cases h.fonts with
      | plain _ =>
        obtain ⟨hs, hc, hp⟩ := h.begins hcount (x := .italicOn) rfl
        exact .inl ⟨hs, .italic hc hp⟩
      | bold hc _ => exact .inr (forgets_concat (by rw [hcount]; simp) hc rfl)
    · exact .inr (h.concat _)
  | italicOff _ ih =>
    rcases ih with h | h
    · cases h.fonts with
      | italic _ hp => exact .inl (keeps_concat h.apart hp rfl)
    · exact .inr (h.concat _)

/-- Where bold and italic are off, the roman font is current just when it has been kept. -/
theorem Toggles.current_eq_roman_iff (h : Toggles l false false) :
    (Fonts.start.afterAll l).current = roman ↔ SpansApart l := by
  rcases h.keeps_or_forgets with h | h
  · cases h.fonts with
    | plain hc => exact iff_of_true hc h.apart
  · exact iff_of_false h.fonts.current h.apart

/-! ## The line of a document -/

theorem solid_fontMarkup : MacroPackage.fontMarkup.Solid :=
  Markup.solid_of_all fun x => by cases x <;> decide

theorem Dialect.markup_eq {d : Dialect} (hd : d ≠ .mom) :
    d.package.markup = MacroPackage.fontMarkup := by
  cases d with
  | mom => contradiction
  | _ => rfl

/-- What is shown of signals is shown of those that become events. -/
theorem filter_pieces (signals : List (Raised Signal)) :
    (signals.flatMap fun r => r.item.pieces).filter Piece.isShown =
      ((signals.filter (·.item.isShown)).flatMap fun r => r.item.pieces).filter Piece.isShown := by
  induction signals with
  | nil => rfl
  | cons r signals ih =>
    rw [List.flatMap_cons, List.filter_append, ih, List.filter_cons]
    split
    · rw [List.flatMap_cons, List.filter_append]
    · rename_i hr
      have hnone : r.item.pieces.filter Piece.isShown = [] := by
        rw [List.filter_eq_nil_iff]
        cases hitem : r.item with
        | event e => exact List.forall_mem_nil _
        | _ p => simpa [hitem, Signal.isShown, Signal.pieces] using hr
      rw [hnone, List.nil_append]

/-- A document whose only event is a line of text: the line has all of the running text that is
shown. -/
theorem Zipper.exists_line {z : Zipper} {d : Dialect} (hd : d ≠ .mom) {line : Text}
    {l : OpenLists} (h : z.trace.events d.package.markup = [⟨.text line, l⟩]) :
    ∃ (left : List Piece) (rest : Text), line = expand MacroPackage.fontMarkup left ++ rest ∧
      left.filter Piece.isShown =
        (Raised.parts z.trace.raised).flatten.filter Piece.isShown := by
  rw [Raised.flatten_parts, filter_pieces]
  have hrun : (z.trace.raised.filter (·.item.isShown)).map (Raised.spelled d.package.markup) =
      [⟨.text line, l⟩] := (Backend.events_eq (.dialect d) z.trace.raised).symm.trans h
  obtain ⟨r, hr, hspelled⟩ := List.map_eq_singleton_iff.1 hrun
  rw [hr]
  rw [Dialect.markup_eq hd] at hspelled
  obtain ⟨signal, lists⟩ := r
  cases signal with
  | text p =>
    obtain ⟨left, hleft, hshown⟩ := exists_collapse_expand solid_fontMarkup p
    obtain ⟨hline, -⟩ := Raised.mk.inj hspelled
    refine ⟨left, [], ?_, by simpa [Signal.pieces] using hshown⟩
    rw [List.append_nil, ← hleft]
    exact (Event.text.inj hline).symm
  | title p =>
    obtain ⟨hline, -⟩ := Raised.mk.inj hspelled
    cases hline
  | event e => exact ⟨[], line, rfl, rfl⟩

/-- The place in a line that a piece of the running text has there. -/
theorem exists_place {left p q : List Piece} {c : Char}
    (h : left.filter Piece.isShown = (p ++ .char c :: q).filter Piece.isShown) :
    ∃ u v, left = u ++ v ∧ u.filter Piece.isShown = p.filter Piece.isShown ∧
      (isBlank c = false → v.head? = some (.char c)) := by
  rw [List.filter_append] at h
  obtain ⟨u, v, rfl, hu, hv⟩ := List.filter_eq_append_iff.1 h
  by_cases hc : isBlank c
  · exact ⟨u, v, rfl, hu, fun hn => absurd hc (by rw [hn]; decide)⟩
  · have hshown : Piece.isShown (.char c) := by simpa [Piece.isShown] using hc
    rw [List.filter_cons_of_pos hshown] at hv
    obtain ⟨g, w, rfl, hg, -, -⟩ := List.filter_eq_cons_iff.1 hv
    refine ⟨u ++ g, .char c :: w, by simp, ?_, fun _ => rfl⟩
    rw [List.filter_append, hu, List.filter_eq_nil_iff.2 hg, List.append_nil]

/-- What is not blank in the spelling of pieces is that of the pieces that are shown. -/
theorem filter_expand (k : Markup) (p : List Piece) :
    (expand k p).filter (fun c => !isBlank c) =
      (expand k (p.filter Piece.isShown)).filter fun c => !isBlank c := by
  induction p with
  | nil => rfl
  | cons x p ih =>
    have hcons (q : List Piece) : expand k (x :: q) = x.expand k ++ expand k q := rfl
    by_cases hx : x.isShown
    · rw [List.filter_cons_of_pos hx, hcons, hcons, List.filter_append, List.filter_append, ih]
    · rw [List.filter_cons_of_neg hx, hcons, List.filter_append, ← ih]
      cases x with
      | char c =>
        have hc : isBlank c := by simpa [Piece.isShown] using hx
        rw [Piece.expand, List.filter_cons_of_neg (by simp [hc])]
        rfl
      | mark y => exact absurd rfl hx

/-- The next step puts a character into the running text, after some pieces, while bold and italic
are off and outside of code. -/
structure State.PutsPlain (s : State) (earlier : List Piece) (c : Char) : Prop where
  bold : s.bold = false
  italic : s.italic = false
  code : s.input.next? ≠ some codeMark
  rest : s.input.rest ≠ []
  step : ∃ n later, s.step = .ok n ∧ n.put s = earlier ++ .char c :: later

/-- Then it puts in no marks, and a character of the text or one no higher than a space. -/
theorem State.marksOf_of_char {s : State} {n : Move} (hs : s.input.rest ≠ [])
    (hn : s.step = .ok n) (hcode : s.input.next? ≠ some codeMark) {c : Char}
    (hc : .char c ∈ n.put s) : marksOf (n.put s) = [] ∧ (c ∈ s.input.rest ∨ c ≤ ' ') := by
  have hputs := (writes_of_step hs hn).puts
  generalize n.put s = pieces, n.next.bold = bold, n.next.italic = italic at hputs hc
  cases hputs with
  | chars h =>
    obtain ⟨d, hd, he⟩ := List.mem_map.1 hc
    obtain rfl := Piece.char.inj he
    exact ⟨marksOf_chars _, h d hd⟩
  | code hz => exact absurd hz hcode
  | _ => cases List.mem_singleton.1 hc

/-- **Outside of bold, italic and code a character is set in roman just when all of them before it
stand apart.**  The body of the document is a single line of text.  Up to some place the line has
what was put in before the character, but for blanks; there it stands, if it is not blank, and it is
set in this font. -/
theorem Zipper.plain_text_is_roman {d : Dialect} (hd : d ≠ .mom) {z : Zipper}
    (hz : '\\' ∉ z.rest) (hok : z.trace.failure? = none) {line : Text} {l : OpenLists}
    (hevents : z.trace.events d.package.markup = [⟨.text line, l⟩]) {m : Move}
    (hm : Reads (.initial z) m) {a : List Piece} {c : Char} (hp : m.next.PutsPlain a c) :
    ∃ before after font, line = before ++ after ∧
      before.filter (fun x => !isBlank x) =
        (expand d.package.markup (m.put (.initial z) ++ a)).filter (fun x => !isBlank x) ∧
      (isBlank c = false → after.head? = some c) ∧
      (Typesetter.start.read (before ++ [c])).set =
        (Typesetter.start.read before).set ++ [(c, font)] ∧
      (font = roman ↔ SpansApart (marksOf (m.put (.initial z)))) := by
  obtain ⟨n, b, hn, hput⟩ := hp.step
  have hmn := hm.snoc hp.rest hn
  have hputs : (m.andThen fun _ => n).put (.initial z) =
      m.put (.initial z) ++ a ++ .char c :: b := by
    rw [State.put_andThen hm (State.reads_of_step hp.rest hn), hput, List.append_assoc]
  -- The line has the running text of the document, which has the character at its place.
  obtain ⟨k, hk, hend⟩ := exists_reads_to_end hok hmn
  obtain ⟨left, rest, hline, hshown⟩ := exists_line hd hevents
  rw [flatten_parts_trace (hmn.trans hk) hend, State.put_andThen hmn hk, hputs, List.append_assoc,
    List.cons_append] at hshown
  obtain ⟨u, v, rfl, hu, hv⟩ := exists_place hshown
  -- Up to there the marks are those that the reading has put in, and no other backslash is there.
  obtain ⟨hnone, hc⟩ := State.marksOf_of_char hp.rest hn hp.code (hput ▸ List.mem_append_right a
    List.mem_cons_self)
  rw [hput, marksOf_append, List.append_eq_nil_iff] at hnone
  have hmarks : marksOf u = marksOf (m.put (.initial z)) := by
    rw [← marksOf_filter_isShown, hu, marksOf_filter_isShown, marksOf_append, hnone.1,
      List.append_nil]
  have hback : .char '\\' ∉ u := by
    intro hmem
    have hshown : .char '\\' ∈ u.filter Piece.isShown := List.mem_filter.2 ⟨hmem, by decide⟩
    rw [hu] at hshown
    have hin : .char '\\' ∈ (m.andThen fun _ => n).put (.initial z) := by
      rw [hputs]
      exact List.mem_append_left _ (List.mem_filter.1 hshown).1
    exact (hmn.mem_put hin).elim hz (by decide)
  have hne : c ≠ '\\' := by
    rintro rfl
    exact hc.elim (fun h => hz (hm.rest_subset h)) (by decide)
  obtain ⟨hescape, hfonts⟩ := Typesetter.read_expand (t := .start) rfl hback
  have htoggles : Toggles (marksOf (m.put (.initial z))) false false := by
    have h := Toggles.nil.reads hm
    rwa [hp.bold, hp.italic] at h
  refine ⟨expand MacroPackage.fontMarkup u, expand MacroPackage.fontMarkup v ++ rest,
    (Typesetter.start.read (expand MacroPackage.fontMarkup u)).fonts.current, ?_, ?_, ?_, ?_, ?_⟩
  · rw [hline, expand_append, List.append_assoc]
  · rw [Dialect.markup_eq hd, filter_expand, hu, ← filter_expand]
  · intro hblank
    obtain ⟨w, rfl⟩ := List.head?_eq_some_iff.1 (hv hblank)
    rfl
  · rw [Typesetter.read_append, Typesetter.read_singleton hescape hne]
  · rw [hfonts, hmarks]
    exact htoggles.current_eq_roman_iff

/-- A character after bold text and code. -/
theorem Zipper.plain_text_is_roman_last :
    let z : Zipper := .start "**a** b\n\x60c\x60 d".toList
    let line := "\\fBa\\fP b \x60\\f[CR]c\\fP\x27 d".toList
    z.trace.events Dialect.man.package.markup = [⟨.text line, .empty⟩] ∧
      ∃ m : Move, Reads (.initial z) m ∧ m.next.PutsPlain [] 'd' ∧
        ∃ before after, line = before ++ after ∧ after.head? = some 'd' ∧
          (Typesetter.start.read (before ++ ['d'])).set =
            (Typesetter.start.read before).set ++ [('d', roman)] := by
  intro z line
  let m := ((State.initial z).firstSteps 8).get (by decide +kernel)
  have hm : Reads (.initial z) m := State.reads_of_firstSteps (Option.some_get _).symm
  have hevents : z.trace.events Dialect.man.package.markup = [⟨.text line, .empty⟩] := by
    decide +kernel
  have hp : m.next.PutsPlain [] 'd' := by
    refine ⟨by decide +kernel, by decide +kernel, by decide +kernel, by decide +kernel,
      m.next.midLine.literal 'd', [], by decide +kernel, by decide +kernel⟩
  have hmarks : marksOf (m.put (.initial z)) =
      [.boldOn] ++ [.styleOff] ++ [.codeOn] ++ [.codeOff] := by decide +kernel
  have hapart : SpansApart (marksOf (m.put (.initial z))) := by
    rw [hmarks]
    refine spansApart_concat.2 ⟨spansApart_concat.2 ⟨spansApart_concat.2 ⟨?_, ?_⟩, ?_⟩, ?_⟩
    · exact spansApart_concat.2 ⟨spansApart_nil, by decide⟩
    all_goals decide
  obtain ⟨before, after, font, hline, -, hafter, hset, hfont⟩ :=
    plain_text_is_roman (d := .man) (by decide) (by decide) (by decide +kernel) hevents hm hp
  rw [hfont.2 hapart] at hset
  exact ⟨hevents, m, hm, hp, before, after, hline, hafter rfl, hset⟩

/-- A character after italic text inside of bold text is set in italic. -/
theorem Zipper.plain_text_is_italic :
    let z : Zipper := .start "**a _b_** c".toList
    let line := "\\fBa \\fIb\\fP\\fP c".toList
    z.trace.events Dialect.man.package.markup = [⟨.text line, .empty⟩] ∧
      (∃ m : Move, Reads (.initial z) m ∧ m.next.PutsPlain [] 'c') ∧
      (Typesetter.start.read line).set =
        [('a', ['B']), (' ', ['B']), ('b', ['I']), (' ', ['I']), ('c', ['I'])] := by
  intro z line
  let m := ((State.initial z).firstSteps 8).get (by decide +kernel)
  have hm : Reads (.initial z) m := State.reads_of_firstSteps (Option.some_get _).symm
  refine ⟨by decide +kernel, ⟨m, hm, ?_⟩, by decide +kernel⟩
  exact ⟨by decide +kernel, by decide +kernel, by decide +kernel, by decide +kernel,
    m.next.midLine.literal 'c', [], by decide +kernel, by decide +kernel⟩

end Roffdown
