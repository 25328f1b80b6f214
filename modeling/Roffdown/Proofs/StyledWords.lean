import Roffdown.Proofs.Escaping
import Roffdown.Proofs.ItemLines

/-!
# Words in bold and italic

Words that stand apart, each plain, bold or italic as a whole, come out as they were written, with
the marks of a dialect around those that are styled.  Reading puts the marks around the words, since
a styled word begins after a space and ends where it is on.  Collapsing then sees the characters of
the marks, so it depends on the dialect which of the spaces between the words stay.

* `StyledWord`: a word and its style; `StyledWord.source`, `StyledWord.spelled`: how it is written
  in a document, and with a spelling of the marks.
* `State.gathers_delimiters`: switching bold and italic.
* `State.AtWord.gathers_word`, `State.AtWord.gathers_words`: what is put into the running text.
* `StyledWord.Between.collapse_line`: the spaces that stay.
* `Zipper.styled_words_come_out`: the line of a document of styled words.
-/

namespace Roffdown

open Markdown Roff Text
open State (Reads)

/-! ## Styled words -/

/-- The letters of which words are made. -/
def smallLetters : Text := "abcdefghijklmnopqrstuvwxyz".toList

/-- The characters that emphasis is written with. -/
inductive Delimiter
  | asterisk
  | underscore

def Delimiter.char : Delimiter → Char
  | asterisk => '*'
  | underscore => '_'

inductive Emphasis
  | bold
  | italic

namespace Emphasis

/-- How often a delimiter is written. -/
def width : Emphasis → Nat
  | bold => 2
  | italic => 1

/-- The mark that begins the emphasis. -/
def opening : Emphasis → FontMark
  | bold => .boldOn
  | italic => .italicOn

/-- Whether the emphasis is on. -/
def isOn (e : Emphasis) (s : State) : Bool :=
  match e with
  | bold => s.bold
  | italic => s.italic

/-- The state where the emphasis is on or off. -/
def set (e : Emphasis) (on : Bool) (s : State) : State :=
  match e with
  | bold => { s with bold := on }
  | italic => { s with italic := on }

section

variable (e : Emphasis) (on : Bool) (s : State)

@[simp] theorem isOn_set : e.isOn (e.set on s) = on := by cases e <;> rfl

@[simp] theorem input_set : (e.set on s).input = s.input := by cases e <;> rfl

@[simp] theorem inFence_set : (e.set on s).inFence = s.inFence := by cases e <;> rfl

@[simp] theorem freshLine_set : (e.set on s).freshLine = s.freshLine := by cases e <;> rfl

end

theorem set_set_of_off {e : Emphasis} {s : State} (h : e.isOn s = false) :
    e.set false (e.set true s) = s := by
  obtain ⟨input, lists, buffer, freshLine, inFence, bold, italic⟩ := s
  cases e <;> cases h <;> rfl

end Emphasis

/-- A word of small letters, plain or with an emphasis and what that is written with. -/
structure StyledWord where
  letters : Text
  style : Option (Emphasis × Delimiter)
  ne_nil : letters ≠ []
  small : letters ⊆ smallLetters

namespace StyledWord

/-- A word as it is written in a document. -/
def source (w : StyledWord) : Text :=
  match w.style with
  | none => w.letters
  | some (e, d) => List.replicate e.width d.char ++ w.letters ++ List.replicate e.width d.char

/-- Words as they are written in a document, with a space between each two. -/
def sources (words : List StyledWord) : Text := join ' ' (words.map source)

/-- A word with the spelling of the marks around it. -/
def spelled (k : Markup) (w : StyledWord) : Text :=
  match w.style with
  | none => w.letters
  | some (e, _) => k e.opening ++ w.letters ++ k .styleOff

/-- Words one after the other, with what is between each two. -/
def line (between : StyledWord → StyledWord → Text) (k : Markup) : List StyledWord → Text
  | [] => []
  | [w] => w.spelled k
  | w :: v :: words => w.spelled k ++ between w v ++ line between k (v :: words)

/-- A space between any two words. -/
def space (_ _ : StyledWord) : Text := [' ']

/-- A space between two words, unless both are styled. -/
def spaceUnlessStyled (w v : StyledWord) : Text :=
  if w.style.isSome && v.style.isSome then [] else [' ']

/-- What a word puts into the running text. -/
def pieces (w : StyledWord) : List Piece :=
  match w.style with
  | none => w.letters.map .char
  | some (e, _) => [.mark e.opening] ++ w.letters.map .char ++ [.mark .styleOff]

/-- What words put into the running text. -/
def linePieces : List StyledWord → List Piece
  | [] => []
  | [w] => w.pieces
  | w :: v :: words => w.pieces ++ [.char ' '] ++ linePieces (v :: words)

theorem sources_cons (w v : StyledWord) (words : List StyledWord) :
    sources (w :: v :: words) = w.source ++ ' ' :: sources (v :: words) := rfl

theorem expand_pieces (k : Markup) (w : StyledWord) : expand k w.pieces = w.spelled k := by
  have hmark (x : FontMark) : expand k [.mark x] = k x := List.append_nil _
  unfold pieces spelled
  split
  · exact expand_chars k _
  · rw [expand_append, expand_append, expand_chars, hmark, hmark]

theorem expand_linePieces (k : Markup) (words : List StyledWord) :
    expand k (linePieces words) = line space k words := by
  induction words using linePieces.induct with
  | case1 => rfl
  | case2 w => exact expand_pieces k w
  | case3 w v words ih =>
    rw [linePieces, line, expand_append, expand_append, expand_pieces, ih]
    rfl

end StyledWord

/-- Small letters are never taken for markup, are no blanks, and keep the spaces beside them. -/
theorem letter_of_small {c : Char} (hc : c ∈ smallLetters) :
    isBareChar c ∧ isBlank c = false ∧ isWordChar c := by
  have hall : smallLetters.all fun c => isBareChar c && !isBlank c && isWordChar c := by decide
  simpa [and_assoc] using List.all_eq_true.1 hall c hc

/-! ## Reading a word -/

namespace State

variable {s : State} {d : Delimiter} {c : Char} {t u : Text}

/-- The state after so many characters, where pieces have been put into the running text. -/
def gathered (n : Nat) (pieces : List Piece) (s : State) : State :=
  { s with input := s.input.advance n, freshLine := false, buffer := s.buffer.push pieces }

theorem rest_gathered (pieces : List Piece) (hr : s.input.rest = t ++ u) :
    (s.gathered t.length pieces).input.rest = u := by
  show s.input.rest.drop t.length = u
  rw [hr, List.drop_left]

theorem gathered_gathered (m n : Nat) (p q : List Piece) (s : State) :
    (s.gathered m p).gathered n q = s.gathered (m + n) (p ++ q) := by
  simp [gathered, Zipper.advance_advance, Buffer.push]

theorem gathered_set (e : Emphasis) (on : Bool) (n : Nat) (p : List Piece) (s : State) :
    (e.set on s).gathered n p = e.set on (s.gathered n p) := by
  cases e <;> rfl

/-- Two readings one after the other. -/
theorem Gathers.append {m n : Nat} {p q : List Piece} (h : s.Gathers p (s.gathered m p))
    (h' : (s.gathered m p).Gathers q ((s.gathered m p).gathered n q)) :
    s.Gathers (p ++ q) (s.gathered (m + n) (p ++ q)) := by
  rw [← gathered_gathered]
  exact h.trans h'

/-- A character that is never markup. -/
theorem gathers_bareChar (hc : isBareChar c) (hf : s.inFence = false)
    (hl : s.freshLine → s.lists.isEmpty) (hr : s.input.rest = c :: t) :
    s.Gathers [.char c] (s.gathered 1 [.char c]) :=
  gathers_of_step hr (step_of_isBareChar hc hf hl hr) (Buffer.all_push _ _) rfl rfl

theorem gathers_bareChars (ht : ∀ d ∈ c :: t, isBareChar d) (hf : s.inFence = false)
    (hl : s.freshLine → s.lists.isEmpty) (hr : s.input.rest = c :: t ++ u) :
    s.Gathers ((c :: t).map .char) (s.gathered (c :: t).length ((c :: t).map .char)) := by
  induction t generalizing s c with
  | nil => exact gathers_bareChar (ht c List.mem_cons_self) hf hl hr
  | cons d t ih =>
    obtain ⟨hc, ht⟩ := List.forall_mem_cons.1 ht
    have hfirst := gathers_bareChar hc hf hl hr
    have hothers := ih (s := s.gathered 1 [.char c]) ht hf nofun
      (rest_gathered (t := [c]) _ hr)
    rw [List.length_cons, Nat.add_comm]
    exact hfirst.append hothers

theorem gathers_letters (w : StyledWord) (hf : s.inFence = false)
    (hl : s.freshLine → s.lists.isEmpty) (hr : s.input.rest = w.letters ++ u) :
    s.Gathers (w.letters.map .char) (s.gathered w.letters.length (w.letters.map .char)) := by
  obtain ⟨c, t, ht⟩ := List.exists_cons_of_ne_nil w.ne_nil
  have hbare : ∀ d ∈ w.letters, isBareChar d := fun d hd => (letter_of_small (w.small hd)).1
  rw [ht] at hr hbare ⊢
  exact gathers_bareChars hbare hf hl hr

/-! ## Delimiters -/

/-- A delimiter before a character that is no indent begins no item of a list. -/
theorem blockRule?_of_delimiter (hr : s.input.rest = d.char :: c :: t) (hc : isIndent c = false)
    (hl : s.lists.isEmpty) : s.blockRule? = none := by
  have hmarker : marker? (d.char :: c :: t) = none := by
    cases d with
    | asterisk =>
      rw [marker?, if_pos (by decide), List.takeWhile_cons_of_neg (by rw [hc]; decide)]
    | underscore => rfl
  exact blockRule?_eq_none hr (by cases d <;> decide) (by cases d <;> decide)
    (by cases d <;> decide) hmarker hl

/-- A delimiter switches bold when it is doubled, and else italic. -/
theorem step_of_delimiter (hf : s.inFence = false)
    (hb : s.freshLine → s.midLine.blockRule? = none) (hr : s.input.rest = d.char :: t) :
    s.step = .ok (if t.head? = some d.char then s.midLine.boldMark else s.midLine.italicMark) := by
  rw [step_eq_textRule hr (by cases d <;> decide) hf hb]
  unfold textRule
  rw [show s.midLine.input.rest = d.char :: t from hr]
  cases d <;> rfl

/-- The state after delimiters that switch an emphasis. -/
def switched (e : Emphasis) (s : State) : State :=
  e.set (!e.isOn s) (s.gathered e.width [.mark (if e.isOn s then .styleOff else e.opening)])

theorem boldMark_eq (ho : s.bold = false → s.canOpenEmphasis) :
    s.midLine.boldMark = .silent (s.switched .bold) := by
  have hmid : s.midLine.bold = s.bold := rfl
  have hopen : s.bold = false → s.midLine.canOpenEmphasis := ho
  unfold switched Emphasis.isOn
  cases hon : s.bold with
  | true =>
    simp only [boldMark, hmid, hon, if_true]
    rfl
  | false =>
    simp only [boldMark, hmid, hon, hopen hon, if_true, Bool.false_eq_true, if_false]
    rfl

theorem italicMark_eq (ho : s.italic = false → s.canOpenEmphasis) :
    s.midLine.italicMark = .silent (s.switched .italic) := by
  have hmid : s.midLine.italic = s.italic := rfl
  have hopen : s.italic = false → s.midLine.canOpenEmphasis := ho
  unfold switched Emphasis.isOn
  cases hon : s.italic with
  | true =>
    simp only [italicMark, hmid, hon, if_true]
    rfl
  | false =>
    simp only [italicMark, hmid, hon, hopen hon, if_true, Bool.false_eq_true, if_false]
    rfl

/-- **Delimiters switch their emphasis** on after a boundary, and off anywhere. -/
theorem gathers_delimiters (e : Emphasis) (hf : s.inFence = false)
    (hb : s.freshLine → s.midLine.blockRule? = none) (ho : e.isOn s = false → s.canOpenEmphasis)
    (hr : s.input.rest = List.replicate e.width d.char ++ t) (ht : t.head? ≠ some d.char) :
    s.Gathers [.mark (if e.isOn s then .styleOff else e.opening)] (s.switched e) := by
  cases e with
  | bold =>
    change s.input.rest = d.char :: d.char :: t at hr
    refine gathers_of_step hr ?_ (Buffer.all_push _ _) rfl rfl
    rw [step_of_delimiter hf hb hr, List.head?_cons, if_pos rfl, boldMark_eq ho]
  | italic =>
    change s.input.rest = d.char :: t at hr
    refine gathers_of_step hr ?_ (Buffer.all_push _ _) rfl rfl
    rw [step_of_delimiter hf hb hr, if_neg ht, italicMark_eq ho]

/-! ## Words -/

theorem isOn_gathered (e : Emphasis) (n : Nat) (p : List Piece) (s : State) :
    e.isOn (s.gathered n p) = e.isOn s := by
  cases e <;> rfl

/-- Delimiters before a word. -/
theorem gathers_opening {e : Emphasis} (hoff : e.isOn s = false) (ho : s.canOpenEmphasis)
    (hf : s.inFence = false) (hl : s.freshLine → s.lists.isEmpty) (hc : c ∈ smallLetters)
    (hr : s.input.rest = List.replicate e.width d.char ++ c :: t) :
    s.Gathers [.mark e.opening] (e.set true (s.gathered e.width [.mark e.opening])) := by
  have hne : c ≠ d.char := by
    rintro rfl
    cases d <;> exact absurd hc (by decide)
  have hindent : isIndent c = false := by
    rw [Bool.eq_false_iff]
    intro h
    have hblank := isBlank_of_isIndent h
    rw [(letter_of_small hc).2.1] at hblank
    cases hblank
  have hblock (hfresh : s.freshLine) : s.midLine.blockRule? = none := by
    cases e with
    | bold => exact blockRule?_of_delimiter hr (by cases d <;> rfl) (hl hfresh)
    | italic => exact blockRule?_of_delimiter hr hindent (hl hfresh)
  have h := gathers_delimiters e hf hblock (fun _ => ho) hr fun hd => hne (Option.some.inj hd)
  rwa [switched, hoff] at h

/-- Delimiters after a word. -/
theorem gathers_closing {e : Emphasis} (hoff : e.isOn s = false) (hf : s.inFence = false)
    (hl : s.freshLine = false) (hr : s.input.rest = List.replicate e.width d.char ++ u)
    (hu : u.head? ≠ some d.char) :
    (e.set true s).Gathers [.mark .styleOff] (s.gathered e.width [.mark .styleOff]) := by
  have h := gathers_delimiters (s := e.set true s) (d := d) (t := u) e
    ((e.inFence_set true s).trans hf) (by simp [hl]) (by simp) (by simp [hr]) hu
  rw [switched, e.isOn_set, gathered_set] at h
  have hback := Emphasis.set_set_of_off ((isOn_gathered e e.width [.mark .styleOff] s).trans hoff)
  exact hback ▸ h

/-- A word may begin here: all emphasis is off, and no list is open where a line begins. -/
structure AtWord (s : State) : Prop where
  inFence : s.inFence = false
  lists : s.freshLine → s.lists.isEmpty
  boundary : s.canOpenEmphasis
  off : ∀ e : Emphasis, e.isOn s = false

/-- **A word puts its letters into the running text**, between the marks of its style. -/
theorem AtWord.gathers_word (h : s.AtWord) (w : StyledWord)
    (hr : s.input.rest = w.source ++ c :: u) (hc : ∀ d : Delimiter, c ≠ d.char) :
    s.Gathers w.pieces (s.gathered w.source.length w.pieces) := by
  unfold StyledWord.source at hr ⊢
  unfold StyledWord.pieces
  cases hstyle : w.style with
  | none =>
    rw [hstyle] at hr
    exact gathers_letters w h.inFence h.lists hr
  | some style =>
    obtain ⟨e, d⟩ := style
    rw [hstyle] at hr
    simp only [List.append_assoc] at hr
    obtain ⟨b, t, ht⟩ := List.exists_cons_of_ne_nil w.ne_nil
    have hb : b ∈ smallLetters := w.small (by rw [ht]; exact List.mem_cons_self)
    -- While the word is read its emphasis is on; else the states are those of plain text.
    let begun := s.gathered e.width [.mark e.opening]
    let ended := begun.gathered w.letters.length (w.letters.map .char)
    have hbegun : begun.input.rest = w.letters ++ (List.replicate e.width d.char ++ c :: u) := by
      simpa using rest_gathered (t := List.replicate e.width d.char) [.mark e.opening] hr
    have hended : ended.input.rest = List.replicate e.width d.char ++ c :: u :=
      rest_gathered _ hbegun
    have hopen : s.Gathers [.mark e.opening] (e.set true begun) :=
      gathers_opening (d := d) (h.off e) h.boundary h.inFence h.lists hb (by rw [hr, ht]; rfl)
    have hletters : (e.set true begun).Gathers (w.letters.map .char) (e.set true ended) := by
      have hset := gathered_set e true w.letters.length (w.letters.map .char) begun
      rw [← hset]
      exact gathers_letters w ((e.inFence_set true begun).trans h.inFence)
        (by rw [e.freshLine_set]; exact nofun)
        ((congrArg Zipper.rest (e.input_set true begun)).trans hbegun)
    have hoff : e.isOn ended = false := by rw [isOn_gathered, isOn_gathered, h.off]
    have hclose := gathers_closing hoff h.inFence rfl hended fun hd => hc d (Option.some.inj hd)
    have hall := (hopen.trans hletters).trans hclose
    rw [gathered_gathered, gathered_gathered] at hall
    simpa using hall

/-- A word may begin after a space. -/
theorem AtWord.after_space (h : s.AtWord) (n : Nat) (p : List Piece)
    (hr : (s.gathered n p).input.rest = ' ' :: u) :
    ((s.gathered n p).gathered 1 [.char ' ']).AtWord where
  inFence := h.inFence
  lists := nofun
  boundary := by
    have hprevious : ((s.gathered n p).gathered 1 [.char ' ']).input.previous? = some ' ' := by
      rw [Zipper.previous?]
      show (((s.gathered n p).input.rest.take 1).reverse ++ _).head? = some ' '
      rw [hr]
      rfl
    rw [canOpenEmphasis, hprevious]
    rfl
  off e := by rw [isOn_gathered, isOn_gathered, h.off]

/-- **Words put one after the other into the running text.** -/
theorem AtWord.gathers_words (h : s.AtWord) (w : StyledWord) (words : List StyledWord)
    (hr : s.input.rest = StyledWord.sources (w :: words) ++ '\n' :: u) :
    s.Gathers (StyledWord.linePieces (w :: words))
      (s.gathered (StyledWord.sources (w :: words)).length
        (StyledWord.linePieces (w :: words))) := by
  induction words generalizing s w with
  | nil => exact h.gathers_word w hr fun d => by cases d <;> decide
  | cons v words ih =>
    rw [StyledWord.sources_cons, List.append_assoc] at hr
    have hword := h.gathers_word w hr fun d => by cases d <;> decide
    have hafter := rest_gathered w.pieces hr
    -- The emphasis of a word is off again after it, and the space lets the next one open its own.
    have hspace := gathers_bareChar (s := s.gathered w.source.length w.pieces) (by decide)
      h.inFence nofun hafter
    have hothers := ih (h.after_space _ _ hafter) v (rest_gathered (t := [' ']) _ hafter)
    have hall := (hword.trans hspace).trans hothers
    rw [gathered_gathered, gathered_gathered] at hall
    rw [StyledWord.sources_cons, StyledWord.linePieces]
    simpa [Nat.add_assoc, Nat.add_comm 1] using hall

end State

/-! ## The spaces that stay -/

theorem Text.collapseAfter_of_not_blank {t : Text} (h : ∀ c ∈ t, isBlank c = false) (p : Char) :
    collapseAfter p false t = t := by
  induction t generalizing p with
  | nil => rfl
  | cons c t ih =>
    obtain ⟨hc, ht⟩ := List.forall_mem_cons.1 h
    rw [collapseAfter, hc, ih ht c]
    rfl

theorem Text.collapse_of_not_blank {t : Text} (h : ∀ c ∈ t, isBlank c = false) :
    collapse t = t := by
  cases t with
  | nil => rfl
  | cons c t =>
    obtain ⟨hc, ht⟩ := List.forall_mem_cons.1 h
    rw [collapse_cons_of_not_blank hc, collapseAfter_of_not_blank ht]

/-- The space after a word. -/
theorem Text.collapse_append_space_cons {t u : Text} {q c : Char}
    (ht : ∀ x ∈ t ++ [q], isBlank x = false) (hc : isBlank c = false) :
    collapse (t ++ [q] ++ ' ' :: c :: u) = t ++ [q] ++ gap q c ++ collapse (c :: u) := by
  have hq : isBlank q = false := ht q (by simp)
  rw [List.append_assoc, List.singleton_append, collapse_append_cons hq,
    collapse_of_not_blank ht, collapse_cons_of_not_blank hc, List.append_assoc]
  simp [collapseAfter, hc, show isBlank ' ' from rfl]

namespace StyledWord

/-- With a spelling of the marks no word has a blank, and what is left of a space between two words
depends on their styles as `between` says. -/
structure Between (k : Markup) (between : StyledWord → StyledWord → Text) : Prop where
  not_blank : ∀ w : StyledWord, ∀ c ∈ w.spelled k, isBlank c = false
  gap : ∀ w v : StyledWord, ∃ t q c u,
    w.spelled k = t ++ [q] ∧ v.spelled k = c :: u ∧ Text.gap q c = between w v

/-- **Between two words stays what their last and first characters leave.** -/
theorem Between.collapse_line {k : Markup} {between : StyledWord → StyledWord → Text}
    (hk : Between k between) (words : List StyledWord) :
    collapse (line space k words) = line between k words := by
  induction words using line.induct with
  | case1 => rfl
  | case2 w => exact collapse_of_not_blank (hk.not_blank w)
  | case3 w v words ih =>
    obtain ⟨t, q, c, u, hw, hv, hgap⟩ := hk.gap w v
    have hc : isBlank c = false := hk.not_blank v c (by rw [hv]; exact List.mem_cons_self)
    obtain ⟨u', hline⟩ : ∃ u', line space k (v :: words) = c :: u' := by
      cases words with
      | nil => exact ⟨u, hv⟩
      | cons _ _ => exact ⟨_, by rw [line, hv]; rfl⟩
    have ht := hk.not_blank w
    rw [hw] at ht
    rw [line, line, ← ih, hw, ← hgap, hline, List.append_assoc (t ++ [q])]
    exact collapse_append_space_cons ht hc

section

variable {k : Markup} {closing : Char} {t : Text}

/-- What a word begins with, when bold and italic begin with a backslash. -/
theorem exists_spelled_eq_cons (hon : ∀ e : Emphasis, ∃ t, k e.opening = '\\' :: t)
    (w : StyledWord) : ∃ c u, w.spelled k = c :: u ∧
      if w.style.isSome then c = '\\' else isWordChar c := by
  unfold spelled
  cases w.style with
  | none =>
    obtain ⟨c, u, hu⟩ := List.exists_cons_of_ne_nil w.ne_nil
    have hc : c ∈ w.letters := by rw [hu]; exact List.mem_cons_self
    exact ⟨c, u, hu, (letter_of_small (w.small hc)).2.2⟩
  | some style =>
    obtain ⟨u, hu⟩ := hon style.1
    exact ⟨'\\', u ++ w.letters ++ k .styleOff, by simp [hu], rfl⟩

theorem exists_spelled_eq_concat (hoff : k .styleOff = t ++ [closing]) (w : StyledWord) :
    ∃ u q, w.spelled k = u ++ [q] ∧ if w.style.isSome then q = closing else isWordChar q := by
  unfold spelled
  cases w.style with
  | none =>
    refine ⟨_, _, (List.dropLast_concat_getLast w.ne_nil).symm, ?_⟩
    exact (letter_of_small (w.small (List.getLast_mem w.ne_nil))).2.2
  | some style => exact ⟨k style.1.opening ++ w.letters ++ t, closing, by simp [hoff], rfl⟩

theorem not_blank_of_mem_spelled
    (hblank : ∀ m ∈ [FontMark.boldOn, .italicOn, .styleOff], (k m).all fun c => !isBlank c)
    (w : StyledWord) : ∀ c ∈ w.spelled k, isBlank c = false := by
  have hletters : ∀ c ∈ w.letters, isBlank c = false := fun c hc =>
    (letter_of_small (w.small hc)).2.1
  have hmark {m : FontMark} (hm : m ∈ [FontMark.boldOn, .italicOn, .styleOff]) {c : Char}
      (hc : c ∈ k m) : isBlank c = false := by
    simpa using List.all_eq_true.1 (hblank m hm) c hc
  unfold spelled
  split
  · exact hletters
  · rename_i e _ _
    simp only [List.mem_append]
    rintro c ((hc | hc) | hc)
    · exact hmark (by cases e <;> decide) hc
    · exact hletters c hc
    · exact hmark (by decide) hc

/-- Two words of which one is plain keep their space. -/
theorem between_of_marks (hon : ∀ e : Emphasis, ∃ t, k e.opening = '\\' :: t)
    (hoff : k .styleOff = t ++ [closing])
    (hblank : ∀ m ∈ [FontMark.boldOn, .italicOn, .styleOff], (k m).all fun c => !isBlank c) :
    Between k fun w v =>
      if w.style.isSome && v.style.isSome then Text.gap closing '\\' else [' '] where
  not_blank := not_blank_of_mem_spelled hblank
  gap w v := by
    obtain ⟨u, q, hu, hq⟩ := exists_spelled_eq_concat hoff w
    obtain ⟨c, u', hu', hc⟩ := exists_spelled_eq_cons hon v
    refine ⟨u, q, c, u', hu, hu', ?_⟩
    cases hw : w.style.isSome with
    | false =>
      have hword : isWordChar q := by simpa [hw] using hq
      simp [Text.gap, hword]
    | true =>
      obtain rfl : q = closing := by simpa [hw] using hq
      cases hv : v.style.isSome with
      | false =>
        have hword : isWordChar c := by simpa [hv] using hc
        simp [Text.gap, hword]
      | true =>
        obtain rfl : c = '\\' := by simpa [hv] using hc
        rfl

theorem collapse_line_ne_nil (k : Markup) (w : StyledWord) (words : List StyledWord) :
    collapse (line space k (w :: words)) ≠ [] := by
  obtain ⟨c, t, ht⟩ := List.exists_cons_of_ne_nil w.ne_nil
  have hc : c ∈ w.letters := by rw [ht]; exact List.mem_cons_self
  have hspelled : c ∈ w.spelled k := by
    unfold spelled
    split <;> simp [hc]
  have hline : c ∈ line space k (w :: words) := by
    cases words with
    | nil => exact hspelled
    | cons v words => simp [line, hspelled]
  intro h
  have hblank := collapse_eq_nil_iff.1 h c hline
  rw [(letter_of_small (w.small hc)).2.1] at hblank
  cases hblank

/-- A line of words is no request. -/
theorem textLine_line (hon : ∀ e : Emphasis, ∃ t, k e.opening = '\\' :: t)
    (between : StyledWord → StyledWord → Text) (words : List StyledWord) :
    textLine (line between k words) = line between k words := by
  have hspelled (w : StyledWord) (t : Text) : textLine (w.spelled k ++ t) = w.spelled k ++ t := by
    obtain ⟨c, u, hu, hc⟩ := exists_spelled_eq_cons hon w
    have hcontrol : isControl c = false := by
      rw [Bool.eq_false_iff]
      intro h
      rcases Bool.or_eq_true_iff.1 h with h | h <;> obtain rfl := beq_iff_eq.1 h <;>
        split at hc <;> cases hc
    rw [hu, List.cons_append, textLine, hcontrol]
    rfl
  cases words with
  | nil => rfl
  | cons w words =>
    cases words with
    | nil => simpa [line] using hspelled w []
    | cons v words =>
      rw [line, List.append_assoc]
      exact hspelled w _

end

theorem exists_opening_eq_cons (d : Dialect) (e : Emphasis) :
    ∃ t, d.package.markup e.opening = '\\' :: t := by
  cases d <;> cases e <;> exact ⟨_, rfl⟩

theorem between_space {d : Dialect} (hd : d ≠ .mom) : Between d.package.markup space := by
  have hoff : d.package.markup .styleOff = "\\f".toList ++ ['P'] := by
    cases d <;> first | rfl | contradiction
  have hspace : space = fun w v =>
      if w.style.isSome && v.style.isSome then Text.gap 'P' '\\' else [' '] := by
    funext w v
    exact (ite_self _).symm
  rw [hspace]
  exact between_of_marks (exists_opening_eq_cons d) hoff (by cases d <;> decide)

theorem between_spaceUnlessStyled : Between Dialect.mom.package.markup spaceUnlessStyled := by
  have hoff : Dialect.mom.package.markup .styleOff = "\\*[PREV".toList ++ [']'] := rfl
  exact between_of_marks (exists_opening_eq_cons .mom) hoff (by decide)

end StyledWord

/-! ## Documents of styled words -/

open StyledWord (sources linePieces line space spaceUnlessStyled)

theorem State.gathers_line (w : StyledWord) (words : List StyledWord) :
    ∃ s, (initial (.start (sources (w :: words) ++ ['\n']))).Gathers
      (linePieces (w :: words) ++ [.char ' ']) s ∧ s.input.rest = [] := by
  let s := initial (.start (sources (w :: words) ++ ['\n']))
  have hstart : s.AtWord := ⟨rfl, fun _ => rfl, rfl, fun e => by cases e <;> rfl⟩
  have hrest : s.input.rest = sources (w :: words) ++ ['\n'] := rfl
  have hwords := hstart.gathers_words w words hrest
  have hnewline := rest_gathered (linePieces (w :: words)) hrest
  have hend := gathers_of_step (p := [.char ' ']) hnewline
    (step_of_newline rfl rfl hnewline (by decide))
    (by rw [Buffer.all_markLine, Buffer.all_push]) rfl rfl
  refine ⟨_, hwords.trans hend, ?_⟩
  show List.drop 1 (s.gathered _ _).input.rest = []
  rw [hnewline]
  rfl

/-- **Styled words come out as they were written.**  They are the only text of the document, and
each dialect writes them on one line, with its marks around those that are styled; with the marks of
`mom` a space between two styled words is lost. -/
theorem Zipper.styled_words_come_out {words : List StyledWord} (h : words ≠ []) :
    let trace := (Zipper.start (sources words ++ ['\n'])).trace
    trace.failure? = none ∧
      (∀ mk, trace.events mk = [⟨.text (collapse (line space mk words)), .empty⟩]) ∧
      (∀ d : Dialect, d ≠ .mom →
        trace.lines d.package = [line space d.package.markup words]) ∧
      trace.lines Dialect.mom.package =
        [line spaceUnlessStyled Dialect.mom.package.markup words] := by
  intro trace
  obtain ⟨w, words, rfl⟩ := List.exists_cons_of_ne_nil h
  obtain ⟨s, hs, hend⟩ := State.gathers_line w words
  obtain ⟨hok, hevents⟩ := events_of_gathers hs hend
  have hone (mk : Markup) :
      trace.events mk = [⟨.text (collapse (line space mk (w :: words))), .empty⟩] := by
    have hmk := hevents mk
    have hexpand : expand mk [.char ' '] = [' '] := rfl
    rw [expand_append, StyledWord.expand_linePieces, hexpand, collapse_append_space,
      if_neg (StyledWord.collapse_line_ne_nil mk w words)] at hmk
    exact hmk
  have hlines {d : Dialect} {between : StyledWord → StyledWord → Text}
      (hd : StyledWord.Between d.package.markup between) :
      trace.lines d.package = [line between d.package.markup (w :: words)] := by
    rw [Trace.lines, hone, List.flatMap_singleton, d.lines_text, hd.collapse_line,
      StyledWord.textLine_line (StyledWord.exists_opening_eq_cons d)]
  exact ⟨hok, hone, fun d hd => hlines (StyledWord.between_space hd),
    hlines StyledWord.between_spaceUnlessStyled⟩

/-- A plain word, and one of each way to write an emphasis. -/
theorem Zipper.styled_words_come_out_each_style :
    let words : List StyledWord :=
      [⟨"no".toList, none, by decide, by decide⟩,
        ⟨"word".toList, some (.bold, .asterisk), by decide, by decide⟩,
        ⟨"of".toList, some (.bold, .underscore), by decide, by decide⟩,
        ⟨"it".toList, some (.italic, .underscore), by decide, by decide⟩,
        ⟨"is".toList, none, by decide, by decide⟩,
        ⟨"lost".toList, some (.italic, .asterisk), by decide, by decide⟩]
    let trace := (Zipper.start (sources words ++ ['\n'])).trace
    words ≠ [] ∧ sources words = "no **word** __of__ _it_ is *lost*".toList ∧
      trace.failure? = none ∧
      trace.events tagMarkup =
        [⟨.text "no <B>word</><B>of</><I>it</> is <I>lost</>".toList, .empty⟩] ∧
      trace.lines Dialect.man.package =
        ["no \\fBword\\fP \\fBof\\fP \\fIit\\fP is \\fIlost\\fP".toList] ∧
      trace.lines Dialect.mom.package =
        ["no \\*[BD]word\\*[PREV]\\*[BD]of\\*[PREV]\\*[IT]it\\*[PREV] is ".toList ++
          "\\*[IT]lost\\*[PREV]".toList] := by
  intro words trace
  have hne : words ≠ [] := List.cons_ne_nil _ _
  obtain ⟨hok, hevents, hlines, hmom⟩ := styled_words_come_out hne
  refine ⟨hne, by decide, hok, ?_, ?_, ?_⟩
  · rw [hevents]
    decide +kernel
  · rw [hlines .man (by decide)]
    decide +kernel
  · rw [hmom]
    decide +kernel

end Roffdown
