import Roffdown.Proofs.ItemLines
import Roffdown.Proofs.TitleLine

/-!
# Documents without lists

Paragraphs, titles that are underlined, headers, boxes and fenced blocks, each printed and followed
by an empty line, are read back one by one.  Running text waits while its lines are read, so a block
is told in full only at the empty line below it; and there reading stands as it began, so any block
can follow.

* `Markdown.isUnderline_iff`: the lines that underline a title.
* `Block`: a block, with what keeps it apart from other blocks; `Block.lines`, `Block.events`.
* `State.gathering`: the state at the beginning of a line, while some running text waits.
* `State.Tells`: a reading from one state to another, with what it tells.
* `Block.tells`: reading one block and the empty line below it.
* `Zipper.events_of_blocks`: reading a document of blocks.
-/

namespace Roffdown

open Markdown Text
open State (Reads)

/-! ## Trimming -/

namespace Text

variable {p : Char → Bool} {t b : Text}

theorem trimStart_append (hb : ∀ c ∈ b, p c) (t : Text) : trimStart p (b ++ t) = trimStart p t :=
  List.dropWhile_append_of_pos hb

theorem trimEnd_append (hb : ∀ c ∈ b, p c) (t : Text) : trimEnd p (t ++ b) = trimEnd p t := by
  have hrev : ∀ c ∈ b.reverse, p c := by
    intro c hc
    exact hb c (List.mem_reverse.1 hc)
  rw [trimEnd, trimEnd, List.reverse_append, List.dropWhile_append_of_pos hrev]

theorem trimStart_eq_self (h : ∀ c, t.head? = some c → p c = false) : trimStart p t = t := by
  cases t with
  | nil => rfl
  | cons c t => exact List.dropWhile_cons_of_neg (by simp [h c rfl])

theorem trimEnd_eq_self (h : ∀ c, t.getLast? = some c → p c = false) : trimEnd p t = t := by
  have hrev : trimStart p t.reverse = t.reverse := by
    apply trimStart_eq_self
    intro c hc
    rw [List.head?_reverse] at hc
    exact h c hc
  rw [trimEnd, show t.reverse.dropWhile p = t.reverse from hrev, List.reverse_reverse]

/-- What is trimmed off the end is of the class. -/
theorem exists_eq_trimEnd_append (p : Char → Bool) (t : Text) :
    ∃ b, t = trimEnd p t ++ b ∧ ∀ c ∈ b, p c := by
  refine ⟨(t.reverse.takeWhile p).reverse, ?_, ?_⟩
  · rw [trimEnd, ← List.reverse_append, List.takeWhile_append_dropWhile, List.reverse_reverse]
  · intro c hc
    exact List.all_eq_true.1 List.all_takeWhile c (List.mem_reverse.1 hc)

theorem trim_append {a : Text} (ha : ∀ c ∈ a, p c) (hb : ∀ c ∈ b, p c)
    (hh : ∀ c, t.head? = some c → p c = false) (hl : ∀ c, t.getLast? = some c → p c = false)
    (ht : t ≠ []) : trim p (a ++ t ++ b) = t := by
  have hstart : trimStart p (t ++ b) = t ++ b := by
    apply trimStart_eq_self
    intro c hc
    cases t with
    | nil => exact absurd rfl ht
    | cons d t => exact hh c hc
  rw [trim, List.append_assoc, trimStart_append ha, hstart, trimEnd_append hb, trimEnd_eq_self hl]

/-- Lines that are joined by spaces, and a space after them. -/
theorem flatMap_eq_join {lines : List Text} (h : lines ≠ []) :
    lines.flatMap (· ++ [' ']) = join ' ' lines ++ [' '] := by
  induction lines with
  | nil => exact absurd rfl h
  | cons line lines ih =>
    cases lines with
    | nil => simp [join]
    | cons next lines =>
      rw [List.flatMap_cons, ih (List.cons_ne_nil next lines)]
      simp [join]

end Text

/-! ## Lines at a place -/

/-- A text without newline that begins with the line begins in the line. -/
theorem Text.prefix_of_prefix_line {p line u : Text} (hp : '\n' ∉ p) (h : p <+: line ++ '\n' :: u) :
    p <+: line := by
  obtain ⟨v, hv⟩ := h
  rcases List.append_eq_append_iff.1 hv with ⟨a, hline, -⟩ | ⟨a, hpa, hnewline⟩
  · exact ⟨a, hline.symm⟩
  · cases a with
    | nil => simp [hpa]
    | cons c a =>
      obtain rfl := (List.cons.inj hnewline).1
      exact absurd (by simp [hpa]) hp

namespace Zipper

variable {z : Zipper} {line u : Text}

theorem rest_splitLine (hr : z.rest = line ++ '\n' :: u) (hl : '\n' ∉ line) :
    z.splitLine.2.rest = u := by
  rw [splitLine_of_newline hr hl]

theorem splitLine_eq_advance (hr : z.rest = line ++ '\n' :: u) (hl : '\n' ∉ line) :
    z.splitLine.2 = (z.advance line.length).advance 1 := by
  rw [splitLine_of_rest_eq hr hl, advance_advance]

theorem rest_advance_length (hr : z.rest = line ++ u) :
    (z.advance line.length).rest = u := by
  rw [rest_advance, hr, List.drop_left]

end Zipper

/-! ## Underlines -/

/-- The lines that underline a title. -/
inductive Markdown.Underline : Text → Prop
  | mk {c : Char} {n : Nat} {blanks : Text} (hc : c = '=' ∨ c = '-' ∨ c = '*') (hn : 3 ≤ n)
      (hb : ∀ d ∈ blanks, isBlank d) : Underline (List.replicate n c ++ blanks)

theorem Markdown.isUnderline_iff {line : Text} : isUnderline line ↔ Underline line := by
  constructor
  · intro h
    obtain ⟨blanks, hline, hb⟩ := exists_eq_trimEnd_append isBlank line
    unfold isUnderline at h
    split at h
    · cases h
    · rename_i c t ht
      simp only [Bool.and_eq_true, Bool.or_eq_true, beq_iff_eq, decide_eq_true_eq,
        List.all_eq_true, or_assoc] at h
      obtain ⟨⟨hc, hlen⟩, hall⟩ := h
      have hrule : c :: t = List.replicate (t.length + 1) c := by
        rw [List.replicate_succ, ← List.eq_replicate_of_mem hall]
      rw [hline, ht, hrule]
      exact .mk hc (by omega) hb
  · rintro ⟨hc, hn, hb⟩
    rename_i c n blanks
    obtain ⟨k, rfl⟩ := Nat.exists_eq_add_of_le hn
    have hblank : isBlank c = false := by
      rcases hc with rfl | rfl | rfl <;> rfl
    have htrim : trimEnd isBlank (List.replicate (3 + k) c ++ blanks) =
        c :: List.replicate (2 + k) c := by
      rw [trimEnd_append hb, trimEnd_eq_self, ← List.replicate_succ]
      · congr 1
        omega
      · intro d hd
        obtain rfl := List.eq_of_mem_replicate (List.mem_of_getLast? hd)
        exact hblank
    unfold isUnderline
    rw [htrim]
    have hlen : 2 ≤ 2 + k := Nat.le_add_right 2 k
    rcases hc with rfl | rfl | rfl <;> simp [hlen]

/-! ## Blocks -/

/-- A line of running text.  It stands for itself, and begins no block where no list is open. -/
structure TextLine where
  text : Text
  ne_nil : text ≠ []
  plain : ∀ c ∈ text, isPlainChar c
  hash : text.head? ≠ some '#'
  item : ∀ style n, ¬ StartsItem text style n

theorem TextLine.newline_not_mem (line : TextLine) : '\n' ∉ line.text := by
  intro h
  cases line.plain _ h

/-- Lines of running text, of which none underlines the one above it. -/
structure TextLines where
  earlier : List TextLine
  last : TextLine
  not_underline : ∀ line ∈ (earlier ++ [last]).tail, ¬ Underline line.text

/-- All lines of running text. -/
def TextLines.all (lines : TextLines) : List Text :=
  (lines.earlier ++ [lines.last]).map TextLine.text

/-- Blanks inside of a line. -/
structure Gap where
  text : Text
  blank : ∀ c ∈ text, isBlank c
  line : '\n' ∉ text

/-- A title after hashes. -/
structure HashTitle where
  text : Text
  ne_nil : text ≠ []
  line : '\n' ∉ text
  head : ∀ c, text.head? = some c → c ≠ '#' ∧ isBlank c = false
  last : ∀ c, text.getLast? = some c → c ≠ '#' ∧ isBlank c = false

/-- A line of a fenced block. -/
structure VerbatimLine where
  text : Text
  line : '\n' ∉ text
  open_fence : ¬ fence <+: text

/-- A block that is no list. -/
inductive Block
  | paragraph (lines : TextLines)
  /-- Running text whose last line is underlined. -/
  | underlined (lines : TextLines) (rule : Text) (hlast : ∃ c ∈ lines.last.text, isBlank c = false)
      (hrule : Underline rule) (hline : '\n' ∉ rule)
  | header (hashes : Nat) (hpos : 0 < hashes) (gap : Gap) (title : HashTitle)
  | box (hashes : Nat) (hpos : 0 < hashes) (before : Gap) (title : HashTitle) (after : Gap)
      (closing : Nat) (hclosing : 0 < closing)
  | fenced (info : Text) (hinfo : '\n' ∉ info) (lines : List VerbatimLine)

namespace Block

/-- The lines in which a block is written. -/
def lines : Block → List Text
  | paragraph lines => lines.all
  | underlined lines rule _ _ _ => lines.all ++ [rule]
  | header hashes _ gap title => [List.replicate hashes '#' ++ gap.text ++ title.text]
  | box hashes _ before title after closing _ =>
    [List.replicate hashes '#' ++ before.text ++ title.text ++ after.text ++
      List.replicate closing '#']
  | fenced info _ lines => (fence ++ info) :: lines.map VerbatimLine.text ++ [fence]

/-- Blocks as they are printed, each with an empty line below it. -/
def printAll (blocks : List Block) : Text := ofLines (blocks.flatMap fun b => b.lines ++ [[]])

/-- What running text tells, unless it is blank. -/
def textEvents (lines : List Text) : List Event :=
  if collapse (join ' ' lines) = [] then [] else [.text (collapse (join ' ' lines))]

/-- The events of a block. -/
def events : Block → List Event
  | paragraph lines => textEvents lines.all
  | underlined lines _ _ _ _ =>
    textEvents (lines.earlier.map TextLine.text) ++ [.heading .major (collapse lines.last.text)]
  | header hashes _ _ title => [.heading (.ofHashes hashes) title.text]
  | box _ _ _ title _ _ _ => [.boxOpen, .lineBreak, .text title.text, .lineBreak, .boxClose]
  | fenced _ _ lines => .fenceOpen :: lines.map (fun line => .fenceLine line.text) ++ [.fenceClose]

end Block

/-! ## What a reading tells -/

/-- Reading leads from a state to another, and tells so much on the way. -/
def State.Tells (mk : Markup) (s : State) (told : List Told) (t : State) : Prop :=
  ∃ m, Reads s m ∧ m.told mk = told ∧ m.next = t

/-- At the beginning of a line where nothing is open, while some running text waits. -/
def State.gathering (z : Zipper) (held : Text) : State :=
  { State.initial z with buffer := (Buffer.empty.push (held.map .char)).markLine }

/-- At the beginning of a line of a fenced block outside of lists. -/
def State.fenced (z : Zipper) : State :=
  { State.initial z with inFence := true, freshLine := false }

namespace State

variable {mk : Markup} {s t : State} {es fs : List Told} {z : Zipper} {held u : Text}

@[simp] theorem input_gathering (z : Zipper) (held : Text) : (gathering z held).input = z := rfl

theorem Tells.refl (s : State) : s.Tells mk [] s := ⟨.silent s, .stop s, rfl, rfl⟩

theorem Tells.trans {r : State} (h : s.Tells mk es t) (h' : t.Tells mk fs r) :
    s.Tells mk (es ++ fs) r := by
  obtain ⟨m, hm, rfl, rfl⟩ := h
  obtain ⟨n, hn, rfl, rfl⟩ := h'
  exact ⟨_, hm.trans hn, Move.told_andThen mk m _, rfl⟩

theorem tells_of_step (mk : Markup) {m : Move} (hs : s.input.rest ≠ []) (h : s.step = .ok m) :
    s.Tells mk (m.told mk) m.next := by
  have hone := Reads.step hs h (.stop m.next)
  rw [show (m.andThen fun _ => .silent m.next) = m from m.andThen_silent] at hone
  exact ⟨m, hone, rfl, rfl⟩

/-! ## Lines of running text -/

variable (mk) (held)

theorem not_startsItem_of_line {line : Text} {style : ListStyle} {n : Nat}
    (h : ∀ style n, ¬ StartsItem line style n) : ¬ StartsItem (line ++ '\n' :: u) style n := by
  intro hs
  generalize ht : line ++ '\n' :: u = t at hs
  cases hs with
  | @bullet c d t hc hd =>
    cases line with
    | nil =>
      obtain rfl := (List.cons.inj ht).1
      cases hc
    | cons c' line =>
      cases line with
      | nil =>
        obtain ⟨-, hnewline⟩ := List.cons.inj ht
        obtain rfl := (List.cons.inj hnewline).1
        cases hd
      | cons d' line =>
        obtain ⟨rfl, htail⟩ := List.cons.inj ht
        obtain rfl := (List.cons.inj htail).1
        exact h _ _ (.bullet line hc hd)
  | @number digits t hne hd =>
    rcases List.append_eq_append_iff.1 ht with ⟨a, hdigits, hnewline⟩ | ⟨a, hline, hpoint⟩
    · cases a with
      | nil => cases hnewline
      | cons c a =>
        obtain rfl := (List.cons.inj hnewline).1
        have hmem : '\n' ∈ digits := by simp [hdigits]
        cases hd _ hmem
    · cases a with
      | nil => cases hpoint
      | cons c a =>
        obtain rfl := (List.cons.inj hpoint).1
        rw [hline] at h
        exact h _ _ (.number a hne hd)

theorem marker?_of_textLine (line : TextLine) (u : Text) :
    marker? (line.text ++ '\n' :: u) = none := by
  cases hm : marker? (line.text ++ '\n' :: u) with
  | none => rfl
  | some marker =>
    obtain ⟨n, hn, -⟩ := startsItem_of_marker? hm
    exact absurd hn (not_startsItem_of_line line.item)

/-- A line of running text is none of the other blocks. -/
theorem blockRule?_of_textLine {line : TextLine} (hr : z.rest = line.text ++ '\n' :: u) :
    (gathering z held).midLine.blockRule? = none := by
  obtain ⟨c, t, hline⟩ := List.exists_cons_of_ne_nil line.ne_nil
  have hplain := line.plain c (by rw [hline]; exact List.mem_cons_self)
  simp only [isPlainChar, Bool.and_eq_true, bne_iff_ne] at hplain
  have hhash : c ≠ '#' := by
    rintro rfl
    exact line.hash (by rw [hline]; rfl)
  have hrest : (gathering z held).midLine.input.rest = c :: (t ++ '\n' :: u) := by
    show z.rest = _
    rw [hr, hline, List.cons_append]
  have hmarker : marker? (c :: (t ++ '\n' :: u)) = none := by
    rw [← List.cons_append, ← hline]
    exact marker?_of_textLine line u
  exact blockRule?_eq_none hrest hplain.1.1.1.1.1 hhash hplain.1.2 hmarker rfl

theorem step_of_blockRule?_eq_none (hf : s.inFence = false) (hl : s.freshLine = true)
    (h : s.midLine.blockRule? = none) : s.step = s.midLine.step := by
  have hf' : s.midLine.inFence = false := hf
  have hl' : s.midLine.freshLine = false := rfl
  rw [step_eq s, step_eq s.midLine, hf, hf', hl, hl', h]
  rfl

/-- The characters of a line of running text are put with those that wait. -/
theorem tells_text (line : TextLine) (hr : z.rest = line.text ++ '\n' :: u) :
    (gathering z held).Tells mk [] { gathering z held with
      input := z.advance line.text.length, freshLine := false,
      buffer := (gathering z held).buffer.push (line.text.map .char) } := by
  obtain ⟨c, t, hline⟩ := List.exists_cons_of_ne_nil line.ne_nil
  obtain ⟨hc, ht⟩ := List.forall_mem_cons.1 (hline ▸ line.plain)
  have hrest : z.rest = c :: (t ++ '\n' :: u) := by rw [hr, hline, List.cons_append]
  have hhead : (t ++ '\n' :: u).head? ≠ some '[' := by
    cases t with
    | nil => simp
    | cons d t =>
      intro h
      obtain rfl := Option.some.inj h
      exact absurd (ht _ List.mem_cons_self) (by decide)
  have hmid := step_of_isPlainChar (s := (gathering z held).midLine) rfl rfl hrest hc hhead
  have hstep : (gathering z held).step = .ok ((gathering z held).midLine.literal c) := by
    rw [← hmid]
    exact step_of_blockRule?_eq_none rfl rfl (blockRule?_of_textLine held hr)
  have hne : (gathering z held).input.rest ≠ [] := by
    show z.rest ≠ []
    rw [hrest]
    exact List.cons_ne_nil _ _
  obtain ⟨m, hm, htold, hnext⟩ := reads_plain mk (s := ((gathering z held).midLine.literal c).next)
    (t := t) (u := u) rfl rfl (congrArg (List.drop 1) hrest) ht
  have hall := (tells_of_step mk hne hstep).trans ⟨m, hm, htold, hnext⟩
  rw [hline]
  simpa [literal, push, Buffer.push, Zipper.advance_advance, Nat.add_comm, midLine] using hall

/-- A line of running text waits with those above it. -/
theorem tells_line (line : TextLine) (hr : z.rest = line.text ++ '\n' :: u)
    (hu : ¬ isUnderline (firstLine u)) :
    (gathering z held).Tells mk [] (gathering z.splitLine.2 (held ++ (line.text ++ [' ']))) := by
  obtain ⟨m, hm, htold, hnext⟩ := tells_text mk held line hr
  have hend : m.next.input.rest = '\n' :: u := by
    rw [hnext]
    exact Zipper.rest_advance_length hr
  have hstep := step_of_newline (s := m.next) (by rw [hnext]; rfl) (by rw [hnext]) hend hu
  have hne : m.next.input.rest ≠ [] := by
    rw [hend]
    exact List.cons_ne_nil _ _
  have hline : (gathering z held).Tells mk [] m.next := ⟨m, hm, htold, rfl⟩
  have hall := hline.trans (tells_of_step mk hne hstep)
  rw [hnext] at hall
  simpa [gathering, initial, Zipper.splitLine_eq_advance hr line.newline_not_mem, Buffer.push,
    Buffer.markLine] using hall

/-- Lines of running text wait one after the other. -/
theorem tells_lines {lines : List TextLine} (hr : z.rest = ofLines (lines.map TextLine.text) ++ u)
    (hlines : ∀ line ∈ lines.tail, ¬ isUnderline line.text)
    (hu : lines ≠ [] → ¬ isUnderline (firstLine u)) :
    ∃ z', z'.rest = u ∧ (gathering z held).Tells mk []
      (gathering z' (held ++ lines.flatMap fun line => line.text ++ [' '])) := by
  induction lines generalizing z held with
  | nil =>
    refine ⟨z, hr, ?_⟩
    rw [List.flatMap_nil, List.append_nil]
    exact .refl _
  | cons line lines ih =>
    have hrest : z.rest = line.text ++ '\n' :: (ofLines (lines.map TextLine.text) ++ u) := by
      rw [hr]
      simp [ofLines]
    have hbelow : ¬ isUnderline (firstLine (ofLines (lines.map TextLine.text) ++ u)) := by
      cases lines with
      | nil => exact hu (List.cons_ne_nil line [])
      | cons next lines =>
        have hnext : ofLines ((next :: lines).map TextLine.text) ++ u =
            next.text ++ '\n' :: (ofLines (lines.map TextLine.text) ++ u) := by simp [ofLines]
        rw [hnext, firstLine_append next.newline_not_mem]
        exact hlines next List.mem_cons_self
    obtain ⟨z', hz', htells⟩ := ih (held ++ (line.text ++ [' ']))
      (Zipper.rest_splitLine hrest line.newline_not_mem)
      (fun l hl => hlines l (List.mem_of_mem_tail hl)) (fun _ => hu (List.cons_ne_nil line lines))
    refine ⟨z', hz', ?_⟩
    rw [List.flatMap_cons, ← List.append_assoc]
    exact (tells_line mk held line hrest hbelow).trans htells

theorem step_of_underline (hf : s.inFence = false) (hl : s.freshLine = false)
    (hr : s.input.rest = '\n' :: u) (hu : isUnderline (firstLine u)) :
    s.step = .ok { s with
      input := (s.input.advance 1).splitLine.2, freshLine := true : State }.underlined := by
  have hb : s.input.lineBelow?.any isUnderline := by
    rw [lineBelow?_of_newline hr]
    exact hu
  rw [step_of_newline_of_midLine hf hl hr, lineEnd_of_underline hb]

/-- The lines above the title are told as text. -/
theorem told_underlined {line : Text} (hh : s.buffer.held = held.map .char)
    (hl : s.buffer.line = line.map .char) (hline : ∃ c ∈ line, isBlank c = false) :
    s.underlined.told mk = toldText held s.lists.lists ++
      [(.heading .major (collapse line), s.lists.lists)] := by
  have hheld : expand mk { s with buffer := s.buffer.dropLine }.buffer.all = held := by
    show expand mk s.buffer.dropLine.all = held
    rw [Buffer.all_dropLine, hh, expand_chars]
  have hne : collapse line ≠ [] := by
    intro h
    obtain ⟨c, hc, hblank⟩ := hline
    rw [collapse_eq_nil_iff.1 h c hc] at hblank
    cases hblank
  obtain ⟨c, t, ht⟩ := List.exists_cons_of_ne_nil hne
  have htitle : (Signal.title s.buffer.line).event? mk =
      some (.heading .major (collapse line)) := by
    rw [hl]
    simp [Signal.event?, ht]
  rw [underlined, Move.told_andThen, told_release (congrArg collapse hheld), next_release]
  simp [Move.told, Raised.told, raise, Raised.events, htitle]

/-- A line that is underlined is told as a title, after the text that waits. -/
theorem tells_title {rule : Text} (line : TextLine)
    (hr : z.rest = line.text ++ '\n' :: (rule ++ '\n' :: u)) (hrule : isUnderline rule)
    (hline : '\n' ∉ rule) (hlast : ∃ c ∈ line.text, isBlank c = false) :
    (gathering z held).Tells mk
      (toldText held [] ++ [(.heading .major (collapse line.text), [])])
      (.initial z.splitLine.2.splitLine.2) := by
  obtain ⟨m, hm, htold, hnext⟩ := tells_text mk held line hr
  have hend : m.next.input.rest = '\n' :: (rule ++ '\n' :: u) := by
    rw [hnext]
    exact Zipper.rest_advance_length hr
  have hstep := step_of_underline (s := m.next) (by rw [hnext]; rfl) (by rw [hnext]) hend
    (by rw [firstLine_append hline]; exact hrule)
  have hne : m.next.input.rest ≠ [] := by
    rw [hend]
    exact List.cons_ne_nil _ _
  have htext : (gathering z held).Tells mk [] m.next := ⟨m, hm, htold, rfl⟩
  have hall := htext.trans (tells_of_step mk hne hstep)
  rw [hnext, told_underlined mk held (by simp [gathering]) (by simp [gathering]) hlast] at hall
  rw [Zipper.splitLine_eq_advance hr line.newline_not_mem]
  simpa [underlined, next_release, gathering, initial] using hall

/-! ## The other blocks -/

/-- A rule for lines applies. -/
theorem tells_of_blockRule? {m : Move} {c : Char} (hr : z.rest = c :: u) (hc : c ≠ '\\')
    (h : (gathering z held).midLine.blockRule? = some m) :
    (gathering z held).Tells mk (m.told mk) m.next := by
  have hback : (gathering z held).input.next? ≠ some '\\' := by
    show z.rest.head? ≠ _
    simpa [hr] using hc
  have hne : (gathering z held).input.rest ≠ [] := by
    show z.rest ≠ []
    rw [hr]
    exact List.cons_ne_nil c u
  exact tells_of_step mk hne (step_of_blockRule? rfl rfl hback h)

theorem told_release_gathering (hb : s.buffer = (gathering z held).buffer) :
    s.release.told mk = toldText held s.lists.lists := by
  apply told_release
  simp [hb, gathering]

theorem told_paragraphBreak (hb : s.buffer = (gathering z held).buffer) (hl : s.lists = .empty) :
    s.paragraphBreak.told mk = toldText held [] ++ [(.paragraphEnd, [])] := by
  have htext := told_release_gathering mk held
    (s := { s with input := s.input.advance 1, freshLine := true }) hb
  rw [paragraphBreak, Move.told_andThen, htext, next_release, hl]
  rfl

/-- An empty line tells the text that waits, and ends the paragraph. -/
theorem tells_paragraphBreak (hr : z.rest = '\n' :: u) :
    (gathering z held).Tells mk (toldText held [] ++ [(.paragraphEnd, [])])
      (.initial (z.advance 1)) := by
  have hall := tells_of_blockRule? mk held hr (by decide)
    (blockRule?_of_newline hr)
  have htold := told_paragraphBreak mk held (s := (gathering z held).midLine) (z := z) rfl rfl
  have hnext : (gathering z held).midLine.paragraphBreak.next = .initial (z.advance 1) := by
    rw [paragraphBreak, Move.next_andThen, next_release]
    rfl
  rwa [htold, hnext] at hall

/-- A line that starts with a hash is told as its events. -/
theorem tells_hashRule {t : Text} (hr : z.rest = '#' :: t ++ '\n' :: u) (hl : '\n' ∉ '#' :: t) :
    (initial z).Tells mk ((hashLine ('#' :: t)).map fun e => (e, [])) (.initial z.splitLine.2) := by
  have hall := tells_of_blockRule? mk [] hr (by decide) (blockRule?_of_hash hr)
  have hline : z.splitLine.1 = '#' :: t := by rw [Zipper.splitLine_of_newline hr hl]
  rw [hashRule, show (gathering z []).midLine.input = z from rfl, Move.told_andThen,
    told_announce, hline] at hall
  exact hall

/-! ## Fenced blocks -/

theorem startsWith_fence_iff : s.input.startsWith fence ↔ fence <+: s.input.rest :=
  List.isPrefixOf_iff_prefix

/-- The line that opens a fenced block tells the text that waits. -/
theorem tells_openFence {info : Text} (hf : s.inFence = false) (hl : s.freshLine = true)
    (hr : s.input.rest = fence ++ info ++ '\n' :: u) : s.Tells mk
      (toldText (expand mk s.buffer.all) s.lists.lists ++ [(.fenceOpen, s.lists.lists)])
      { s with
        input := s.input.splitLine.2, buffer := .empty, freshLine := false, inFence := true } := by
  have hfence : s.midLine.input.startsWith fence := by
    refine startsWith_fence_iff.2 ?_
    show fence <+: s.input.rest
    rw [hr, List.append_assoc]
    exact List.prefix_append fence _
  have hrule : s.midLine.blockRule? = some s.midLine.openFence := by
    rw [blockRule?_of_other (s := s.midLine) hr (by decide) (by decide), if_pos hfence]
  have hback : s.input.next? ≠ some '\\' := by
    rw [Zipper.next?, hr]
    exact (by decide : some codeMark ≠ some '\\')
  have hne : s.input.rest ≠ [] := by
    rw [hr]
    exact List.cons_ne_nil _ _
  have hall := tells_of_step mk hne (step_of_blockRule? hf hl hback hrule)
  rw [openFence, Move.told_andThen, told_release rfl, next_release, Move.next_andThen,
    next_release] at hall
  exact hall

/-- A line of a fenced block. -/
theorem tells_fencedLine (hf : s.inFence = true) (hne : s.input.rest ≠ [])
    (hfence : ¬ fence <+: s.input.rest) :
    s.Tells mk [(.fenceLine s.input.restOfLine, s.lists.lists)]
      { s with input := s.input.splitLine.2 } := by
  have hall := tells_of_step mk hne (s.step_eq.trans (if_pos hf))
  rw [fencedLine_of_not_fence (mt startsWith_fence_iff.1 hfence)] at hall
  exact hall

/-- The line that closes a fenced block. -/
theorem tells_closeFence (hf : s.inFence = true) (hfence : fence <+: s.input.rest) :
    s.Tells mk [(.fenceClose, s.lists.lists)]
      { s with input := s.input.splitLine.2, inFence := false, freshLine := true } := by
  have hne : s.input.rest ≠ [] := by
    intro h
    rw [h, List.prefix_nil] at hfence
    cases hfence
  have hall := tells_of_step mk hne (s.step_eq.trans (if_pos hf))
  rw [fencedLine_of_fence (startsWith_fence_iff.2 hfence)] at hall
  exact hall

/-- The lines of a fenced block, one after the other. -/
theorem tells_fencedLines {lines : List VerbatimLine} (hf : s.inFence = true)
    (hr : s.input.rest = ofLines (lines.map VerbatimLine.text) ++ u) :
    ∃ z, z.source = s.input.source ∧ z.rest = u ∧ ∀ mk, s.Tells mk
      (lines.map fun line => (.fenceLine line.text, s.lists.lists)) { s with input := z } := by
  induction lines generalizing s with
  | nil => exact ⟨s.input, rfl, hr, fun _ => .refl s⟩
  | cons line lines ih =>
    have hrest : s.input.rest =
        line.text ++ '\n' :: (ofLines (lines.map VerbatimLine.text) ++ u) := by
      rw [hr]
      simp [ofLines]
    have hne : s.input.rest ≠ [] := by
      rw [hrest]
      exact List.append_ne_nil_of_right_ne_nil _ (List.cons_ne_nil _ _)
    have hfence : ¬ fence <+: s.input.rest := by
      rw [hrest]
      exact mt (prefix_of_prefix_line (by decide)) line.open_fence
    have hline : s.input.restOfLine = line.text := by
      rw [Zipper.restOfLine, hrest, firstLine_append line.line]
    obtain ⟨z, hsource, hz, hothers⟩ := ih (s := { s with input := s.input.splitLine.2 }) hf
      (Zipper.rest_splitLine hrest line.line)
    refine ⟨z, hsource.trans (Zipper.source_advance _ _), hz, fun mk => ?_⟩
    have hfirst := tells_fencedLine mk hf hne hfence
    rw [hline] at hfirst
    exact hfirst.trans (hothers mk)

/-- A fenced block up to the end of its lines. -/
theorem tells_fencedBlock {info : Text} {lines : List VerbatimLine} (hf : s.inFence = false)
    (hl : s.freshLine = true) (hinfo : '\n' ∉ info)
    (hr : s.input.rest =
      fence ++ info ++ '\n' :: (ofLines (lines.map VerbatimLine.text) ++ u)) :
    ∃ z, z.source = s.input.source ∧ z.rest = u ∧ ∀ mk, s.Tells mk
      (toldText (expand mk s.buffer.all) s.lists.lists ++ (.fenceOpen, s.lists.lists) ::
        lines.map fun line => (.fenceLine line.text, s.lists.lists))
      { s with input := z, buffer := .empty, freshLine := false, inFence := true } := by
  have hinfo' : '\n' ∉ fence ++ info := by
    rw [List.mem_append, not_or]
    exact ⟨by decide, hinfo⟩
  have hbelow := Zipper.rest_splitLine hr hinfo'
  obtain ⟨z, hsource, hz, hlines⟩ := tells_fencedLines (s := { s with
    input := s.input.splitLine.2, buffer := .empty, freshLine := false, inFence := true }) rfl
    (Zipper.rest_splitLine hr hinfo')
  refine ⟨z, hsource.trans (Zipper.source_advance _ _), hz, fun mk => ?_⟩
  simpa only [List.append_assoc, List.singleton_append] using
    (tells_openFence mk hf hl hr).trans (hlines mk)

end State

/-! ## Titles after hashes -/

namespace Markdown

variable {hashes closing : Nat} {gap after : Gap} {title : HashTitle}

theorem hashLine_of_header (hashes : Nat) (gap : Gap) (title : HashTitle) :
    hashLine (List.replicate hashes '#' ++ gap.text ++ title.text) =
      [.heading (.ofHashes hashes) title.text] := by
  have hlast : (List.replicate hashes '#' ++ gap.text ++ title.text).getLast? ≠ some '#' := by
    rw [List.getLast?_append, List.getLast?_eq_some_getLast title.ne_nil, Option.some_or]
    intro h
    exact (title.last _ ((List.getLast?_eq_some_getLast title.ne_nil).trans h)).1 rfl
  have hrun : (List.replicate hashes '#' ++ gap.text ++ title.text).takeWhile (· == '#') =
      List.replicate hashes '#' := by
    have hstop : (gap.text ++ title.text).takeWhile (· == '#') = [] := by
      cases hg : gap.text with
      | nil =>
        obtain ⟨c, t, ht⟩ := List.exists_cons_of_ne_nil title.ne_nil
        have hc := (title.head c (by rw [ht]; rfl)).1
        rw [List.nil_append, ht, List.takeWhile_cons_of_neg (by simpa using hc)]
      | cons c t =>
        have hc : c ≠ '#' := by
          rintro rfl
          cases gap.blank '#' (by rw [hg]; exact List.mem_cons_self)
        rw [List.cons_append, List.takeWhile_cons_of_neg (by simpa using hc)]
    rw [List.append_assoc, List.takeWhile_append_of_pos (by simp), hstop, List.append_nil]
  have htitle : trim isBlank (gap.text ++ title.text) = title.text := by
    have h := trim_append (p := isBlank) (b := []) gap.blank nofun
      (fun c hc => (title.head c hc).2) (fun c hc => (title.last c hc).2) title.ne_nil
    rwa [List.append_nil] at h
  rw [hashLine, if_neg hlast, hrun]
  show [Event.heading (.ofHashes (List.replicate hashes '#').length)
    (trim isBlank (List.drop (List.replicate hashes '#').length _))] = _
  rw [List.append_assoc, List.drop_left, htitle, List.length_replicate]

theorem hashLine_of_box (hashes : Nat) (gap : Gap) (title : HashTitle) (after : Gap)
    (hclosing : 0 < closing) :
    hashLine (List.replicate hashes '#' ++ gap.text ++ title.text ++ after.text ++
      List.replicate closing '#') =
        [.boxOpen, .lineBreak, .text title.text, .lineBreak, .boxClose] := by
  obtain ⟨n, rfl⟩ := Nat.exists_eq_add_of_lt hclosing
  have hlast : (List.replicate hashes '#' ++ gap.text ++ title.text ++ after.text ++
      List.replicate (0 + n + 1) '#').getLast? = some '#' := by
    rw [List.replicate_succ', ← List.append_assoc, List.getLast?_concat]
  have hgap : ∀ (k : Nat) {t : Text}, (∀ c ∈ t, isBlank c) →
      ∀ c ∈ List.replicate k '#' ++ t, (c == '#' || isBlank c) = true := by
    intro k t ht c hc
    rcases List.mem_append.1 hc with hc | hc
    · rw [List.eq_of_mem_replicate hc]
      rfl
    · rw [ht c hc, Bool.or_true]
  have hsides : ∀ c, c ≠ '#' ∧ isBlank c = false → (c == '#' || isBlank c) = false := by
    rintro c ⟨hc, hb⟩
    rw [hb, Bool.or_false, beq_eq_false_iff_ne]
    exact hc
  have hafter : ∀ c ∈ after.text ++ List.replicate (0 + n + 1) '#',
      (c == '#' || isBlank c) = true := by
    intro c hc
    exact hgap _ after.blank c (List.mem_append.2 (List.mem_append.1 hc).symm)
  have htitle := trim_append (p := fun c => c == '#' || isBlank c) (hgap hashes gap.blank)
    hafter (fun c hc => hsides c (title.head c hc)) (fun c hc => hsides c (title.last c hc))
    title.ne_nil
  have hne : title.text.isEmpty = false := by
    rw [Bool.eq_false_iff, ne_eq, List.isEmpty_iff]
    exact title.ne_nil
  rw [← List.append_assoc] at htitle
  rw [hashLine, if_pos hlast, htitle]
  simp only [hne]
  rfl

end Markdown

/-! ## Blocks one after the other -/

theorem Block.toldText_eq (lines : List TextLine) :
    toldText (lines.flatMap fun line => line.text ++ [' ']) [] =
      (textEvents (lines.map TextLine.text)).map fun e => (e, []) := by
  have hjoin : collapse (lines.flatMap fun line => line.text ++ [' ']) =
      collapse (join ' ' (lines.map TextLine.text)) := by
    cases lines with
    | nil => rfl
    | cons line lines =>
      have h := flatMap_eq_join (List.cons_ne_nil line.text (lines.map TextLine.text))
      rw [← List.map_cons, List.flatMap_map] at h
      rw [h, collapse_append_space]
  rw [toldText, textEvents, hjoin]
  split <;> rfl

theorem Markdown.StartsItem.lead {c : Char} {t : Text} {style : ListStyle} {n : Nat}
    (h : StartsItem (c :: t) style n) : (isBullet c || c.isDigit) = true := by
  generalize hu : c :: t = u at h
  cases h with
  | bullet t hc hd =>
    obtain rfl := (List.cons.inj hu).1
    rw [hc, Bool.true_or]
  | @number digits t hne hd =>
    obtain ⟨d, digits, rfl⟩ := List.exists_cons_of_ne_nil hne
    obtain rfl := (List.cons.inj hu).1
    rw [hd c List.mem_cons_self, Bool.or_true]

theorem not_isUnderline_newline (u : Text) : ¬ isUnderline (firstLine ('\n' :: u)) := by
  intro h
  cases h

/-- A line that starts with hashes is a block. -/
theorem State.tells_hashBlock (mk : Markup) {n : Nat} {line t : Text} {z : Zipper} {u : Text}
    (hr : z.rest = line ++ '\n' :: '\n' :: u) (hline : line = List.replicate n '#' ++ t)
    (hn : 0 < n) (ht : '\n' ∉ t) :
    ∃ z', z'.rest = u ∧ (State.initial z).Tells mk
      (((hashLine line).map fun e => (e, [])) ++ [(.paragraphEnd, [])]) (.initial z') := by
  obtain ⟨k, rfl⟩ := Nat.exists_eq_add_of_lt hn
  have hhash : line = '#' :: (List.replicate (0 + k) '#' ++ t) := by
    rw [hline, List.replicate_succ, List.cons_append]
  have hl : '\n' ∉ line := by
    rw [hline]
    simp [ht]
  rw [hhash] at hr hl ⊢
  have hbelow := Zipper.rest_splitLine hr hl
  refine ⟨z.splitLine.2.advance 1, ?_, ?_⟩
  · rw [Zipper.rest_advance, hbelow]
    rfl
  · exact (tells_hashRule mk hr hl).trans (tells_paragraphBreak mk [] hbelow)

/-- **A block is told at the empty line below it**, and reading stands there as it began. -/
theorem Block.tells (mk : Markup) (block : Block) {z : Zipper} {u : Text}
    (hr : z.rest = ofLines block.lines ++ '\n' :: u) :
    ∃ z', z'.rest = u ∧ (State.initial z).Tells mk
      ((block.events ++ [Event.paragraphEnd]).map fun e => (e, [])) (.initial z') := by
  have hbreak : ∀ {z' : Zipper}, z'.rest = '\n' :: u → (z'.advance 1).rest = u := by
    intro z' h
    rw [Zipper.rest_advance, h]
    rfl
  rw [List.map_append]
  cases block with
  | paragraph lines =>
    obtain ⟨z', hz', htells⟩ := State.tells_lines mk [] hr
      (fun line hl h => lines.not_underline line hl (isUnderline_iff.1 h))
      (fun _ => not_isUnderline_newline u)
    have hall := htells.trans (State.tells_paragraphBreak mk _ hz')
    rw [List.nil_append, List.nil_append, toldText_eq] at hall
    exact ⟨z'.advance 1, hbreak hz', hall⟩
  | underlined lines rule hlast hrule hline =>
    have hrest : z.rest = ofLines (lines.earlier.map TextLine.text) ++
        (lines.last.text ++ '\n' :: (rule ++ '\n' :: '\n' :: u)) := by
      rw [hr]
      simp [Block.lines, TextLines.all, ofLines]
    have htail : ∀ line ∈ lines.earlier.tail, ¬ isUnderline line.text := by
      intro line hl h
      have hne : lines.earlier ≠ [] := List.ne_nil_of_tail_ne_nil (List.ne_nil_of_mem hl)
      refine lines.not_underline line ?_ (isUnderline_iff.1 h)
      rw [List.tail_append_of_ne_nil hne]
      exact List.mem_append_left _ hl
    have hbelow : lines.earlier ≠ [] → ¬ isUnderline (firstLine
        (lines.last.text ++ '\n' :: (rule ++ '\n' :: '\n' :: u))) := by
      intro hne h
      rw [firstLine_append lines.last.newline_not_mem] at h
      refine lines.not_underline lines.last ?_ (isUnderline_iff.1 h)
      rw [List.tail_append_of_ne_nil hne]
      exact List.mem_append_right _ List.mem_cons_self
    obtain ⟨z', hz', htells⟩ := State.tells_lines mk [] hrest htail hbelow
    have hend := Zipper.rest_splitLine (Zipper.rest_splitLine hz' lines.last.newline_not_mem) hline
    have hall := (htells.trans
      (State.tells_title mk _ lines.last hz' (isUnderline_iff.2 hrule) hline hlast)).trans
      (State.tells_paragraphBreak mk [] hend)
    rw [List.nil_append, List.nil_append, toldText_eq] at hall
    refine ⟨_, hbreak hend, ?_⟩
    rw [Block.events, List.map_append]
    exact hall
  | header hashes hpos gap title =>
    have hline : '\n' ∉ gap.text ++ title.text := by simp [gap.line, title.line]
    have hrest : z.rest = List.replicate hashes '#' ++ gap.text ++ title.text ++
        '\n' :: '\n' :: u := by
      rw [hr]
      simp [Block.lines, ofLines]
    have hall := State.tells_hashBlock mk hrest (List.append_assoc _ _ _) hpos hline
    rwa [hashLine_of_header] at hall
  | box hashes hpos gap title after closing hclosing =>
    have hline : '\n' ∉ gap.text ++ title.text ++ after.text ++ List.replicate closing '#' := by
      simp [gap.line, title.line, after.line]
    have hrest : z.rest = List.replicate hashes '#' ++ gap.text ++ title.text ++ after.text ++
        List.replicate closing '#' ++ '\n' :: '\n' :: u := by
      rw [hr]
      simp [Block.lines, ofLines]
    have hall := State.tells_hashBlock mk hrest (by simp only [List.append_assoc]) hpos hline
    rwa [hashLine_of_box hashes gap title after hclosing] at hall
  | fenced info hinfo lines =>
    have hrest : z.rest = fence ++ info ++ '\n' :: (ofLines (lines.map VerbatimLine.text) ++
        (fence ++ '\n' :: '\n' :: u)) := by
      rw [hr]
      simp [Block.lines, ofLines]
    obtain ⟨z', -, hz', hopened⟩ := State.tells_fencedBlock (s := .initial z) rfl rfl hinfo hrest
    have hclose := State.tells_closeFence mk (s := .fenced z') rfl
      (by rw [show (State.fenced z').input = z' from rfl, hz']; exact List.prefix_append _ _)
    have hend := Zipper.rest_splitLine hz' (by decide)
    have hall := ((hopened mk).trans hclose).trans (State.tells_paragraphBreak mk [] hend)
    refine ⟨_, hbreak hend, ?_⟩
    rw [Block.events, List.map_append, List.map_cons, List.map_map]
    exact hall

theorem Block.tells_all (mk : Markup) {blocks : List Block} {z : Zipper}
    (hr : z.rest = printAll blocks) : ∃ z', z'.rest = [] ∧ (State.initial z).Tells mk
      ((blocks.flatMap fun b => b.events ++ [Event.paragraphEnd]).map fun e => (e, []))
      (.initial z') := by
  induction blocks generalizing z with
  | nil => exact ⟨z, hr, .refl _⟩
  | cons block blocks ih =>
    have hrest : z.rest = ofLines block.lines ++ '\n' :: printAll blocks := by
      rw [hr]
      simp [printAll, ofLines]
    obtain ⟨z', hz', hblock⟩ := block.tells mk hrest
    obtain ⟨z'', hz'', hblocks⟩ := ih hz'
    refine ⟨z'', hz'', ?_⟩
    rw [List.flatMap_cons, List.map_append]
    exact hblock.trans hblocks

/-- **Blocks are read back as they were printed.**  No list is open at any of their events. -/
theorem Zipper.events_of_blocks (mk : Markup) {z : Zipper} {blocks : List Block}
    (h : z.rest = Block.printAll blocks) :
    z.trace.failure? = none ∧ (z.trace.events mk).map Raised.told =
      (blocks.flatMap fun b => b.events ++ [Event.paragraphEnd]).map fun e => (e, []) := by
  obtain ⟨z', hz', m, hm, htold, hnext⟩ := Block.tells_all mk h
  have hend : m.next.input.rest = [] := by rw [hnext, ← hz']; rfl
  rw [trace_of_reads_to_end hm hend]
  refine ⟨rfl, ?_⟩
  rw [Trace.events, Raised.events_append, List.map_append, ← htold, hnext]
  exact List.append_nil _

/-- Five blocks, one of each kind. -/
theorem Zipper.events_of_blocks_each_kind :
    let z := Zipper.start
      "a  b\nc\n\nt\nu v\n--- \n\n### w\n\n# x ##\n\n```sh\n# y\n\n```\n\n".toList
    (∃ blocks : List Block, blocks.length = 5 ∧ z.rest = Block.printAll blocks) ∧
      z.trace.failure? = none ∧ (z.trace.events tagMarkup).map Raised.told =
        [(.text "a b c".toList, []), (.paragraphEnd, []),
          (.text "t".toList, []), (.heading .major "u v".toList, []), (.paragraphEnd, []),
          (.heading .minor "w".toList, []), (.paragraphEnd, []),
          (.boxOpen, []), (.lineBreak, []), (.text "x".toList, []), (.lineBreak, []),
          (.boxClose, []), (.paragraphEnd, []),
          (.fenceOpen, []), (.fenceLine "# y".toList, []), (.fenceLine [], []), (.fenceClose, []),
          (.paragraphEnd, [])] := by
  intro z
  have hword : ∀ {c : Char} {t : Text}, (isBullet c || c.isDigit) = false →
      ∀ style n, ¬ StartsItem (c :: t) style n := by
    intro c t hc style n h
    rw [h.lead] at hc
    cases hc
  let ab : TextLine := ⟨"a  b".toList, by decide, List.all_eq_true.1 (by decide), by decide,
    hword (by decide)⟩
  let c : TextLine := ⟨['c'], by decide, List.all_eq_true.1 (by decide), by decide,
    hword (by decide)⟩
  let t : TextLine := ⟨['t'], by decide, List.all_eq_true.1 (by decide), by decide,
    hword (by decide)⟩
  let uv : TextLine := ⟨"u v".toList, by decide, List.all_eq_true.1 (by decide), by decide,
    hword (by decide)⟩
  have hpara : ∀ line ∈ ([ab] ++ [c]).tail, ¬ Underline line.text := by
    intro line h
    obtain rfl := List.mem_singleton.1 h
    rw [← isUnderline_iff]
    exact show ¬ isUnderline ['c'] by decide
  have htitle : ∀ line ∈ ([t] ++ [uv]).tail, ¬ Underline line.text := by
    intro line h
    obtain rfl := List.mem_singleton.1 h
    rw [← isUnderline_iff]
    exact show ¬ isUnderline "u v".toList by decide
  let space : Gap := ⟨[' '], List.all_eq_true.1 (by decide), by decide⟩
  let w : HashTitle := ⟨['w'], by decide, by decide, by simp; decide, by simp; decide⟩
  let x : HashTitle := ⟨['x'], by decide, by decide, by simp; decide, by simp; decide⟩
  let blocks : List Block := [.paragraph ⟨[ab], c, hpara⟩,
    .underlined ⟨[t], uv, htitle⟩ "--- ".toList ⟨'u', List.mem_cons_self, rfl⟩
      (isUnderline_iff.1 (by decide)) (by decide),
    .header 3 (by decide) space w, .box 1 (by decide) space x space 2 (by decide),
    .fenced "sh".toList (by decide)
      [⟨"# y".toList, by decide, by decide⟩, ⟨[], by decide, by decide⟩]]
  have hprint : z.rest = Block.printAll blocks := rfl
  obtain ⟨hsuccess, hevents⟩ := z.events_of_blocks tagMarkup hprint
  refine ⟨⟨blocks, rfl, hprint⟩, hsuccess, ?_⟩
  rw [hevents]
  rfl

end Roffdown
