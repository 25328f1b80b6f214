import Roffdown.Proofs.Reading

/-!
# No letter is lost

Markup is made of ASCII characters that are no letters.  All other characters of a document reach
the events that are raised, each once and in order: what the events say and what still waits or is
not yet read always make up the letters of the whole text.

* `isKept`, `kept`: the characters that no markup is made of.
* `State.Conserves`: a move passes these characters on; `State.conserves_of_rule` has each rule.
* `State.conserves_of_reads`: so does a reading.
* `Zipper.kept_words`: the events of a document have the characters of its source.
-/

namespace Roffdown

open Markdown Text
open State (Reads)

/-! ## Characters that are kept -/

/-- ASCII letters, and all that is not ASCII. -/
def isKept (c : Char) : Bool := c.isAlpha || 0x80 ≤ c.toNat

/-- The characters of a text that no markup is made of. -/
def kept (t : Text) : Text := t.filter isKept

@[simp] theorem kept_nil : kept [] = [] := rfl

@[simp] theorem kept_append (t u : Text) : kept (t ++ u) = kept t ++ kept u := List.filter_append ..

theorem kept_cons (c : Char) (t : Text) : kept (c :: t) = kept [c] ++ kept t := kept_append [c] t

theorem kept_cons_of_not {c : Char} (h : isKept c = false) (t : Text) : kept (c :: t) = kept t :=
  List.filter_cons_of_neg (by simp [h])

theorem kept_eq_nil {t : Text} (h : ∀ c ∈ t, isKept c = false) : kept t = [] := by
  rw [kept, List.filter_eq_nil_iff]
  intro c hc
  simp [h c hc]

theorem not_kept_of_isBlank {c : Char} (h : isBlank c) : isKept c = false := by
  simp only [isBlank, Bool.or_eq_true, beq_iff_eq] at h
  rcases h with ((((rfl | rfl) | rfl) | rfl) | rfl) | rfl <;> decide

theorem not_kept_of_isIndent {c : Char} (h : isIndent c) : isKept c = false :=
  not_kept_of_isBlank (isBlank_of_isIndent h)

theorem not_kept_of_isDigit {c : Char} (h : c.isDigit) : isKept c = false := by
  have hd : 48 ≤ c.toNat ∧ c.toNat ≤ 57 := Char.isDigit_iff_toNat.1 h
  have hu : ¬ c.isUpper := by
    intro hc
    have hb : 'A'.val ≤ c.val ∧ c.val ≤ 'Z'.val := of_decide_eq_true hc
    have hge : 65 ≤ c.toNat := UInt32.le_iff_toNat_le.1 hb.1
    omega
  have hl : ¬ c.isLower := by
    intro hc
    have hb : (decide ('a'.val ≤ c.val) && decide (c.val ≤ 'z'.val)) = true := hc
    have hge : 97 ≤ c.toNat :=
      UInt32.le_iff_toNat_le.1 (of_decide_eq_true (Bool.and_eq_true_iff.1 hb).1)
    omega
  have hw : ¬ 0x80 ≤ c.toNat := by omega
  change (c.isUpper || c.isLower || decide (0x80 ≤ c.toNat)) = false
  rw [Bool.eq_false_iff.2 hu, Bool.eq_false_iff.2 hl, decide_eq_false hw]
  rfl

section

variable {p : Char → Bool} (hp : ∀ c, p c → isKept c = false)

include hp

theorem kept_takeWhile (t : Text) : kept (t.takeWhile p) = [] :=
  kept_eq_nil fun c hc => hp c (List.all_eq_true.1 List.all_takeWhile c hc)

theorem kept_dropWhile (t : Text) : kept (t.dropWhile p) = kept t := by
  conv => rhs; rw [← List.takeWhile_append_dropWhile (p := p) (l := t)]
  rw [kept_append, kept_takeWhile hp, List.nil_append]

theorem kept_trimEnd (t : Text) : kept (trimEnd p t) = kept t := by
  have hr (u : Text) : kept u.reverse = (kept u).reverse := List.filter_reverse ..
  rw [trimEnd, hr, kept_dropWhile hp, hr, List.reverse_reverse]

theorem kept_trim (t : Text) : kept (trim p t) = kept t := by
  rw [trim, kept_trimEnd hp, trimStart, kept_dropWhile hp]

end

theorem kept_collapseAfter (c : Char) (blank : Bool) (t : Text) :
    kept (collapseAfter c blank t) = kept t := by
  have hgap (c d : Char) : kept (gap c d) = [] := by
    unfold gap
    split <;> rfl
  induction t generalizing c blank with
  | nil => rfl
  | cons d t ih =>
    unfold collapseAfter
    split
    · rename_i hd
      rw [ih, kept_cons_of_not (not_kept_of_isBlank hd)]
    · have hif : kept (if blank then gap c d else []) = [] := by
        split
        · exact hgap c d
        · rfl
      rw [kept_append, hif, List.nil_append, kept_cons, ih, ← kept_cons]

@[simp] theorem kept_collapse (t : Text) : kept (collapse t) = kept t := by
  induction t with
  | nil => rfl
  | cons c t ih =>
    by_cases hc : isBlank c
    · rw [collapse_cons_of_blank hc, ih, kept_cons_of_not (not_kept_of_isBlank hc)]
    · rw [collapse_cons_of_not_blank (Bool.eq_false_iff.2 hc), kept_cons, kept_collapseAfter,
        ← kept_cons]

/-! ## Where lines begin -/

namespace Zipper

/-- Whether a line begins at a place, or nothing is left there. -/
def AtLine (z : Zipper) : Prop := z.rest = [] ∨ z.before = [] ∨ z.before.head? = some '\n'

theorem atLine_splitLine (z : Zipper) : z.splitLine.2.AtLine := by
  change (z.advance ((firstLine z.rest).length + 1)).AtLine
  rcases eq_firstLine_or z.rest with h | ⟨u, h⟩
  · refine .inl ?_
    rw [rest_advance, ← h]
    exact List.drop_eq_nil_of_le (Nat.le_succ _)
  · have ht : z.rest.take ((firstLine z.rest).length + 1) = firstLine z.rest ++ ['\n'] := by
      conv => lhs; arg 2; rw [h]
      rw [List.take_length_add_append]
      rfl
    refine .inr (.inr ?_)
    rw [before_advance, ht]
    simp

/-- What is left of a line that begins here is a line of the whole text. -/
theorem restOfLine_mem_split {z : Zipper} (h : z.AtLine) (hz : z.rest ≠ []) :
    z.restOfLine ∈ split '\n' z.source := by
  have hl : z.restOfLine ∈ split '\n' z.rest := List.mem_of_head? (head?_split z.rest)
  rcases h.resolve_left hz with hb | hb
  · rwa [source, hb]
  · obtain ⟨before, hb⟩ := List.head?_eq_some_iff.1 hb
    rw [source, hb, List.reverse_cons, List.append_assoc, List.singleton_append, split_append]
    exact List.mem_append_right _ hl

theorem isPrefixOf_restOfLine {z : Zipper} {t : Text} (ht : '\n' ∉ t) (h : z.startsWith t) :
    t.isPrefixOf z.restOfLine := by
  obtain ⟨u, hu⟩ := List.isPrefixOf_iff_prefix.1 h
  rw [List.isPrefixOf_iff_prefix, restOfLine, ← hu, firstLine, takeWhile_bne_append ht]
  exact List.prefix_append _ _

end Zipper

/-- The lines of a document that can open or close a fenced block have no letters. -/
def BareFences (source : Text) : Prop :=
  ∀ line ∈ split '\n' source, fence.isPrefixOf line → kept line = []

instance (source : Text) : Decidable (BareFences source) :=
  inferInstanceAs (Decidable (∀ line ∈ split '\n' source, fence.isPrefixOf line → kept line = []))

/-! ## What the shapes keep -/

/-- What an event says. -/
def Event.words : Event → Text
  | .text line => line
  | .fenceLine line => line
  | .heading _ title => title
  | .manPage page => page ++ "man".toList
  | .link l => l.title ++ l.target
  | _ => []

/-- What events say, one after the other. -/
def wordsOf (events : List Event) : Text := events.flatMap Event.words

theorem kept_words_hashLine (line : Text) : kept (wordsOf (hashLine line)) = kept line := by
  have hhash (c : Char) (h : c == '#') : isKept c = false := by
    rw [beq_iff_eq.1 h]
    decide
  have htitle (c : Char) (h : c == '#' || isBlank c) : isKept c = false := by
    rcases Bool.or_eq_true _ _ ▸ h with h | h
    · exact hhash c h
    · exact not_kept_of_isBlank h
  unfold hashLine
  split
  · have ht := kept_trim htitle line
    simp only
    split
    · rename_i he
      rw [List.isEmpty_iff.1 he] at ht
      exact ht
    · simpa [wordsOf, Event.words] using ht
  · simp only [wordsOf, List.flatMap_cons, List.flatMap_nil, Event.words, List.append_nil]
    rw [kept_trim (fun _ => not_kept_of_isBlank), drop_length_takeWhile,
      kept_dropWhile hhash]

theorem kept_words_linkEvent (label target : Text) :
    kept (wordsOf [linkEvent label target]) = kept label ++ kept target := by
  unfold linkEvent
  split
  · rename_i h
    subst h
    simp [wordsOf, Event.words]
  · simp [wordsOf, Event.words]

theorem kept_of_isUnderline {line : Text} (h : isUnderline line) : kept line = [] := by
  rw [← kept_trimEnd (fun _ => not_kept_of_isBlank) line]
  unfold isUnderline at h
  split at h
  · rename_i he
    rw [he]
    rfl
  · rename_i c t he
    rw [he]
    refine kept_eq_nil fun d hd => ?_
    simp only [Bool.and_eq_true, Bool.or_eq_true, beq_iff_eq, List.all_eq_true] at h
    obtain ⟨⟨hc, -⟩, ht⟩ := h
    obtain rfl : d = c := by
      rcases List.mem_cons.1 hd with rfl | hd
      · rfl
      · exact ht d hd
    rcases hc with (rfl | rfl) | rfl <;> decide

/-- A marker has no letters. -/
theorem kept_drop_marker {t : Text} {marker : Marker} (h : marker? t = some marker) :
    kept (t.drop marker.width) = kept t := by
  cases t with
  | nil => contradiction
  | cons c t =>
    rw [marker?] at h
    split at h
    · rename_i hc
      have hk : isKept c = false := by
        simp only [isBullet, Bool.or_eq_true, beq_iff_eq] at hc
        rcases hc with (rfl | rfl) | rfl <;> decide
      split at h
      · contradiction
      · cases h
        rw [kept_cons_of_not hk, Nat.add_comm 1, List.drop_succ_cons, drop_length_takeWhile,
          kept_dropWhile fun _ => not_kept_of_isIndent]
    · split at h
      · contradiction
      · rename_i after hd _
        have ht : c :: t = (c :: t).takeWhile Char.isDigit ++ '.' :: after := by
          rw [← hd, List.takeWhile_append_dropWhile]
        cases h
        rw [Nat.add_assoc, ← List.drop_drop, drop_length_takeWhile, hd, Nat.add_comm 1,
          List.drop_succ_cons, drop_length_takeWhile, kept_dropWhile fun _ => not_kept_of_isIndent]
        conv => rhs; rw [ht]
        rw [kept_append, kept_takeWhile fun _ => not_kept_of_isDigit, List.nil_append,
          kept_cons_of_not (by decide)]
      · contradiction

theorem kept_firstLine_append (t : Text) :
    kept (firstLine t) ++ kept (t.drop ((firstLine t).length + 1)) = kept t := by
  rcases eq_firstLine_or t with h | ⟨u, h⟩
  · have hd : t.drop ((firstLine t).length + 1) = [] := by
      rw [← h]
      exact List.drop_eq_nil_of_le (Nat.le_succ _)
    rw [hd, kept_nil, List.append_nil, ← h]
  · have hd : t.drop ((firstLine t).length + 1) = u := by
      conv => lhs; arg 2; rw [h]
      rw [← List.drop_drop, List.drop_left]
      rfl
    conv => rhs; rw [h]
    rw [hd, kept_append, kept_cons_of_not (by decide)]

/-- What is left of the line and what is below it have all that is left. -/
theorem kept_splitLine (z : Zipper) :
    kept z.splitLine.1 ++ kept z.splitLine.2.rest = kept z.rest := kept_firstLine_append z.rest

/-! ## What moves say -/

/-- What a move says, as far as it is kept. -/
def Move.said (mk : Markup) (m : Move) : Text :=
  kept (wordsOf ((Raised.events mk m.raised).map Raised.item))

namespace State

/-- The characters to keep that wait or are not read. -/
def pending (mk : Markup) (s : State) : Text := kept (expand mk s.buffer.all) ++ kept s.input.rest

/-- A move that keeps all characters: those that it says come before those that are left. -/
def Conserves (mk : Markup) (s : State) (m : Move) : Prop :=
  m.said mk ++ m.next.pending mk = s.pending mk

variable {mk : Markup} {s : State} {m : Move} {f : State → Move}

@[simp] theorem said_silent (s : State) : (Move.silent s).said mk = [] := rfl

@[simp] theorem said_andThen : (m.andThen f).said mk = m.said mk ++ (f m.next).said mk := by
  simp [Move.said, wordsOf]

@[simp] theorem said_announce (events : List Event) :
    (s.announce events).said mk = kept (wordsOf events) := by
  simp [Move.said, Function.comp_def]

@[simp] theorem said_release : s.release.said mk = kept (expand mk s.buffer.all) := by
  rw [Move.said, Raised.events_release, Raised.events_singleton, Signal.event?_text,
    ← kept_collapse (expand mk s.buffer.all)]
  split
  · rename_i h
    rw [h]
    rfl
  · simp [wordsOf, Event.words]

@[simp] theorem said_raise_title (pieces : List Piece) :
    (s.raise [.title pieces]).said mk = kept (expand mk pieces) := by
  rw [Move.said, raise, List.map_cons, List.map_nil, Raised.events_singleton, Signal.event?_title,
    ← kept_collapse (expand mk pieces)]
  split
  · rename_i h
    rw [h]
    rfl
  · simp [wordsOf, Event.words]

/-- What says nothing but events without words says nothing. -/
theorem OnLists.said (h : OnLists (·.words = []) f) (s : State) : (f s).said mk = [] := by
  have hw : wordsOf ((Raised.events mk (f s).raised).map Raised.item) = [] := by
    rw [wordsOf, List.flatMap_eq_nil_iff]
    intro e he
    obtain ⟨x, hx, rfl⟩ := List.mem_map.1 he
    obtain ⟨r, hr, hrx⟩ := List.mem_filterMap.1 hx
    obtain ⟨d, hd, hwords⟩ := h.events s r hr
    rw [hd] at hrx
    cases hrx
    exact hwords
  rw [Move.said, hw, kept_nil]

/-! ## Rules that keep characters waiting -/

/-- Characters move from the text to the running text. -/
theorem conserves_push {n : State} {pieces : List Piece} {k : Nat}
    (hb : n.buffer.all = s.buffer.all ++ pieces) (hr : n.input.rest = s.input.rest.drop k)
    (h : kept (expand mk pieces) = kept (s.input.rest.take k)) : Conserves mk s (.silent n) := by
  unfold Conserves pending
  rw [said_silent, Move.next_silent, List.nil_append, hb, hr, expand_append, kept_append, h,
    List.append_assoc, ← kept_append, List.take_append_drop]

/-- The running text is raised, and then what a part of the text says. -/
theorem conserves_release {t : State} {P : Event → Prop} (h : OnLists P f)
    (hb : t.buffer = s.buffer)
    (hk : (f t.release.next).said mk ++ kept t.input.rest = kept s.input.rest) :
    Conserves mk s (t.release.andThen f) := by
  have hn : (f t.release.next).next.pending mk = kept t.input.rest := by
    rw [h.next_eq, next_release]
    simp [pending]
  unfold Conserves
  rw [said_andThen, said_release, Move.next_andThen, hn, hb, List.append_assoc, hk, pending]

theorem words_of_isOfList {e : Event} (h : e.isOfList) : e.words = [] := by
  cases e <;> first | rfl | contradiction

theorem conserves_paragraphBreak {t : Text} (hr : s.input.rest = '\n' :: t) :
    Conserves mk s s.paragraphBreak := by
  have hw : OnLists (·.words = []) fun s : State =>
      (if s.lists.isEmpty then Move.silent s else s.closeInnermost).andThen
        (announce [.paragraphEnd]) := by
    refine onLists_breakList.mono ?_
    rintro e (he | rfl)
    · exact words_of_isOfList he
    · rfl
  refine conserves_release (t := { s with input := s.input.advance 1, freshLine := true }) hw rfl ?_
  rw [hw.said, List.nil_append, Zipper.rest_advance, hr, kept_cons_of_not (by decide)]
  rfl

theorem conserves_hashRule : Conserves mk s s.hashRule := by
  refine conserves_release (t := { s with input := s.input.splitLine.2, freshLine := true })
    (onLists_announce fun _ _ => trivial) rfl ?_
  rw [said_announce, kept_words_hashLine]
  exact kept_splitLine s.input

theorem conserves_openFence (h : kept s.input.restOfLine = []) : Conserves mk s s.openFence := by
  refine conserves_release (t := { s with input := s.input.splitLine.2, inFence := true })
    (onLists_announce fun _ _ => trivial) rfl ?_
  rw [said_announce, ← kept_splitLine s.input]
  exact congrArg (· ++ _) h.symm

theorem conserves_item {blanks t : Text} {marker : Marker} (hr : s.input.rest = blanks ++ t)
    (hb : ∀ c ∈ blanks, isIndent c) (hm : marker? t = some marker) : Conserves mk s
      ({ s with input := s.input.advance (blanks.length + marker.width) }.release.andThen
        (placeItem marker (indentWidth blanks))) := by
  have hw : OnLists (·.words = []) (placeItem marker (indentWidth blanks)) :=
    (onLists_placeItem marker _).mono fun _ => words_of_isOfList
  have hblanks : kept blanks = [] := kept_eq_nil fun c hc => not_kept_of_isIndent (hb c hc)
  refine conserves_release hw rfl ?_
  rw [hw.said, List.nil_append, Zipper.rest_advance, hr, ← List.drop_drop, List.drop_left,
    kept_drop_marker hm, kept_append, hblanks, List.nil_append]

theorem conserves_of_blockRule (h : BlockRule s m)
    (hfence : s.input.startsWith fence → kept s.input.restOfLine = []) : Conserves mk s m := by
  cases h with
  | paragraphBreak hr => exact conserves_paragraphBreak hr
  | hashRule => exact conserves_hashRule
  | openFence hr => exact conserves_openFence (hfence hr)
  | item hr hb hm => exact conserves_item hr hb hm

theorem conserves_fencedLine (hb : s.buffer.all = [])
    (hfence : s.input.startsWith fence → kept s.input.restOfLine = []) :
    Conserves mk s s.fencedLine := by
  unfold Conserves pending
  by_cases h : s.input.startsWith fence
  · rw [fencedLine_of_fence h, said_announce, next_announce, ← kept_splitLine s.input]
    exact congrArg (kept (expand mk s.buffer.all) ++ ·) (congrArg (· ++ _) (hfence h).symm)
  · rw [fencedLine_of_not_fence h, said_announce, next_announce, ← kept_splitLine s.input]
    simp [hb, wordsOf, Event.words]

/-! ## Rules for running text -/

theorem conserves_underlined {t : State} (hb : t.buffer = s.buffer)
    (hr : kept t.input.rest = kept s.input.rest) : Conserves mk s t.underlined := by
  unfold Conserves pending underlined
  rw [said_andThen, said_release, said_raise_title, Move.next_andThen, next_raise, next_release]
  simp only [Buffer.all_dropLine, Buffer.all_empty, expand_nil, kept_nil, List.nil_append, hb, hr]
  rw [Buffer.all_eq, expand_append, kept_append]

/-- The line that underlines is dropped, and has no letters. -/
theorem kept_below_underline {t : Text} (hr : s.input.rest = '\n' :: t)
    (hu : isUnderline (firstLine t)) :
    kept (s.input.advance 1).splitLine.2.rest = kept s.input.rest := by
  have hrest : (s.input.advance 1).rest = t := by
    rw [Zipper.rest_advance, hr]
    rfl
  have hk : kept (firstLine t) ++ kept (s.input.advance 1).splitLine.2.rest = kept t := by
    rw [← hrest]
    exact kept_splitLine (s.input.advance 1)
  rw [hr, kept_cons_of_not (by decide), ← hk, kept_of_isUnderline hu, List.nil_append]

theorem conserves_join {t : Text} (hr : s.input.rest = '\n' :: t) :
    Conserves mk s (.silent { s with
      input := s.input.advance 1, freshLine := true,
      buffer := (s.buffer.push [.char ' ']).markLine }) := by
  have hk : kept (expand mk [.char ' ']) = kept (s.input.rest.take 1) := by
    rw [hr]
    rfl
  refine conserves_push ?_ rfl hk
  rw [Buffer.all_markLine, Buffer.all_push]

/-- Besides label and target, a link has no letters. -/
theorem conserves_link {lead t label target : Text} (hr : s.input.rest = lead ++ '[' :: t)
    (hl : lead = [] ∨ lead = ['!']) (hb : linkBody? t = some (label, target)) : Conserves mk s
      ({ s with
        input := s.input.advance (lead.length + 1 + linkBodyWidth label target) }.release.andThen
          (announce [linkEvent label target])) := by
  obtain ⟨⟨after, ht⟩, -⟩ := linkBody?_eq_some_iff.1 hb
  have hbody : t = (label ++ ']' :: '(' :: (target ++ [')'])) ++ after := by simp [ht]
  have hwidth : linkBodyWidth label target = (label ++ ']' :: '(' :: (target ++ [')'])).length := by
    simp [linkBodyWidth]
    omega
  have hafter : s.input.rest.drop (lead.length + 1 + linkBodyWidth label target) = after := by
    rw [hr, Nat.add_assoc, ← List.drop_drop, List.drop_left, Nat.add_comm 1, List.drop_succ_cons,
      hwidth, hbody, List.drop_left]
  have hlead : kept s.input.rest = kept t := by
    rw [hr, kept_append, kept_cons_of_not (by decide)]
    rcases hl with rfl | rfl <;> rfl
  refine conserves_release (t := { s with input := _ }) (onLists_announce fun _ _ => trivial) rfl ?_
  rw [said_announce, kept_words_linkEvent, Zipper.rest_advance, hafter, hlead, ht, kept_append,
    kept_cons_of_not (by decide), kept_cons_of_not (by decide), kept_append,
    kept_cons_of_not (by decide), List.append_assoc]

theorem kept_codePieces {code : Text} (h : '\\' ∉ code) : kept (expand mk (codePieces code)) =
    kept (mk .codeOn) ++ kept code ++ kept (mk .codeOff) := by
  have hcode : (code.flatMap fun c => if c = '\\' then ['\\', 'e'] else [c]) = code := by
    induction code with
    | nil => rfl
    | cons c code ih =>
      rw [List.mem_cons, not_or] at h
      rw [List.flatMap_cons, ih h.2, if_neg (Ne.symm h.1)]
      rfl
  have hp : codePieces code = [.mark .codeOn] ++ code.map .char ++ [.mark .codeOff] := by
    rw [codePieces, hcode]
    rfl
  rw [hp, expand_append, expand_append, expand_chars, kept_append, kept_append]
  simp [expand, Piece.expand]

/-- What is put into the running text has the letters of what was read. -/
theorem kept_of_taken (hmk : ∀ x, kept (mk x) = []) {t : Text} {pieces : List Piece}
    (h : Taken t pieces) (hs : '\\' ∉ t) : kept (expand mk pieces) = kept t := by
  cases h with
  | plain => rw [expand_chars]
  | mark x hc =>
    have ht : kept t = [] := by
      refine kept_eq_nil fun c h => ?_
      rcases hc c h with rfl | rfl <;> decide
    rw [ht]
    simpa [expand, Piece.expand] using hmk x
  | @code code hc =>
    have hcode : '\\' ∉ code := fun h => hs (List.mem_cons_of_mem _ (List.mem_append_left _ h))
    rw [kept_codePieces hcode, hmk, hmk, kept_cons_of_not (by decide), kept_append,
      List.nil_append]
    rfl

theorem conserves_of_textRule (hmk : ∀ x, kept (mk x) = []) (hs : '\\' ∉ s.input.rest)
    (h : TextRule s m) : Conserves mk s m := by
  cases h with
  | underline hr hu =>
    exact conserves_underlined (t := { s with input := _, freshLine := true }) rfl
      (kept_below_underline hr hu)
  | join hr => exact conserves_join hr
  | push h =>
    refine conserves_push (Buffer.all_push _ _) rfl (kept_of_taken hmk h ?_)
    exact fun hc => hs (List.mem_of_mem_take hc)
  | link hr hl hb => exact conserves_link hr hl hb

theorem atLine_of_blockRule (hl : s.freshLine = false) (hf : s.inFence = false)
    (h : BlockRule s m) (hm : m.next.freshLine = true ∨ m.next.inFence = true) :
    m.next.input.AtLine := by
  cases h with
  | paragraphBreak hr =>
    rw [input_paragraphBreak]
    refine .inr (.inr ?_)
    rw [Zipper.before_advance, hr]
    rfl
  | hashRule =>
    rw [input_hashRule]
    exact s.input.atLine_splitLine
  | openFence =>
    rw [input_openFence]
    exact s.input.atLine_splitLine
  | @item blanks t marker =>
    have hp := (onLists_placeItem marker (indentWidth blanks)).next_eq
    rw [Move.next_andThen, hp, next_release] at hm
    simp [hl, hf] at hm

theorem atLine_of_textRule (hl : s.freshLine = false) (hf : s.inFence = false)
    (h : TextRule s m) (hm : m.next.freshLine = true ∨ m.next.inFence = true) :
    m.next.input.AtLine := by
  cases h with
  | underline =>
    rw [underlined, Move.next_andThen, next_raise, next_release]
    exact (s.input.advance 1).atLine_splitLine
  | join hr =>
    refine .inr (.inr ?_)
    change (s.input.advance 1).before.head? = some '\n'
    rw [Zipper.before_advance, hr]
    rfl
  | push => simp [push, hl, hf] at hm
  | link => simp [next_release, hl, hf] at hm

/-- The rules for the beginning of a line, and the one for fenced blocks, apply there alone. -/
theorem atLine_of_rule (h : Rule s m) (hm : m.next.freshLine = true ∨ m.next.inFence = true) :
    m.next.input.AtLine := by
  cases h with
  | fencedLine =>
    rw [input_fencedLine]
    exact s.input.atLine_splitLine
  | backslash hf => simp [backslash, push, hf] at hm
  | block hf _ h => exact atLine_of_blockRule (s := s.midLine) rfl hf h hm
  | text hf h => exact atLine_of_textRule (s := s.midLine) rfl hf h hm

/-! ## Whole readings -/

theorem conserves_of_rule (hmk : ∀ x, kept (mk x) = []) (hs : '\\' ∉ s.input.rest)
    (hb : s.FenceIsBare) (hf : s.freshLine = true ∨ s.inFence = true → s.input.startsWith fence →
      kept s.input.restOfLine = []) (h : Rule s m) : Conserves mk s m := by
  cases h with
  | fencedLine hi => exact conserves_fencedLine (hb hi) (hf (.inr hi))
  | backslash _ hr =>
    rw [hr] at hs
    exact absurd List.mem_cons_self hs
  | block _ hl hm => exact conserves_of_blockRule (s := s.midLine) hm (hf (.inl hl))
  | text _ hm => exact conserves_of_textRule (s := s.midLine) hmk hs hm

/-- What a reading knows of where it stands in its document. -/
structure Stands (source : Text) (s : State) : Prop where
  source_eq : s.input.source = source
  bare : s.FenceIsBare
  atLine : s.freshLine = true ∨ s.inFence = true → s.input.AtLine

theorem Stands.of_rule {source : Text} (hs : s.Stands source) (h : Rule s m) :
    m.next.Stands source where
  source_eq := by
    obtain ⟨n, hn⟩ := exists_advance_of_rule h
    rw [hn, Zipper.source_advance, hs.source_eq]
  bare := fenceIsBare_of_rule hs.bare h
  atLine := atLine_of_rule h

/-- **A reading keeps all letters.** -/
theorem conserves_of_reads {source : Text} (hmk : ∀ x, kept (mk x) = []) (hback : '\\' ∉ source)
    (hfences : BareFences source) (hs : s.Stands source) (h : Reads s m) : Conserves mk s m := by
  induction h with
  | stop s => exact List.nil_append _
  | @step s m n hne hstep _ ih =>
    have hrule := rule_of_step hne hstep
    have hrest : '\\' ∉ s.input.rest := by
      intro hc
      rw [← hs.source_eq, Zipper.source] at hback
      exact hback (List.mem_append_right _ hc)
    -- A fence is only looked for where a line begins, so the whole line is one of the document.
    have hfence (hl : s.freshLine = true ∨ s.inFence = true) (hp : s.input.startsWith fence) :
        kept s.input.restOfLine = [] := by
      have hline := Zipper.restOfLine_mem_split (hs.atLine hl) hne
      rw [hs.source_eq] at hline
      exact hfences _ hline (Zipper.isPrefixOf_restOfLine (by decide) hp)
    have hm : Conserves mk s m := conserves_of_rule hmk hrest hs.bare hfence hrule
    have hn : Conserves mk m.next n := ih (hs.of_rule hrule)
    unfold Conserves at hm hn ⊢
    rw [said_andThen, Move.next_andThen, List.append_assoc, hn, hm]

/-- At the end of the text, what waits is raised. -/
theorem said_wrapUp (s : State) : s.wrapUp.said mk = kept (expand mk s.buffer.all) := by
  have hc : OnLists (·.words = []) fun s : State => s.closeMany s.lists.depth :=
    onLists_closeAll.mono fun _ => words_of_isOfList
  unfold wrapUp
  rw [said_andThen, said_release, said_andThen, hc.said, List.append_nil]
  split
  · exact List.append_nil _
  · exact List.append_nil _

end State

/-- **No letter of a document is lost, invented, doubled or moved.** -/
theorem Zipper.kept_words {mk : Markup} (hmk : ∀ x, kept (mk x) = []) {source : Text}
    (hback : '\\' ∉ source) (hfences : BareFences source)
    (h : (start source).trace.failure? = none) :
    kept (wordsOf (((start source).trace.events mk).map Raised.item)) = kept source := by
  obtain ⟨m, hr, hend, ht⟩ := exists_reads_of_success h
  have hs : (State.initial (start source)).Stands source :=
    ⟨rfl, nofun, fun _ => .inr (.inl rfl)⟩
  have hm : State.Conserves mk (.initial (start source)) m :=
    State.conserves_of_reads hmk hback hfences hs hr
  have hsaid : kept (wordsOf (((start source).trace.events mk).map Raised.item)) =
      m.said mk ++ m.next.wrapUp.said mk := by
    rw [ht, Trace.events, Raised.events_append, List.map_append]
    simp [Move.said, wordsOf]
  have hp : m.next.pending mk = kept (expand mk m.next.buffer.all) := by
    rw [State.pending, hend, kept_nil, List.append_nil]
  rw [hsaid, State.said_wrapUp, ← hp]
  exact hm

/-- A document with emphasis, a link, a list, and a fenced block that is open at the end. -/
theorem Zipper.kept_words_mixed :
    kept "<>".toList = [] ∧
    '\\' ∉ "*a*\n- [b](c)\n```\né".toList ∧
    BareFences "*a*\n- [b](c)\n```\né".toList ∧
    (start "*a*\n- [b](c)\n```\né".toList).trace.failure? = none ∧
    kept (wordsOf (((start "*a*\n- [b](c)\n```\né".toList).trace.events
      fun _ => "<>".toList).map Raised.item)) = kept "*a*\n- [b](c)\n```\né".toList := by
  have hmk : kept "<>".toList = [] := by decide
  have hback : '\\' ∉ "*a*\n- [b](c)\n```\né".toList := by decide
  have hfences : BareFences "*a*\n- [b](c)\n```\né".toList := by decide
  have h : (start "*a*\n- [b](c)\n```\né".toList).trace.failure? = none := by
    decide +kernel
  exact ⟨hmk, hback, hfences, h, kept_words (fun _ => hmk) hback hfences h⟩

end Roffdown
