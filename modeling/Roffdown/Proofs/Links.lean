import Roffdown.Proofs.Bounds

/-!
# Links

A link is a label and a target, each in brackets of its own.  The text after the opening bracket
tells whether there is one: the label ends at the first `]`, a `(` follows at once, and the target
ends at the first `)`.  The search goes as far as the text does, and what it finds counts only if no
newline is in it, so what is found is what the grammar says.

* `Markdown.BeginsLink`: the grammar; `Markdown.linkBody?_eq_some_iff_beginsLink`.
* `Markdown.linkSpan?`: label, target and length of a link, in bytes.
* `State.AtBracket`: a bracket opens in running text; `State.AtBracket.step`.
* `links_are_recognised`: links are found by their grammar, and what reading does at a bracket.
-/

namespace Roffdown

open Markdown Text
open State (Reads)

/-! ## The grammar -/

namespace Markdown

/-- A link from behind its opening bracket. -/
def linkTail (label target : Text) : Text := label ++ "](".toList ++ target ++ ")".toList

/-- A text begins with what follows the opening bracket of a link, and goes on after it. -/
structure BeginsLink (t label target after : Text) : Prop where
  eq : t = linkTail label target ++ after
  label : ']' ∉ label ∧ '\n' ∉ label
  target : ')' ∉ target ∧ '\n' ∉ target

/-- Label and target of a link, and the number of bytes that it takes, from the text after its
opening bracket. -/
def linkSpan? (t : Text) : Option (Text × Text × Nat) :=
  (linkBody? t).map fun p => (p.1, p.2, utf8Length (t.take (linkBodyWidth p.1 p.2)))

variable {t label target after : Text}

theorem length_linkTail (label target : Text) :
    (linkTail label target).length = linkBodyWidth label target := by
  simp [linkTail, linkBodyWidth]
  omega

theorem linkBody?_eq_some_iff_beginsLink :
    linkBody? t = some (label, target) ↔ ∃ after, BeginsLink t label target after := by
  rw [linkBody?_eq_some_iff]
  have htail (after : Text) : linkTail label target ++ after =
      label ++ ']' :: '(' :: (target ++ ')' :: after) := by simp [linkTail]
  constructor
  · rintro ⟨⟨after, ht⟩, hl, hn, htg, hn'⟩
    exact ⟨after, ht.trans (htail after).symm, ⟨hl, hn⟩, ⟨htg, hn'⟩⟩
  · rintro ⟨after, ht, ⟨hl, hn⟩, ⟨htg, hn'⟩⟩
    exact ⟨⟨after, ht.trans (htail after)⟩, hl, hn, htg, hn'⟩

theorem BeginsLink.linkBody? (h : BeginsLink t label target after) :
    linkBody? t = some (label, target) := linkBody?_eq_some_iff_beginsLink.2 ⟨after, h⟩

theorem BeginsLink.take_eq (h : BeginsLink t label target after) :
    t.take (linkBodyWidth label target) = linkTail label target := by
  rw [h.eq, ← length_linkTail, List.take_left]

theorem linkBody?_eq_none (h : ∀ label target after, ¬ BeginsLink t label target after) :
    linkBody? t = none := by
  rw [Option.eq_none_iff_forall_ne_some]
  rintro ⟨label, target⟩ hb
  obtain ⟨after, hlink⟩ := linkBody?_eq_some_iff_beginsLink.1 hb
  exact h label target after hlink

/-- **A link is found by its grammar**, and so is its length. -/
theorem linkSpan?_eq_some_iff {n : Nat} : linkSpan? t = some (label, target, n) ↔
    (∃ after, BeginsLink t label target after) ∧ n = utf8Length (linkTail label target) := by
  rw [linkSpan?, Option.map_eq_some_iff]
  constructor
  · rintro ⟨⟨l, tg⟩, hb, he⟩
    simp only [Prod.mk.injEq] at he
    obtain ⟨rfl, rfl, rfl⟩ := he
    obtain ⟨after, h⟩ := linkBody?_eq_some_iff_beginsLink.1 hb
    exact ⟨⟨after, h⟩, by rw [h.take_eq]⟩
  · rintro ⟨⟨after, h⟩, rfl⟩
    exact ⟨(label, target), h.linkBody?, by rw [h.take_eq]⟩

end Markdown

/-! ## Brackets in running text -/

namespace State

/-- Outside of fenced blocks a bracket opens, alone or after an exclamation mark. -/
structure AtBracket (s : State) (lead t : Text) : Prop where
  inFence : s.inFence = false
  opening : lead = [] ∨ lead = ['!']
  rest : s.input.rest = lead ++ '[' :: t

variable {s : State} {lead t label target after : Text}

/-- No item of a list begins with a bracket or an exclamation mark. -/
theorem item?_of_bracket {c : Char} (hc : c = '[' ∨ c = '!') (hr : s.input.rest = c :: t) :
    s.item? = none := by
  have hb : (if s.lists.isEmpty then [] else s.input.rest.takeWhile isIndent) = [] := by
    rw [hr]
    rcases hc with rfl | rfl <;> split <;> rfl
  rw [item?_eq hb, hr]
  rcases hc with rfl | rfl <;> rfl

theorem blockRule?_of_bracket {c : Char} (hc : c = '[' ∨ c = '!') (hr : s.input.rest = c :: t) :
    s.blockRule? = none := by
  have hne {d : Char} (hb : d ≠ '[') (he : d ≠ '!') : c ≠ d := by
    rcases hc with rfl | rfl
    · exact hb.symm
    · exact he.symm
  rw [blockRule?_eq_item? hr (hne (by decide) (by decide)) (hne (by decide) (by decide))
    (hne (by decide) (by decide)), item?_of_bracket hc hr]

theorem AtBracket.midLine (h : s.AtBracket lead t) : s.midLine.AtBracket lead t :=
  ⟨h.inFence, h.opening, h.rest⟩

/-- **At a bracket** reading looks for a link, also where a line begins. -/
theorem AtBracket.step (h : s.AtBracket lead t) :
    s.step = .ok (s.midLine.bracket lead.length) := by
  have hmid := h.midLine.rest
  rcases h.opening with rfl | rfl
  · rw [step_eq_textRule h.rest (by decide) h.inFence fun _ =>
      blockRule?_of_bracket (.inl rfl) hmid, textRule, hmid]
    rfl
  · rw [step_eq_textRule h.rest (by decide) h.inFence fun _ =>
      blockRule?_of_bracket (.inr rfl) hmid, textRule, hmid]
    rfl

theorem AtBracket.drop_rest (h : s.AtBracket lead t) :
    s.input.rest.drop (lead.length + 1) = t := by
  rw [h.rest, ← List.drop_drop, List.drop_left]
  rfl

/-- Where a link follows, it is raised after the text that waits. -/
theorem AtBracket.bracket_of_link (h : s.AtBracket lead t) (hl : BeginsLink t label target after) :
    s.bracket lead.length =
      { s with
        input := s.input.advance (lead ++ '[' :: linkTail label target).length }.release.andThen
        (announce [linkEvent label target]) := by
  have hlength : (lead ++ '[' :: linkTail label target).length =
      lead.length + 1 + linkBodyWidth label target := by
    rw [List.length_append, List.length_cons, length_linkTail]
    omega
  rw [bracket, h.drop_rest, hl.linkBody?, hlength]

/-- Where none follows, the first character is text. -/
theorem AtBracket.bracket_of_none (h : s.AtBracket lead t)
    (hn : ∀ label target after, ¬ BeginsLink t label target after) :
    s.bracket lead.length =
      .silent { s.push ((s.input.rest.take 1).map .char) with input := s.input.advance 1 } := by
  rw [bracket, h.drop_rest, linkBody?_eq_none hn]

theorem warnings_release (s : State) : s.release.warnings = [] := by
  unfold release
  split <;> rfl

/-- What a release and an event after it raise, when both find the same lists open. -/
theorem events_release_announce (k : Markup) (s : State) (e : Event) :
    Raised.events k (s.release.andThen (announce [e])).raised =
      Raised.events k [⟨.text s.buffer.all, s.lists⟩] ++ [⟨e, s.lists⟩] := by
  rw [Move.raised_andThen, Raised.events_append, Raised.events_release, Raised.events_announce,
    next_release]
  rfl

end State

/-- **Links are found by their grammar, and read so.**  At a bracket in running text, alone or after
an exclamation mark, a link that follows is passed over as a whole; the text that waits is raised,
and then the one event of the link.  Where none follows nothing is raised, and the first character
waits with the text. -/
theorem links_are_recognised :
    (∀ (t label target : Text) (n : Nat), linkSpan? t = some (label, target, n) ↔
      (∃ after, BeginsLink t label target after) ∧ n = utf8Length (linkTail label target)) ∧
    ∀ (s : State) (lead t : Text), s.AtBracket lead t →
      (∀ label target after, BeginsLink t label target after → ∃ m, s.step = .ok m ∧
        m.next = { s with
          input := s.input.advance (lead ++ '[' :: linkTail label target).length,
          buffer := .empty, freshLine := false } ∧
        m.next.input.rest = after ∧
        m.next.input.offset = s.input.offset + utf8Length (lead ++ '[' :: linkTail label target) ∧
        m.warnings = [] ∧
        ∀ k, Raised.events k m.raised = Raised.events k [⟨.text s.buffer.all, s.lists⟩] ++
          [⟨if target = "man".toList then .manPage label else .link ⟨label, target⟩, s.lists⟩]) ∧
      ((∀ label target after, ¬ BeginsLink t label target after) →
        ∀ c u, s.input.rest = c :: u → ∃ m, s.step = .ok m ∧ m.raised = [] ∧ m.warnings = [] ∧
          m.next = { s with
            input := s.input.advance 1, buffer := s.buffer.push [.char c],
            freshLine := false }) := by
  refine ⟨fun t label target n => linkSpan?_eq_some_iff, fun s lead t h => ⟨?_, ?_⟩⟩
  · intro label target after hl
    have hmid := h.midLine
    have hspan : s.input.rest = lead ++ '[' :: linkTail label target ++ after := by
      rw [h.rest, hl.eq]
      simp
    have hnext : (s.midLine.bracket lead.length).next = { s with
        input := s.input.advance (lead ++ '[' :: linkTail label target).length,
        buffer := .empty, freshLine := false } := by
      rw [hmid.bracket_of_link hl, Move.next_andThen, State.next_announce, State.next_release]
      rfl
    refine ⟨_, h.step, hnext, ?_, ?_, ?_, fun k => ?_⟩
    · rw [hnext, Zipper.rest_advance, hspan, List.drop_left]
    · rw [hnext, Zipper.offset_advance, hspan, List.take_left]
    · rw [hmid.bracket_of_link hl, Move.warnings_andThen, State.warnings_release]
      rfl
    · rw [hmid.bracket_of_link hl, State.events_release_announce]
      rfl
  · intro hn c u hr
    have hmid := h.midLine
    refine ⟨_, h.step, ?_⟩
    rw [hmid.bracket_of_none hn, show s.midLine.input.rest = _ from hr]
    exact ⟨rfl, rfl, rfl⟩

/-- An image of a man page after a word, and a bracket that opens nothing after it. -/
theorem links_are_recognised_image :
    let z := Zipper.start "x![é a](man)[y]".toList
    ∃ m n : Move, Reads (.initial z) m ∧
      m.next.AtBracket ['!'] "é a](man)[y]".toList ∧
      BeginsLink "é a](man)[y]".toList "é a".toList "man".toList "[y]".toList ∧
      linkSpan? "é a](man)[y]".toList = some ("é a".toList, "man".toList, 10) ∧
      m.next.step = .ok n ∧ n.next.input.offset = m.next.input.offset + 12 ∧
      (∀ k, Raised.events k n.raised = Raised.events k [⟨.text [.char 'x'], .empty⟩] ++
        [⟨.manPage "é a".toList, .empty⟩]) ∧
      n.next.AtBracket [] "y]".toList ∧
      (∀ label target after, ¬ BeginsLink "y]".toList label target after) ∧
      ∃ r, n.next.step = .ok r ∧ r.raised = [] ∧ r.next.buffer = Buffer.empty.push [.char '['] := by
  intro z
  let m := ((State.initial z).firstSteps 1).get (by decide +kernel)
  have hm : Reads (.initial z) m := State.reads_of_firstSteps (Option.some_get _).symm
  have hat : m.next.AtBracket ['!'] "é a](man)[y]".toList :=
    ⟨by decide +kernel, .inr rfl, by decide +kernel⟩
  have hlink : BeginsLink "é a](man)[y]".toList "é a".toList "man".toList "[y]".toList :=
    ⟨by decide, by decide, by decide⟩
  obtain ⟨hgrammar, hread⟩ := links_are_recognised
  obtain ⟨n, hn, hnext, hrest, hoffset, -, hevents⟩ :=
    (hread m.next _ _ hat).1 _ _ _ hlink
  have hfence : n.next.inFence = false := by
    rw [hnext]
    exact hat.inFence
  have hat' : n.next.AtBracket [] "y]".toList := ⟨hfence, .inl rfl, hrest⟩
  have hnone : ∀ label target after, ¬ BeginsLink "y]".toList label target after := by
    intro label target after h
    have hbody := h.linkBody?
    cases hbody
  obtain ⟨r, hr, hraised, -, hlast⟩ := (hread n.next _ _ hat').2 hnone '[' "y]".toList hrest
  refine ⟨m, n, hm, hat, hlink, (hgrammar _ _ _ _).2 ⟨⟨_, hlink⟩, by decide⟩, hn, hoffset, ?_, hat',
    hnone, r, hr, hraised, ?_⟩
  · exact hevents
  · rw [hlast, hnext]

end Roffdown
