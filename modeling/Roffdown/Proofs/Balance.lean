import Roffdown.Proofs.Nesting
import Roffdown.Proofs.Requests

/-!
# Balanced requests

What is opened in a converted document is closed again, and nothing is closed that was not opened
last.  A macro package sees only one event at a time, so this rests on the events being well nested,
and on the lists that go with each event being those that are open there.

* `Roff.Role`, `Dialect.role`: what a line does to what is open.
* `Dialect.OpensNth`: the lines that open a list as the n-th that is open.
* `Dialect.Nests`: lines that nest, told by the lines that are pending to close what is open.
* `Burst.nests`, `Path.nests`: the lines for events that are raised at once, and one after the
  other.
* `requests_are_balanced`: the lines of a converted document.
-/

namespace Roffdown

open Roff Text

/-! ## What a line does -/

/-- What a line of roff does to what is open. -/
inductive Roff.Role
  /-- Opens what the other line closes. -/
  | opening (closing : Text)
  /-- Closes what was opened last. -/
  | closing
  /-- Stands in what the other line closes, when that was opened last. -/
  | inside (closing : Text)
  | other
deriving DecidableEq, Repr

namespace Dialect

/-- The requests that open something, with the lines that close it. -/
def brackets : Dialect → List (Text × Text)
  | .man =>
    [(".RS".toList, ".RE".toList), (".EX".toList, ".EE".toList), (".UR".toList, ".UE".toList),
      (".MT".toList, ".ME".toList)]
  | .mdoc => [(".Bl".toList, ".El".toList), (".Bd".toList, ".Ed".toList)]
  | .mm =>
    [(".LI".toList, ".LE".toList), (".RS".toList, ".RE".toList), (".EX".toList, ".EE".toList)]
  | .mom => [(".LIST".toList, ".LIST OFF".toList), (".CODE".toList, ".CODE OFF".toList)]

/-- The requests that stand in something only, with the lines that close it. -/
def parts : Dialect → List (Text × Text)
  | .mdoc => [(".It".toList, ".El".toList)]
  | .mom => [(".ITEM".toList, ".LIST OFF".toList)]
  | .man | .mm => []

/-- What a line does to what is open. -/
def role (d : Dialect) (line : Text) : Role :=
  if (d.brackets.map Prod.snd).contains line then .closing
  else ((d.brackets.lookup (firstWord line)).map Role.opening).getD
    (((d.parts.lookup (firstWord line)).map Role.inside).getD .other)

/-- The lines that open a list as the `n`-th that is open. -/
inductive OpensNth : Dialect → Nat → Text → Prop
  | mdocNumbers (n : Nat) : OpensNth .mdoc n ".Bl -enum -offset indent".toList
  | mdocBullets {n : Nat} (hn : n % 2 = 1) : OpensNth .mdoc n ".Bl -bullet -offset indent".toList
  | mdocDashes {n : Nat} (hn : n % 2 = 0) : OpensNth .mdoc n ".Bl -dash -offset indent".toList
  | momCapitals : OpensNth .mom 2 ".LIST ALPHA".toList
  | momLetters : OpensNth .mom 4 ".LIST alpha".toList
  | momDigits {n : Nat} (h2 : n ≠ 2) (h4 : n ≠ 4) : OpensNth .mom n ".LIST DIGIT".toList
  | momBullets {n : Nat} (hn : n % 2 = 1) : OpensNth .mom n ".LIST BULLET".toList
  | momDashes {n : Nat} (hn : n % 2 = 0) : OpensNth .mom n ".LIST DASH".toList

/-- The line that closes a list, where the line that opens it shows a style. -/
def styledEnd? : Dialect → Option Text
  | .mdoc => some ".El".toList
  | .mom => some ".LIST OFF".toList
  | .man | .mm => none

/-- Lines that nest.  The lines that are pending to close what is open, innermost first, are given
before and after them; a list is opened in the style for the number of lists around it. -/
inductive Nests (d : Dialect) : List Text → List Text → List Text → Prop
  | nil (pending : List Text) : Nests d pending [] pending
  | opening {closing line : Text} {pending lines left : List Text}
      (h : d.role line = .opening closing)
      (hstyle : d.styledEnd? = some closing → d.OpensNth (pending.count closing + 1) line)
      (hs : Nests d (closing :: pending) lines left) : Nests d pending (line :: lines) left
  | closing {line : Text} {pending lines left : List Text} (h : d.role line = .closing)
      (hs : Nests d pending lines left) : Nests d (line :: pending) (line :: lines) left
  | inside {closing line : Text} {pending lines left : List Text}
      (h : d.role line = .inside closing) (hs : Nests d (closing :: pending) lines left) :
      Nests d (closing :: pending) (line :: lines) left
  | other {line : Text} {pending lines left : List Text} (h : d.role line = .other)
      (hs : Nests d pending lines left) : Nests d pending (line :: lines) left

namespace Nests

variable {d : Dialect} {p q r a b : List Text} {c line : Text}

theorem append (h : d.Nests p a q) (g : d.Nests q b r) : d.Nests p (a ++ b) r := by
  induction h with
  | nil => exact g
  | opening h hstyle _ ih => exact .opening h hstyle (ih g)
  | closing h _ ih => exact .closing h (ih g)
  | inside h _ ih => exact .inside h (ih g)
  | other h _ ih => exact .other h (ih g)

theorem exists_of_append (h : d.Nests p (a ++ b) r) : ∃ q, d.Nests p a q ∧ d.Nests q b r := by
  induction a generalizing p with
  | nil => exact ⟨p, .nil p, h⟩
  | cons line a ih =>
    cases h with
    | opening h hstyle hs =>
      obtain ⟨q, hq, hr⟩ := ih hs
      exact ⟨q, .opening h hstyle hq, hr⟩
    | closing h hs =>
      obtain ⟨q, hq, hr⟩ := ih hs
      exact ⟨q, .closing h hq, hr⟩
    | inside h hs =>
      obtain ⟨q, hq, hr⟩ := ih hs
      exact ⟨q, .inside h hq, hr⟩
    | other h hs =>
      obtain ⟨q, hq, hr⟩ := ih hs
      exact ⟨q, .other h hq, hr⟩

theorem of_other (h : ∀ line ∈ a, d.role line = .other) : d.Nests p a p := by
  induction a with
  | nil => exact .nil p
  | cons line a ih =>
    obtain ⟨hline, ha⟩ := List.forall_mem_cons.1 h
    exact .other hline (ih ha)

/-- Of each kind, what is pending is what was opened and not closed. -/
theorem countP_add_count (h : d.Nests p a q) (hc : d.role c = .closing) :
    a.countP (fun line => d.role line = .opening c) + p.count c = a.count c + q.count c := by
  have hne : ∀ {line : Text} {role : Role}, d.role line = role → role ≠ .closing → line ≠ c := by
    rintro line role rfl hrole rfl
    exact hrole hc
  induction h with
  | nil => rfl
  | @opening closing line pending lines left h hstyle hs ih =>
    have hline := hne h (by simp)
    rw [List.count_cons_of_ne hline]
    by_cases he : closing = c
    · subst he
      rw [List.countP_cons_of_pos (by simp [h])]
      rw [List.count_cons_self] at ih
      omega
    · rw [List.countP_cons_of_neg (by simp [h, he])]
      rw [List.count_cons_of_ne he] at ih
      omega
  | @closing line pending lines left h hs ih =>
    rw [List.countP_cons_of_neg (by simp [h]), List.count_cons, List.count_cons]
    omega
  | @inside closing line pending lines left h hs ih =>
    have hline := hne h (by simp)
    rw [List.count_cons_of_ne hline, List.countP_cons_of_neg (by simp [h])]
    exact ih
  | @other line pending lines left h hs ih =>
    have hline := hne h (by simp)
    rw [List.count_cons_of_ne hline, List.countP_cons_of_neg (by simp [h])]
    exact ih

/-- A list is opened in the style for the number of lists that are opened before and not closed. -/
theorem opensNth (h : d.Nests [] (a ++ line :: b) q) (hline : d.role line = .opening c)
    (hc : d.styledEnd? = some c) : d.OpensNth
      (a.countP (fun line => d.role line = .opening c) - a.count c + 1) line := by
  obtain ⟨r, ha, hb⟩ := h.exists_of_append
  have hclosing : d.role c = .closing := by
    cases d <;> cases hc <;> decide
  have hcount := ha.countP_add_count hclosing
  rw [List.count_nil] at hcount
  have hr : a.countP (fun line => d.role line = .opening c) - a.count c = r.count c := by omega
  rw [hr]
  cases hb with
  | opening h hstyle =>
    obtain rfl : _ = c := Role.opening.inj (h.symm.trans hline)
    exact hstyle hc
  | closing h => exact absurd (h.symm.trans hline) (by simp)
  | inside h => exact absurd (h.symm.trans hline) (by simp)
  | other h => exact absurd (h.symm.trans hline) (by simp)

end Nests

/-! ## Lines that open and close nothing -/

/-- The words that the lines which open, close or stand in something begin with. -/
def nestingWords (d : Dialect) : List Text :=
  d.brackets.map Prod.fst ++ d.brackets.map (fun b => firstWord b.2) ++ d.parts.map Prod.fst

section

variable {d : Dialect} {line : Text}

theorem isRequest_of_firstWord (h : isRequest (firstWord line)) : isRequest line := by
  cases line with
  | nil => exact h
  | cons c line =>
    by_cases hc : c = ' '
    · subst hc
      cases h
    · rw [firstWord, List.takeWhile_cons_of_pos (by simpa using hc)] at h
      exact h

theorem isRequest_of_mem_nestingWords {word : Text} (h : word ∈ d.nestingWords) :
    isRequest word := by
  revert word
  cases d <;> decide

theorem lookup_of_not_mem {table : List (Text × Text)} {word : Text}
    (h : word ∉ table.map Prod.fst) : table.lookup word = none := by
  rw [List.lookup_eq_none_iff]
  intro b hb
  rw [bne_iff_ne]
  rintro rfl
  exact h (List.mem_map_of_mem hb)

theorem role_of_not_mem (h : firstWord line ∉ d.nestingWords) : d.role line = .other := by
  simp only [nestingWords, List.mem_append, not_or] at h
  obtain ⟨⟨hopening, hclosing⟩, hpart⟩ := h
  have hline : line ∉ d.brackets.map Prod.snd := by
    intro hmem
    obtain ⟨b, hb, rfl⟩ := List.mem_map.1 hmem
    exact hclosing (List.mem_map_of_mem hb)
  rw [role, if_neg (mt List.contains_iff_mem.1 hline), lookup_of_not_mem hopening,
    lookup_of_not_mem hpart]
  rfl

theorem role_of_not_isRequest (h : isRequest line = false) : d.role line = .other := by
  apply role_of_not_mem
  intro hmem
  rw [isRequest_of_firstWord (isRequest_of_mem_nestingWords hmem)] at h
  cases h

/-- Lines nest among whose requests none opens, closes or stands in something. -/
theorem role_of_requestNames {lines : List Text}
    (h : ∀ name ∈ requestNames lines, name ∉ d.nestingWords) :
    ∀ line ∈ lines, d.role line = .other := by
  intro line hline
  by_cases hr : isRequest line
  · apply role_of_not_mem
    exact h _ (List.mem_map_of_mem (List.mem_filter.2 ⟨hline, hr⟩))
  · exact role_of_not_isRequest (Bool.eq_false_iff.2 hr)

end

/-! ## Events that stand alone -/

section

variable (d : Dialect) (lists : OpenLists) (pending : List Text)

/-- The requests for an event are those for another that differs in what it says. -/
theorem requestNames_of_sameKind {e b : Event} (h : e.SameKind b)
    (hf : ∀ line, e ≠ .fenceLine line) :
    requestNames (d.package.lines b lists) = requestNames (d.package.lines e lists) := by
  obtain ⟨names, -, hnames⟩ := d.exists_requestNames lists hf
  rw [hnames b h, hnames e (.refl e)]

/-- Only the lines of lists and items depend on the lists that are open. -/
theorem lines_of_not_isOfList {e : Event} (h : e.isOfList = false) :
    d.package.lines e lists = d.package.lines e .empty := by
  cases e with
  | heading rank title => cases d <;> cases rank <;> rfl
  | _ => first | (cases h; done) | (cases d <;> rfl)

theorem nests_of_sameKind {e b : Event} (h : e.SameKind b) (hf : ∀ line, e ≠ .fenceLine line)
    (hl : e.isOfList = false)
    (he : ∀ name ∈ requestNames (d.package.lines e .empty), name ∉ d.nestingWords) :
    d.Nests pending (d.package.lines b lists) pending := by
  apply Nests.of_other
  apply role_of_requestNames
  rw [requestNames_of_sameKind d lists h hf, lines_of_not_isOfList d lists hl]
  exact he

theorem nests_text (t : Text) :
    d.Nests pending (d.package.lines (.text t) lists) pending := by
  apply nests_of_sameKind d lists pending (.text [] t) (by simp) rfl
  cases d <;> decide

theorem nests_heading (rank : SectionRank) (title : Text) :
    d.Nests pending (d.package.lines (.heading rank title) lists) pending := by
  apply nests_of_sameKind d lists pending (.heading rank [] title) (by simp) rfl
  cases d <;> cases rank <;> decide

theorem nests_manPage (page : Text) :
    d.Nests pending (d.package.lines (.manPage page) lists) pending := by
  apply nests_of_sameKind d lists pending (.manPage [] page) (by simp) rfl
  cases d <;> decide

theorem nests_fixed {e : Event} (h : e ∈ [.paragraphEnd, .lineBreak, .boxOpen, .boxClose]) :
    d.Nests pending (d.package.lines e lists) pending := by
  apply nests_of_sameKind d lists pending (.refl e)
  · rintro line rfl
    simp at h
  · revert e
    decide
  · revert e
    cases d <;> decide

/-- A link with a macro of its own is opened and closed at once. -/
theorem nests_bracketed {name closing arguments title : Text}
    (hopening : d.role (requestLine name arguments) = .opening closing)
    (hclosing : d.role closing = .closing) (hstyle : d.styledEnd? = none) :
    d.Nests pending [requestLine name arguments, textLine title, closing] pending := by
  refine .opening hopening ?_ (.other ?_ (.closing hclosing (.nil pending)))
  · intro h
    rw [hstyle] at h
    cases h
  · exact role_of_not_isRequest (isRequest_textLine title)

theorem role_requestLine {name closing : Text} (hs : ' ' ∉ name)
    (hc : d.brackets.lookup name = some closing)
    (hne : name ∉ (d.brackets.map Prod.snd).map firstWord) (arguments : Text) :
    d.role (requestLine name arguments) = .opening closing := by
  have hword := firstWord_requestLine hs arguments
  have hline : requestLine name arguments ∉ d.brackets.map Prod.snd := by
    intro h
    exact hne (hword ▸ List.mem_map_of_mem h)
  rw [role, if_neg (mt List.contains_iff_mem.1 hline), hword, hc]
  rfl

theorem nests_link (l : Link) : d.Nests pending (d.package.lines (.link l) lists) pending := by
  cases hd : decide (d = .man) with
  | true =>
    obtain rfl := of_decide_eq_true hd
    show Nests .man pending (if l.isMail then _ else _) pending
    split
    · exact nests_bracketed .man pending (role_requestLine .man (by decide) rfl (by decide) _)
        (by decide) rfl
    · exact nests_bracketed .man pending (role_requestLine .man (by decide) rfl (by decide) _)
        (by decide) rfl
  | false =>
    cases hm : l.isMail with
    | true =>
      apply nests_of_sameKind d lists pending (e := .link ⟨[], ['@']⟩) (.link hm.symm) (by simp) rfl
      cases d <;> first | (cases hd; done) | decide
    | false =>
      apply nests_of_sameKind d lists pending (e := .link ⟨[], []⟩) (.link hm.symm) (by simp) rfl
      cases d <;> first | (cases hd; done) | decide

/-- The events that stand alone have lines that close what they open. -/
theorem nests_isPlain {e : Event} (h : e.isPlain) :
    d.Nests pending (d.package.lines e lists) pending := by
  cases e with
  | paragraphEnd => exact nests_fixed d lists pending (by decide)
  | text t => exact nests_text d lists pending t
  | heading rank title => exact nests_heading d lists pending rank title
  | manPage page => exact nests_manPage d lists pending page
  | link l => exact nests_link d lists pending l
  | _ => cases h

/-- So have the events of a box. -/
theorem nests_of_mem_box {title : Option Text} {e : Event} (h : e ∈ Event.box title) :
    d.Nests pending (d.package.lines e lists) pending := by
  simp only [Event.box, List.mem_append, List.mem_cons, List.not_mem_nil, or_false,
    Option.mem_toList, Option.map_eq_some_iff] at h
  rcases h with ((rfl | rfl) | ⟨t, -, rfl⟩) | rfl | rfl
  · exact nests_fixed d lists pending (by decide)
  · exact nests_fixed d lists pending (by decide)
  · exact nests_text d lists pending t
  · exact nests_fixed d lists pending (by decide)
  · exact nests_fixed d lists pending (by decide)

end

/-! ## Fenced blocks and lists -/

/-- The lines that close a fenced block, innermost first. -/
def fenceEnds : Dialect → List Text
  | .man | .mm => [".EE".toList, ".RE".toList]
  | .mdoc => [".Ed".toList]
  | .mom => [".CODE OFF".toList]

/-- The lines that close a list and its item. -/
def listEnds : Dialect → List Text
  | .man => []
  | .mdoc => [".El".toList]
  | .mm => [".LE".toList]
  | .mom => [".LIST OFF".toList]

/-- The lines that are pending at a place. -/
def pendingAt (d : Dialect) (a : Place) : List Text :=
  (if a.inFence then d.fenceEnds else []) ++ (List.replicate a.lists.depth d.listEnds).flatten

section

variable (d : Dialect) (lists : OpenLists) (pending : List Text)

theorem nests_fenceOpen :
    d.Nests pending (d.package.lines .fenceOpen lists) (d.fenceEnds ++ pending) := by
  cases d with
  | man => exact .opening (by decide) nofun (.opening (by decide) nofun (.nil _))
  | mdoc => exact .opening (by decide) (fun h => absurd h (by decide)) (.nil _)
  | mm => exact .opening (by decide) nofun (.opening (by decide) nofun (.nil _))
  | mom => exact .opening (by decide) (fun h => absurd h (by decide)) (.nil _)

theorem nests_fenceClose :
    d.Nests (d.fenceEnds ++ pending) (d.package.lines .fenceClose lists) pending := by
  cases d with
  | man => exact .closing (by decide) (.closing (by decide) (.nil _))
  | mdoc => exact .closing (by decide) (.nil _)
  | mm => exact .closing (by decide) (.closing (by decide) (.nil _))
  | mom => exact .closing (by decide) (.nil _)

theorem nests_manItem : Dialect.man.Nests pending (MacroPackage.manItem lists) pending := by
  apply Nests.of_other
  apply role_of_requestNames
  unfold MacroPackage.manItem
  split
  · exact List.forall_mem_nil _
  · decide
  · rw [List.append_assoc, requestNames_append_cons [] (by decide) (by decide)]
    decide

theorem opensNth_mdoc (style : ListStyle) (n : Nat) : OpensNth .mdoc n
    (".Bl -".toList ++ MacroPackage.mdocListType style n ++ " -offset indent".toList) := by
  cases style with
  | numbered => exact .mdocNumbers n
  | bulleted =>
    by_cases hn : n % 2 = 1
    · rw [MacroPackage.mdocListType, if_pos hn]
      exact .mdocBullets hn
    · rw [MacroPackage.mdocListType, if_neg hn]
      exact .mdocDashes (by omega)

theorem opensNth_mom (style : ListStyle) (n : Nat) :
    OpensNth .mom n (".LIST ".toList ++ MacroPackage.momEnumerator style n) := by
  cases style with
  | numbered =>
    by_cases h2 : n = 2
    · subst h2
      exact .momCapitals
    by_cases h4 : n = 4
    · subst h4
      exact .momLetters
    rw [MacroPackage.momEnumerator, if_neg h2, if_neg h4]
    exact .momDigits h2 h4
  | bulleted =>
    by_cases hn : n % 2 = 1
    · rw [MacroPackage.momEnumerator, if_pos hn]
      exact .momBullets hn
    · rw [MacroPackage.momEnumerator, if_neg hn]
      exact .momDashes (by omega)

theorem OpensNth.role_eq {d : Dialect} {n : Nat} {line closing : Text} (h : d.OpensNth n line)
    (hc : d.styledEnd? = some closing) : d.role line = .opening closing := by
  cases h <;> cases hc <;> decide

/-- The first item of a list, with the line that opens the list before it. -/
theorem nests_listOpen (style : ListStyle)
    (hcount : ∀ closing, d.styledEnd? = some closing → pending.count closing + 1 = lists.depth) :
    d.Nests pending (d.package.lines (.listOpen style) lists ++ d.package.lines .itemOpen lists)
      (d.listEnds ++ pending) := by
  cases d with
  | man => exact nests_manItem lists pending
  | mdoc =>
    have hopens := opensNth_mdoc style lists.depth
    refine .opening (hopens.role_eq rfl) (fun h => ?_) (.inside (by decide) (.nil _))
    rw [hcount _ h]
    exact hopens
  | mm => cases style <;> exact .other (by decide) (.opening (by decide) nofun (.nil _))
  | mom =>
    have hopens := opensNth_mom style lists.depth
    refine .opening (hopens.role_eq rfl) (fun h => ?_) (.inside (by decide) (.nil _))
    rw [hcount _ h]
    exact hopens

theorem nests_nextItem (next : OpenLists) : d.Nests (d.listEnds ++ pending)
    (d.package.lines .itemClose lists ++ d.package.lines .itemOpen next)
      (d.listEnds ++ pending) := by
  cases d with
  | man => exact nests_manItem next pending
  | mdoc => exact .inside (by decide) (.nil _)
  | mm => exact .closing (by decide) (.opening (by decide) nofun (.nil _))
  | mom => exact .inside (by decide) (.nil _)

theorem nests_listClose : d.Nests (d.listEnds ++ pending)
    (d.package.lines .itemClose lists ++ d.package.lines .listClose lists) pending := by
  cases d with
  | man => exact .nil pending
  | mdoc => exact .closing (by decide) (.nil _)
  | mm => exact .closing (by decide) (.nil _)
  | mom => exact .closing (by decide) (.nil _)

/-- Outside of fenced blocks, a list is pending for each that is open. -/
theorem count_pendingAt {closing : Text} (hc : d.styledEnd? = some closing) :
    (d.pendingAt ⟨lists, false⟩).count closing = lists.depth := by
  have hends : d.listEnds = [closing] := by
    cases d <;> cases hc <;> rfl
  show ((List.replicate lists.depth d.listEnds).flatten).count closing = _
  rw [hends, List.flatten_replicate_singleton, List.count_replicate_self]

end

end Dialect

/-! ## Events one after the other -/

/-- Whether an event is a line of a fenced block. -/
def Event.isFenceLine : Event → Bool
  | .fenceLine _ => true
  | _ => false

/-- The lines for events, but for the lines of fenced blocks. -/
def MacroPackage.framing (p : MacroPackage) (events : List (Raised Event)) : List Text :=
  (events.filter fun r => !r.item.isFenceLine).flatMap fun r => p.lines r.item r.lists

namespace MacroPackage

variable (p : MacroPackage)

@[simp] theorem framing_append (es fs : List (Raised Event)) :
    p.framing (es ++ fs) = p.framing es ++ p.framing fs := by
  simp [framing]

theorem framing_cons {r : Raised Event} (h : r.item.isFenceLine = false)
    (es : List (Raised Event)) :
    p.framing (r :: es) = p.lines r.item r.lists ++ p.framing es := by
  simp [framing, h]

theorem framing_cons_of_isFenceLine {r : Raised Event} (h : r.item.isFenceLine = true)
    (es : List (Raised Event)) : p.framing (r :: es) = p.framing es := by
  simp [framing, h]

theorem framing_pair {r s : Raised Event} (hr : r.item.isFenceLine = false)
    (hs : s.item.isFenceLine = false) :
    p.framing [r, s] = p.lines r.item r.lists ++ p.lines s.item s.lists := by
  simp [framing, hr, hs]

end MacroPackage

theorem Dialect.nests_framing (d : Dialect) {pending : List Text} {es : List (Raised Event)}
    (h : ∀ r ∈ es, d.Nests pending (d.package.lines r.item r.lists) pending) :
    d.Nests pending (d.package.framing es) pending := by
  induction es with
  | nil => exact .nil pending
  | cons r es ih =>
    obtain ⟨hr, hes⟩ := List.forall_mem_cons.1 h
    cases hf : r.item.isFenceLine with
    | true =>
      rw [MacroPackage.framing_cons_of_isFenceLine _ hf]
      exact ih hes
    | false =>
      rw [MacroPackage.framing_cons _ hf]
      exact hr.append (ih hes)

theorem OpenLists.depth_eq_closed_succ {s : OpenLists} (h : s.lists ≠ []) :
    s.depth = s.closed.depth + 1 := by
  have hpos := List.length_pos_iff.2 h
  simp only [depth, lists_closed, List.length_tail]
  omega

/-- The lines for events that are raised at once nest. -/
theorem Burst.nests {a b : Place} {es : List (Raised Event)} (h : Burst a es b) (d : Dialect) :
    d.Nests (d.pendingAt a) (d.package.framing es) (d.pendingAt b) := by
  have hdepth : ∀ {s t : OpenLists}, t.depth = s.depth + 1 →
      d.pendingAt ⟨t, false⟩ = d.listEnds ++ d.pendingAt ⟨s, false⟩ := by
    intro s t ht
    show (List.replicate t.depth _).flatten = _ ++ (List.replicate s.depth _).flatten
    rw [ht, List.replicate_succ, List.flatten_cons]
  cases h with
  | @plain s e he =>
    apply d.nests_framing
    intro r hr
    obtain rfl := List.mem_singleton.1 hr
    exact d.nests_isPlain s _ he
  | box s title =>
    apply d.nests_framing
    intro r hr
    obtain ⟨e, he, rfl⟩ := List.mem_map.1 hr
    exact d.nests_of_mem_box s _ he
  | fenceOpen s =>
    rw [MacroPackage.framing_cons _ rfl]
    exact (d.nests_fenceOpen s _).append (.nil _)
  | fenceLine s line => exact .nil _
  | fenceClose s =>
    rw [MacroPackage.framing_cons _ rfl]
    exact (d.nests_fenceClose s _).append (.nil _)
  | @listOpen l s t h =>
    have ht : t.depth = s.depth + 1 := by
      rw [OpenLists.depth, OpenLists.opened?_eq_some_iff.1 h]
      rfl
    rw [MacroPackage.framing_pair _ rfl rfl, hdepth ht]
    apply d.nests_listOpen
    intro closing hc
    rw [d.count_pendingAt s hc, ht]
  | @nextItem s h =>
    have hs := OpenLists.depth_eq_closed_succ h
    have ht : s.countItem.depth = s.closed.depth + 1 := by
      rw [← hs, OpenLists.depth, OpenLists.lists_countItem, List.length_modifyHead]
      rfl
    rw [MacroPackage.framing_pair _ rfl rfl, hdepth hs, hdepth ht]
    exact d.nests_nextItem s _ s.countItem
  | @listClose s h =>
    have hs := OpenLists.depth_eq_closed_succ h
    rw [MacroPackage.framing_pair _ rfl rfl, hdepth hs]
    exact d.nests_listClose s _

/-- **The lines for events one after the other nest**, whatever they say. -/
theorem Path.nests {a b : Place} {es : List (Raised Event)} (h : Path a es b) (d : Dialect) :
    d.Nests (d.pendingAt a) (d.package.framing es) (d.pendingAt b) := by
  induction h with
  | nil a => exact .nil _
  | cons h _ ih =>
    rw [MacroPackage.framing_append]
    exact (h.nests d).append ih

theorem Zipper.path_of_success (mk : Markup) {z : Zipper} (h : z.trace.failure? = none) :
    Path ⟨.empty, false⟩ (z.trace.events mk) ⟨.empty, false⟩ := by
  obtain ⟨m, hm, -, ht⟩ := z.exists_reads_of_success h
  have hb : m.next.FenceIsBare := hm.fenceIsBare (State.fenceIsBare_of_not rfl)
  rw [Trace.events, ht, Raised.events_append]
  exact (State.path_of_reads mk hm).append (State.path_wrapUp hb)

/-! ## Documents -/

/-- The place below what is taken for the header. -/
def Document.body (p : MacroPackage) (d : Document) : Zipper :=
  if p.usesTitleLine then d.takeTitle.2 else .start d.source

theorem Document.lines_of_toRoff {d : Dialect} {fields : HeaderFields} {date : Date}
    {doc : Document} {lines : List Text} (h : (doc.toRoff d fields date).result = .ok lines) :
    (doc.body d.package).trace.failure? = none ∧ ∃ facts,
      lines = d.package.openingLines ++ d.package.header facts ++
        (doc.body d.package).trace.lines d.package := by
  unfold toRoff at h
  by_cases hp : d.package.usesTitleLine
  · rw [body, if_pos hp]
    simp only [if_pos hp] at h
    cases hf : doc.takeTitle.2.trace.failure? with
    | some e =>
      rw [hf] at h
      cases h
    | none =>
      rw [hf] at h
      exact ⟨rfl, _, (Except.ok.inj h).symm⟩
  · rw [body, if_neg hp]
    simp only [if_neg hp] at h
    cases hf : (Zipper.start doc.source).trace.failure? with
    | some e =>
      rw [hf] at h
      cases h
    | none =>
      rw [hf] at h
      exact ⟨rfl, _, (Except.ok.inj h).symm⟩

namespace Dialect

variable (d : Dialect)

theorem role_append {name : Text} (hs : ' ' ∈ name) (hn : firstWord name ∉ d.nestingWords)
    (t : Text) : d.role (name ++ t) = .other := by
  apply role_of_not_mem
  rwa [firstWord_append hs]

theorem role_titleHeading (hn : ".TH".toList ∉ d.nestingWords) (facts : HeaderFacts) :
    ∀ line ∈ MacroPackage.titleHeading facts, d.role line = .other := by
  obtain ⟨name, titleLine, date, fields⟩ := facts
  cases titleLine with
  | some line =>
    refine List.forall_mem_singleton.2 (role_of_not_mem ?_)
    rwa [firstWord_requestLine (by decide)]
  | none =>
    show ∀ line ∈ [".TH ".toList ++ _ ++ _ ++ _ ++ _], _
    rw [List.append_assoc, List.append_assoc, List.append_assoc]
    have hword : firstWord ".TH ".toList ∉ d.nestingWords := hn
    exact List.forall_mem_singleton.2 (d.role_append (by decide) hword _)

/-- The lines above the body open and close nothing. -/
theorem role_of_mem_head (facts : HeaderFacts) :
    ∀ line ∈ d.package.openingLines ++ d.package.header facts, d.role line = .other := by
  refine List.forall_mem_append.2 ⟨by cases d <;> decide, ?_⟩
  cases d with
  | man => exact role_titleHeading .man (by decide) facts
  | mdoc => exact role_titleHeading .mdoc (by decide) facts
  | mm => exact List.forall_mem_nil _
  | mom =>
    refine List.forall_mem_cons.2 ⟨role_append .mom (by decide) (by decide) _, ?_⟩
    refine List.forall_mem_cons.2 ⟨role_append .mom (by decide) (by decide) _, ?_⟩
    refine List.forall_mem_cons.2 ⟨role_append .mom (by decide) (by decide) _, ?_⟩
    refine List.forall_mem_cons.2 ⟨role_append .mom (by decide) (by decide) _, ?_⟩
    exact List.forall_mem_singleton.2 (by decide)

end Dialect

/-- The tag of an item is never missing when a list is open. -/
theorem MacroPackage.manItem_of_ne_nil {lists : OpenLists} (h : lists.lists ≠ []) :
    manItem lists = [".IP \\(bu 4".toList] ∨
      ∃ n, manItem lists = [".IP ".toList ++ ofNat n ++ ". 4".toList] := by
  obtain ⟨l, rest, hl⟩ := List.exists_cons_of_ne_nil h
  obtain ⟨style, number, indent⟩ := l
  have hinner : lists.innermost? = some ⟨style, number, indent⟩ := by
    rw [OpenLists.innermost?, hl]
    rfl
  unfold manItem
  rw [hinner]
  cases style with
  | bulleted => exact .inl rfl
  | numbered => exact .inr ⟨number, rfl⟩

/-- **The requests of a converted document are balanced**, the lines of fenced blocks left aside.
What they open nests and is closed; a list is opened in the style for the number of lists that are
open around it; and with the man macros every item has a bullet or a number. -/
theorem requests_are_balanced {d : Dialect} {fields : HeaderFields} {date : Date} {doc : Document}
    {lines : List Text} (h : (doc.toRoff d fields date).result = .ok lines) :
    ∃ head, lines = head ++ (doc.body d.package).trace.lines d.package ∧
      d.Nests [] (head ++ d.package.framing ((doc.body d.package).trace.events d.package.markup))
        [] ∧
      (∀ before line after closing,
        head ++ d.package.framing ((doc.body d.package).trace.events d.package.markup) =
          before ++ line :: after →
        d.role line = .opening closing → d.styledEnd? = some closing →
        d.OpensNth (before.countP (fun l => d.role l = .opening closing) -
          before.count closing + 1) line) ∧
      (d = .man → ∀ r ∈ (doc.body d.package).trace.events d.package.markup, r.item = .itemOpen →
        d.package.lines r.item r.lists = [".IP \\(bu 4".toList] ∨
          ∃ n, d.package.lines r.item r.lists = [".IP ".toList ++ ofNat n ++ ". 4".toList]) := by
  obtain ⟨hsuccess, facts, hlines⟩ := Document.lines_of_toRoff h
  have hpath := Zipper.path_of_success d.package.markup hsuccess
  have hnests : d.Nests [] (d.package.openingLines ++ d.package.header facts ++
      d.package.framing ((doc.body d.package).trace.events d.package.markup)) [] :=
    (Dialect.Nests.of_other (d.role_of_mem_head facts)).append (hpath.nests d)
  refine ⟨_, hlines, hnests, ?_, ?_⟩
  · intro before line after closing hsplit hline hc
    rw [hsplit] at hnests
    exact hnests.opensNth hline hc
  · rintro rfl r hr hitem
    have hopen := hpath.lists_ne_nil hr (by rw [hitem]; rfl)
    rw [hitem]
    exact MacroPackage.manItem_of_ne_nil hopen

/-- A list inside of another, and a line of a fenced block that looks like a third. -/
theorem requests_are_balanced_in_fence :
    let doc : Document := ⟨"d".toList, "- a\n  2. b\n```\n.LIST DASH\n```\n".toList⟩
    let lines : List Text := [".\\\" x-roff document", ".do mso mom.tmac", ".TITLE \"d\"",
      ".AUTHOR \"md2roff\"", ".PAPER A4", ".PRINTSTYLE TYPESET", ".START", ".LIST BULLET", ".ITEM",
      "a", ".LIST ALPHA", ".ITEM", "b", ".CODE", ".ESC_CHAR !", ".LIST DASH", ".ESC_CHAR .",
      ".CODE OFF", ".LIST OFF", ".LIST OFF"].map String.toList
    (doc.toRoff .mom .standard ⟨2024, 5, 1⟩).result = .ok lines ∧
      ∃ head, lines = head ++ (doc.body .mom).trace.lines .mom ∧
        Dialect.mom.Nests []
          (head ++ MacroPackage.mom.framing ((doc.body .mom).trace.events MacroPackage.mom.markup))
          [] := by
  intro doc lines
  have hoption : (doc.toRoff .mom .standard ⟨2024, 5, 1⟩).result.toOption = some lines := by
    decide +kernel
  have h : (doc.toRoff .mom .standard ⟨2024, 5, 1⟩).result = .ok lines := by
    cases hr : (doc.toRoff .mom .standard ⟨2024, 5, 1⟩).result with
    | error e =>
      rw [hr] at hoption
      cases hoption
    | ok found =>
      rw [hr] at hoption
      exact congrArg Except.ok (Option.some.inj hoption)
  obtain ⟨head, hlines, hnests, -⟩ := requests_are_balanced h
  exact ⟨h, head, hlines, hnests⟩

end Roffdown
