import Roffdown.Proofs.Reading

/-!
# Readings inside a longer text

A document that ends a line can be read inside a longer one.  The steps look at the character before
the place, at the rest of the line and of the line below, and for the mark that closes inline code;
only the last can lie beyond, and then the document cannot be read to its end on its own.

* `Zipper.within`: a place of a text as a place of a longer text.
* `State.carried_step`, `State.reads_within`: a step, and a reading, inside a longer text.
* `Zipper.trace_within`: lines above change nothing but the numbers of lines.
* `Zipper.trace_append`: where nothing is open or waits, a document can be cut in two.
-/

namespace Roffdown

open Markdown Text
open State (Reads)

/-! ## Text after the end of a line -/

/-- What follows such a text begins a line. -/
def EndsLine (t : Text) : Prop := t = [] ∨ t.getLast? = some '\n'

instance (t : Text) : Decidable (EndsLine t) :=
  inferInstanceAs (Decidable (t = [] ∨ t.getLast? = some '\n'))

theorem EndsLine.newline_mem {t : Text} (h : EndsLine t) (ht : t ≠ []) : '\n' ∈ t :=
  List.mem_of_getLast? (h.resolve_left ht)

theorem EndsLine.of_suffix {t u : Text} (h : EndsLine t) (hu : u <:+ t) : EndsLine u := by
  obtain ⟨v, rfl⟩ := hu
  by_cases hu : u = []
  · exact .inl hu
  · right
    have hne : v ++ u ≠ [] := List.append_ne_nil_of_right_ne_nil v hu
    rw [← h.resolve_left hne, List.getLast?_append, List.getLast?_eq_some_getLast hu]
    rfl

namespace Text

variable {t b : Text}

/-- A run ends before a character that is not of its class, whatever follows. -/
theorem takeWhile_append {p : Char → Bool} {d : Char} (hd : d ∈ t) (hp : p d = false) :
    (t ++ b).takeWhile p = t.takeWhile p := by
  induction t with
  | nil => contradiction
  | cons c t ih =>
    by_cases hc : p c
    · have hd : d ∈ t := by
        rcases List.mem_cons.1 hd with rfl | hd
        · rw [hp] at hc
          contradiction
        · exact hd
      rw [List.cons_append, List.takeWhile_cons_of_pos hc, List.takeWhile_cons_of_pos hc, ih hd]
    · rw [List.cons_append, List.takeWhile_cons_of_neg hc, List.takeWhile_cons_of_neg hc]

theorem dropWhile_append {p : Char → Bool} {d : Char} (hd : d ∈ t) (hp : p d = false) :
    (t ++ b).dropWhile p = t.dropWhile p ++ b := by
  have h : (t ++ b).takeWhile p ++ (t ++ b).dropWhile p = t ++ b := List.takeWhile_append_dropWhile
  rw [takeWhile_append hd hp] at h
  refine List.append_cancel_left (h.trans ?_)
  rw [← List.append_assoc, List.takeWhile_append_dropWhile]

/-- A run leaves a character that is not of its class. -/
theorem mem_dropWhile {p : Char → Bool} {d : Char} (hd : d ∈ t) (hp : p d = false) :
    d ∈ t.dropWhile p := by
  rw [← List.takeWhile_append_dropWhile (p := p) (l := t)] at hd
  rcases List.mem_append.1 hd with h | h
  · have := List.all_eq_true.1 List.all_takeWhile _ h
    rw [hp] at this
    contradiction
  · exact h

/-- What has no newline does not reach beyond one. -/
theorem exists_append_eq_iff {u : Text} (hu : '\n' ∉ u) (ht : '\n' ∈ t) :
    (∃ after, t ++ b = u ++ after) ↔ ∃ after, t = u ++ after := by
  constructor
  · rintro ⟨after, h⟩
    obtain ⟨v, rfl, -⟩ | ⟨v, rfl, -⟩ := List.append_eq_append_iff.1 h
    · exact absurd (List.mem_append_left v ht) hu
    · exact ⟨v, rfl⟩
  · rintro ⟨after, rfl⟩
    exact ⟨after ++ b, List.append_assoc ..⟩

theorem length_firstLine_lt (ht : '\n' ∈ t) : (firstLine t).length < t.length := by
  have hd : 0 < (t.dropWhile (· != '\n')).length :=
    List.length_pos_of_mem (mem_dropWhile ht rfl)
  have h := congrArg List.length (List.takeWhile_append_dropWhile (p := (· != '\n')) (l := t))
  rw [List.length_append] at h
  unfold firstLine
  omega

end Text

namespace Markdown

variable {t b : Text}

/-- Whether a marker, and the blanks around it, end before a character. -/
def stopsMarker (c : Char) : Bool := !(isIndent c || isBullet c || c.isDigit || c == '.')

theorem not_isIndent_of_stopsMarker {c : Char} (h : stopsMarker c) : isIndent c = false := by
  simp only [stopsMarker, Bool.not_eq_true', Bool.or_eq_false_iff] at h
  exact h.1.1.1

theorem marker?_append {d : Char} (hd : d ∈ t) (hs : stopsMarker d) :
    marker? (t ++ b) = marker? t := by
  simp only [stopsMarker, Bool.not_eq_true', Bool.or_eq_false_iff, beq_eq_false_iff_ne] at hs
  obtain ⟨⟨⟨hindent, hbullet⟩, hdigit⟩, hpoint⟩ := hs
  obtain ⟨c, u, rfl⟩ := List.exists_cons_of_ne_nil (List.ne_nil_of_mem hd)
  rw [List.cons_append, marker?, marker?, ← List.cons_append]
  by_cases hc : isBullet c
  · have hu : d ∈ u := by
      rcases List.mem_cons.1 hd with rfl | hu
      · rw [hbullet] at hc
        contradiction
      · exact hu
    rw [if_pos hc, if_pos hc, takeWhile_append hu hindent]
  · have hr := mem_dropWhile hd hdigit
    rw [if_neg hc, if_neg hc, takeWhile_append hd hdigit, dropWhile_append hd hdigit]
    obtain ⟨x, v, hx⟩ := List.exists_cons_of_ne_nil (List.ne_nil_of_mem hr)
    rw [hx] at hr ⊢
    cases (c :: u).takeWhile Char.isDigit with
    | nil => rfl
    | cons d' ds =>
      by_cases hp : x = '.'
      · subst hp
        have hv : d ∈ v := (List.mem_cons.1 hr).resolve_left hpoint
        have ha := takeWhile_append (b := b) hv hindent
        simp only [List.cons_append, ha]
      · simp [hp]

/-- A marker takes no more than there is. -/
theorem width_le_of_marker? {marker : Marker} (h : marker? t = some marker) :
    marker.width ≤ t.length := by
  cases t with
  | nil => contradiction
  | cons c t =>
    rw [marker?] at h
    split at h
    · have hl : (t.takeWhile isIndent).length ≤ t.length := (List.takeWhile_sublist _).length_le
      split at h
      · contradiction
      · cases h
        change 1 + (t.takeWhile isIndent).length ≤ t.length + 1
        omega
    · have hl := congrArg List.length
        (List.takeWhile_append_dropWhile (p := Char.isDigit) (l := c :: t))
      split at h
      · contradiction
      · rename_i after hd _
        have ha : (after.takeWhile isIndent).length ≤ after.length :=
          (List.takeWhile_sublist _).length_le
        cases h
        rw [List.length_append, hd, List.length_cons] at hl
        change _ + 1 + (after.takeWhile isIndent).length ≤ _
        omega
      · contradiction

theorem length_le_of_linkBody? {label target : Text} (h : linkBody? t = some (label, target)) :
    linkBodyWidth label target ≤ t.length := by
  obtain ⟨⟨after, rfl⟩, -⟩ := linkBody?_eq_some_iff.1 h
  simp [linkBodyWidth]
  omega

theorem linkBody?_append (ht : '\n' ∈ t) : linkBody? (t ++ b) = linkBody? t := by
  refine Option.ext fun ⟨label, target⟩ => ?_
  rw [linkBody?_eq_some_iff, linkBody?_eq_some_iff]
  refine and_congr_left fun ⟨_, hl, _, hg⟩ => ?_
  have hu : '\n' ∉ label ++ ']' :: '(' :: (target ++ [')']) := by simp [hl, hg]
  simpa using exists_append_eq_iff hu ht

end Markdown

/-! ## A place in a longer text -/

namespace Zipper

/-- The same place with text above the document and below it. -/
def within (a b : Text) (z : Zipper) : Zipper := ⟨z.before ++ a.reverse, z.rest ++ b⟩

/-- Whether text above and below is out of sight: it is above the line of the document where it is
read, and below its last line. -/
structure Fits (a b : Text) (z : Zipper) : Prop where
  above : EndsLine a
  below : b = [] ∨ EndsLine z.rest

variable {a b : Text} {z : Zipper}

theorem Fits.advance (h : z.Fits a b) (n : Nat) : (z.advance n).Fits a b :=
  ⟨h.above, h.below.imp_right fun he => he.of_suffix (List.drop_suffix n z.rest)⟩

theorem Fits.newline (h : z.Fits a b) (hz : z.rest ≠ []) : b = [] ∨ '\n' ∈ z.rest :=
  h.below.imp_right fun he => he.newline_mem hz

theorem advance_within {n : Nat} (h : b = [] ∨ n ≤ z.rest.length) :
    (z.within a b).advance n = (z.advance n).within a b := by
  rcases h with rfl | h
  · simp [within, advance]
  · simp [within, advance, List.take_append_of_le_length h, List.drop_append_of_le_length h]

theorem startsWith_within {t : Text} (h : b = [] ∨ '\n' ∈ z.rest) (ht : '\n' ∉ t) :
    (z.within a b).startsWith t = z.startsWith t := by
  rcases h with rfl | h
  · simp [within, startsWith]
  · rw [Bool.eq_iff_iff, startsWith, startsWith, List.isPrefixOf_iff_prefix,
      List.isPrefixOf_iff_prefix]
    have he := exists_append_eq_iff (b := b) ht h
    exact (exists_congr fun _ => eq_comm).trans (he.trans (exists_congr fun _ => eq_comm))

theorem restOfLine_within (h : b = [] ∨ '\n' ∈ z.rest) :
    (z.within a b).restOfLine = z.restOfLine := by
  rcases h with rfl | h
  · simp [within, restOfLine]
  · exact takeWhile_append h rfl

theorem splitLine_within (h : b = [] ∨ '\n' ∈ z.rest) :
    (z.within a b).splitLine = (z.splitLine.1, z.splitLine.2.within a b) := by
  have hl : b = [] ∨ z.restOfLine.length + 1 ≤ z.rest.length :=
    h.imp_right fun hn => length_firstLine_lt hn
  unfold splitLine
  rw [restOfLine_within h, advance_within hl]

end Zipper

/-- The state in a longer text. -/
def State.within (a b : Text) (s : State) : State := { s with input := s.input.within a b }

/-- The move in a longer text. -/
def Move.within (a b : Text) (m : Move) : Move := ⟨m.raised, m.warnings, m.next.within a b⟩

theorem Move.andThen_within {a b : Text} {f : State → Move}
    (h : ∀ s : State, f (s.within a b) = (f s).within a b) (m : Move) :
    (m.within a b).andThen f = (m.andThen f).within a b := by
  simp only [andThen, within, h]

namespace State

variable {a b : Text} {s : State}

theorem release_within : (s.within a b).release = s.release.within a b := by
  unfold release
  rw [show (s.within a b).buffer = s.buffer from rfl]
  split <;> rfl

theorem OnLists.within {P : Event → Prop} {f : State → Move} (h : OnLists P f) (s : State) :
    f (s.within a b) = (f s).within a b :=
  h.map (g := State.within a b) (fun _ => rfl) (fun _ _ => rfl) s

theorem release_andThen_within {P : Event → Prop} {f : State → Move} (h : OnLists P f) :
    (s.within a b).release.andThen f = (s.release.andThen f).within a b := by
  rw [release_within]
  exact Move.andThen_within h.within _

/-! ## The rules in a longer text -/

theorem backslash_within (h : b = [] ∨ 2 ≤ s.input.rest.length) :
    (s.within a b).backslash = s.backslash.within a b := by
  have ha : (s.within a b).input.advance 2 = (s.input.advance 2).within a b :=
    Zipper.advance_within h
  have hn : (s.within a b).input.nth? 1 = s.input.nth? 1 := by
    change (s.input.rest ++ b)[1]? = s.input.rest[1]?
    rcases h with rfl | h
    · rw [List.append_nil]
    · exact List.getElem?_append_left h
  unfold backslash
  rw [hn, ha]
  rfl

theorem literal_within {c : Char} (h : b = [] ∨ 1 ≤ s.input.rest.length) :
    (s.within a b).literal c = (s.literal c).within a b := by
  have ha : (s.within a b).input.advance 1 = (s.input.advance 1).within a b :=
    Zipper.advance_within h
  unfold literal
  rw [ha]
  rfl

theorem paragraphBreak_within (hs : s.input.rest ≠ []) :
    (s.within a b).paragraphBreak = s.paragraphBreak.within a b := by
  have ha : (s.within a b).input.advance 1 = (s.input.advance 1).within a b :=
    Zipper.advance_within (.inr (List.length_pos_iff.2 hs))
  unfold paragraphBreak
  rw [ha]
  exact release_andThen_within (s := { s with input := _, freshLine := true }) onLists_breakList

section

variable (hz : b = [] ∨ '\n' ∈ s.input.rest)

include hz

theorem fencedLine_within : (s.within a b).fencedLine = s.fencedLine.within a b := by
  have hs : (s.within a b).input.startsWith fence = s.input.startsWith fence :=
    Zipper.startsWith_within hz (by decide)
  have hl : (s.within a b).input.splitLine = _ := Zipper.splitLine_within hz
  by_cases h : s.input.startsWith fence
  · rw [fencedLine_of_fence h, fencedLine_of_fence (hs.trans h), hl]
    rfl
  · rw [fencedLine_of_not_fence h, fencedLine_of_not_fence (by rwa [hs]), hl]
    rfl

theorem hashRule_within : (s.within a b).hashRule = s.hashRule.within a b := by
  have hl : (s.within a b).input.splitLine = _ := Zipper.splitLine_within hz
  unfold hashRule
  rw [hl]
  exact release_andThen_within (s := { s with input := _, freshLine := true })
    (onLists_announce fun _ _ => trivial)

theorem openFence_within : (s.within a b).openFence = s.openFence.within a b := by
  have hl : (s.within a b).input.splitLine = _ := Zipper.splitLine_within hz
  unfold openFence
  rw [hl]
  exact release_andThen_within (s := { s with input := _, inFence := true })
    (onLists_announce fun _ _ => trivial)

end

section

variable (hz : b = [] ∨ ∃ d ∈ s.input.rest, stopsMarker d)

include hz

/-- The blanks before a marker end before what ends the marker. -/
theorem exists_blanks : ∃ blanks t : Text, s.input.rest = blanks ++ t ∧
    (b = [] ∨ ∃ d ∈ t, stopsMarker d) ∧
    (if s.lists.isEmpty then [] else s.input.rest.takeWhile isIndent) = blanks ∧
    (if s.lists.isEmpty then [] else (s.within a b).input.rest.takeWhile isIndent) = blanks := by
  by_cases he : s.lists.isEmpty
  · refine ⟨[], s.input.rest, rfl, hz, ?_, ?_⟩
    · rw [if_pos he]
    · rw [if_pos he]
  · refine ⟨s.input.rest.takeWhile isIndent, s.input.rest.dropWhile isIndent,
      List.takeWhile_append_dropWhile.symm, ?_, ?_, ?_⟩
    · refine hz.imp_right fun ⟨d, hd, hs⟩ => ⟨d, mem_dropWhile hd ?_, hs⟩
      exact not_isIndent_of_stopsMarker hs
    · rw [if_neg he]
    · rw [if_neg he]
      rcases hz with rfl | ⟨d, hd, hs⟩
      · simp [within, Zipper.within]
      · exact takeWhile_append hd (not_isIndent_of_stopsMarker hs)

theorem item?_within : (s.within a b).item? = s.item?.map (Move.within a b) := by
  obtain ⟨blanks, t, hr, ht, hb, hb'⟩ := exists_blanks (a := a) hz
  have hd : s.input.rest.drop blanks.length = t := by rw [hr, List.drop_left]
  have hd' : (s.within a b).input.rest.drop blanks.length = t ++ b := by
    change (s.input.rest ++ b).drop blanks.length = t ++ b
    rw [hr, List.append_assoc, List.drop_left]
  have hm : marker? (t ++ b) = marker? t := by
    rcases ht with rfl | ⟨d, hd, hs⟩
    · rw [List.append_nil]
    · exact marker?_append hd hs
  rw [item?_eq hb, item?_eq hb', hd, hd', hm, Option.map_map]
  refine Option.map_congr fun marker hk => ?_
  have hw : blanks.length + marker.width ≤ s.input.rest.length := by
    rw [hr, List.length_append]
    exact Nat.add_le_add_left (width_le_of_marker? hk) _
  have ha : (s.within a b).input.advance (blanks.length + marker.width) =
      (s.input.advance (blanks.length + marker.width)).within a b :=
    Zipper.advance_within (.inr hw)
  rw [ha]
  exact release_andThen_within (s := { s with input := _ }) (onLists_placeItem marker _)

end

theorem blockRule?_within (hz : b = [] ∨ '\n' ∈ s.input.rest) (hs : s.input.rest ≠ []) :
    (s.within a b).blockRule? = s.blockRule?.map (Move.within a b) := by
  obtain ⟨c, t, hr⟩ := List.exists_cons_of_ne_nil hs
  have hr' : (s.within a b).input.rest = c :: (t ++ b) := congrArg (· ++ b) hr
  have hf : (s.within a b).input.startsWith fence = s.input.startsWith fence :=
    Zipper.startsWith_within hz (by decide)
  by_cases hn : c = '\n'
  · subst hn
    rw [blockRule?_of_newline hr, blockRule?_of_newline hr', paragraphBreak_within hs]
    rfl
  by_cases hh : c = '#'
  · subst hh
    rw [blockRule?_of_hash hr, blockRule?_of_hash hr', hashRule_within hz]
    rfl
  rw [blockRule?_of_other hr hn hh, blockRule?_of_other hr' hn hh, hf, openFence_within hz,
    item?_within (hz.imp_right fun hn => ⟨_, hn, rfl⟩)]
  split <;> rfl

section

variable (ha : EndsLine a)

include ha

theorem canOpenEmphasis_within : (s.within a b).canOpenEmphasis = s.canOpenEmphasis := by
  unfold canOpenEmphasis Zipper.previous?
  change ((s.input.before ++ a.reverse).head?).all isBoundary = s.input.before.head?.all isBoundary
  cases s.input.before with
  | cons c before => rfl
  | nil =>
    rw [List.nil_append, List.head?_reverse]
    rcases ha with rfl | ha
    · rfl
    · rw [ha]
      rfl

theorem boldMark_within (h : 2 ≤ s.input.rest.length) :
    (s.within a b).boldMark = s.boldMark.within a b := by
  have hadv : (s.within a b).input.advance 2 = (s.input.advance 2).within a b :=
    Zipper.advance_within (.inr h)
  have ht : (s.within a b).input.rest.take 2 = s.input.rest.take 2 :=
    List.take_append_of_le_length h
  unfold boldMark
  rw [hadv, ht, canOpenEmphasis_within ha, show (s.within a b).bold = s.bold from rfl]
  split
  · rfl
  · split <;> rfl

theorem italicMark_within (h : 1 ≤ s.input.rest.length) :
    (s.within a b).italicMark = s.italicMark.within a b := by
  have hadv : (s.within a b).input.advance 1 = (s.input.advance 1).within a b :=
    Zipper.advance_within (.inr h)
  have ht : (s.within a b).input.rest.take 1 = s.input.rest.take 1 :=
    List.take_append_of_le_length h
  unfold italicMark
  rw [hadv, ht, canOpenEmphasis_within ha, show (s.within a b).italic = s.italic from rfl]
  split
  · rfl
  · split <;> rfl

end

theorem bracket_within {lead : Nat} (hl : lead + 1 ≤ s.input.rest.length)
    (hb : linkBody? (s.input.rest.drop (lead + 1) ++ b) =
      linkBody? (s.input.rest.drop (lead + 1))) :
    (s.within a b).bracket lead = (s.bracket lead).within a b := by
  have hd : (s.within a b).input.rest.drop (lead + 1) = s.input.rest.drop (lead + 1) ++ b :=
    List.drop_append_of_le_length hl
  unfold bracket
  rw [hd, hb]
  cases hk : linkBody? (s.input.rest.drop (lead + 1)) with
  | none =>
    have ha : (s.within a b).input.advance 1 = (s.input.advance 1).within a b :=
      Zipper.advance_within (.inr (Nat.le_of_add_left_le hl))
    have ht : (s.within a b).input.rest.take 1 = s.input.rest.take 1 :=
      List.take_append_of_le_length (Nat.le_of_add_left_le hl)
    simp only [ha, ht]
    rfl
  | some body =>
    obtain ⟨label, target⟩ := body
    have hw := length_le_of_linkBody? hk
    rw [List.length_drop] at hw
    have ha : (s.within a b).input.advance (lead + 1 + linkBodyWidth label target) =
        (s.input.advance (lead + 1 + linkBodyWidth label target)).within a b :=
      Zipper.advance_within (.inr (by omega))
    simp only [ha]
    exact release_andThen_within (s := { s with input := _ }) (onLists_announce fun _ _ => trivial)

theorem underlined_within : (s.within a b).underlined = s.underlined.within a b := by
  have hr := release_within (a := a) (b := b) (s := { s with buffer := s.buffer.dropLine })
  unfold underlined
  rw [show { s.within a b with buffer := (s.within a b).buffer.dropLine } =
    ({ s with buffer := s.buffer.dropLine } : State).within a b from rfl, hr]
  rfl

/-- The end of a line, when the line below is told by what is there of it. -/
theorem lineEnd_within {t : Text} (hr : s.input.rest = '\n' :: t)
    (hz : b = [] ∨ '\n' ∈ t ∨ ¬ isUnderline (firstLine t) ∧ ¬ isUnderline (firstLine (t ++ b))) :
    (s.within a b).lineEnd = s.lineEnd.within a b := by
  have ha : (s.within a b).input.advance 1 = (s.input.advance 1).within a b :=
    Zipper.advance_within (.inr (by simp [hr]))
  have hsame : isUnderline (firstLine (t ++ b)) = isUnderline (firstLine t) := by
    rcases hz with rfl | hn | ⟨hu, hu'⟩
    · rw [List.append_nil]
    · exact congrArg isUnderline (takeWhile_append hn rfl)
    · rw [Bool.not_eq_true] at hu hu'
      rw [hu, hu']
  have hbelow : s.input.lineBelow?.any isUnderline = isUnderline (firstLine t) := by
    rw [Zipper.lineBelow?, hr]
    rfl
  have hbelow' : (s.within a b).input.lineBelow?.any isUnderline = isUnderline (firstLine t) := by
    change ((afterLine? (s.input.rest ++ b)).map firstLine).any isUnderline = _
    rw [hr, ← hsame]
    rfl
  by_cases h : isUnderline (firstLine t)
  · have hn : b = [] ∨ '\n' ∈ t := hz.imp_right fun hn => hn.resolve_right fun hu => hu.1 h
    have hl : ((s.input.advance 1).within a b).splitLine = _ :=
      Zipper.splitLine_within (by simpa [hr] using hn)
    rw [lineEnd_of_underline (hbelow'.trans h), lineEnd_of_underline (hbelow.trans h), ha, hl]
    exact underlined_within (s := { s with input := _, freshLine := true })
  · rw [lineEnd_of_not_underline (by rwa [hbelow']), lineEnd_of_not_underline (by rwa [hbelow]), ha]
    rfl

/-! ## The step in a longer text -/

/-- A move that happens is the same move in the longer text, if text below is only added where there
is more to read or nothing waits. -/
def Carried (a b : Text) (r' r : Except UnclosedCode Move) : Prop :=
  ∀ m, r = .ok m → b = [] ∨ m.next.input.rest ≠ [] ∨ m.next.buffer.all = [] →
    r' = .ok (m.within a b)

theorem carried_of_eq {m' m : Move} (h : m' = m.within a b) : Carried a b (.ok m') (.ok m) := by
  rintro m ⟨⟩ -
  rw [h]

theorem carried_inlineCode (hs : s.input.rest ≠ []) :
    Carried a b (s.within a b).inlineCode s.inlineCode := by
  intro m hm _
  obtain ⟨c, t, hr⟩ := List.exists_cons_of_ne_nil hs
  have hd : (s.within a b).input.rest.drop 1 = s.input.rest.drop 1 ++ b := by
    change (s.input.rest ++ b).drop 1 = _
    rw [hr]
    rfl
  unfold inlineCode at hm ⊢
  rw [hd]
  split at hm
  · contradiction
  · rename_i code after hsp
    obtain ⟨he, hc⟩ := splitAtFirst_eq_some_iff.1 hsp
    have hsp' : splitAtFirst codeMark (s.input.rest.drop 1 ++ b) = some (code, after ++ b) := by
      rw [splitAtFirst_eq_some_iff, he]
      exact ⟨List.append_assoc .., hc⟩
    have hw : code.length + 2 ≤ s.input.rest.length := by
      have hl := congrArg List.length he
      rw [List.length_drop, List.length_append, List.length_cons] at hl
      omega
    have ha : (s.within a b).input.advance (code.length + 2) =
        (s.input.advance (code.length + 2)).within a b := Zipper.advance_within (.inr hw)
    cases hm
    simp only [hsp', ha]
    rfl

section

variable (hz : s.input.Fits a b) (hs : s.input.rest ≠ [])

include hz hs

theorem carried_textRule : Carried a b (s.within a b).textRule s.textRule := by
  obtain ⟨c, t, hr⟩ := List.exists_cons_of_ne_nil hs
  have hr' : (s.within a b).input.rest = c :: (t ++ b) := congrArg (· ++ b) hr
  have hlen : s.input.rest.length = t.length + 1 := by rw [hr, List.length_cons]
  have hbelow : b = [] ∨ EndsLine t :=
    hz.below.imp_right fun h => h.of_suffix (hr ▸ List.suffix_cons c t)
  have hlink {u : Text} (hu : b = [] ∨ '\n' ∈ u) : linkBody? (u ++ b) = linkBody? u := by
    rcases hu with rfl | hn
    · rw [List.append_nil]
    · exact linkBody?_append hn
  unfold textRule
  simp only [hr, hr']
  refine rel_ite Iff.rfl ?_ fun hc => ?_
  · rintro rfl m ⟨⟩ hend
    refine congrArg Except.ok (lineEnd_within hr ?_)
    rcases hbelow with hb | he
    · exact .inl hb
    -- At the very end the line below is not known yet; but then the blank for this newline waits.
    by_cases ht : t = []
    · subst ht
      refine .inl (hend.resolve_right ?_)
      have hu : ¬ s.input.lineBelow?.any isUnderline := by
        rw [Zipper.lineBelow?, hr]
        decide
      simp [lineEnd_of_not_underline hu, hr]
    · exact .inr (.inl (he.newline_mem ht))
  -- Every other character stands before the newline that ends the text.
  have ht : b = [] ∨ '\n' ∈ t := by
    refine (hz.newline hs).imp_right fun h => ?_
    rw [hr] at h
    exact (List.mem_cons.1 h).resolve_left (Ne.symm hc)
  have hh (d : Char) : (t ++ b).head? = some d ↔ t.head? = some d := by
    rcases ht with rfl | ht
    · rw [List.append_nil]
    · obtain ⟨x, u, rfl⟩ := List.exists_cons_of_ne_nil (List.ne_nil_of_mem ht)
      rfl
  refine rel_ite Iff.rfl (fun _ => ?_) fun _ => ?_
  · refine carried_of_eq ?_
    by_cases hd : t.head? = some c
    · obtain ⟨u, rfl⟩ := List.head?_eq_some_iff.1 hd
      rw [if_pos hd, if_pos ((hh c).2 hd)]
      exact boldMark_within hz.above (by rw [hlen, List.length_cons]; omega)
    · rw [if_neg hd, if_neg (mt (hh c).1 hd)]
      exact italicMark_within hz.above (by omega)
  refine rel_ite Iff.rfl (fun _ => carried_inlineCode hs) fun _ => ?_
  refine rel_ite Iff.rfl (fun _ => carried_of_eq ?_) fun _ => ?_
  · exact bracket_within (by omega) (hlink (by simpa [hr] using ht))
  refine rel_ite (and_congr_right' (hh _)) (fun hb => carried_of_eq ?_) fun _ => ?_
  · obtain ⟨u, rfl⟩ := List.head?_eq_some_iff.1 hb.2
    refine bracket_within (by rw [hlen, List.length_cons]; omega) (hlink ?_)
    rw [hr]
    exact ht.imp_right fun h => (List.mem_cons.1 h).resolve_left (by decide)
  · exact carried_of_eq (literal_within (.inr (by omega)))

/-- **A step is the same inside a longer text.** -/
theorem carried_step : Carried a b (s.within a b).step s.step := by
  have hn := hz.newline hs
  obtain ⟨c, t, hr⟩ := List.exists_cons_of_ne_nil hs
  have hr' : (s.within a b).input.rest = c :: (t ++ b) := congrArg (· ++ b) hr
  rw [step_eq, step_eq]
  refine rel_ite Iff.rfl (fun _ => carried_of_eq (fencedLine_within hn)) fun _ => ?_
  refine rel_ite ?_ (fun hb => carried_of_eq ?_) fun _ => ?_
  · rw [Zipper.next?, Zipper.next?, hr, hr']
    rfl
  · refine backslash_within (hn.imp_right fun h => ?_)
    rw [Zipper.next?, hr] at hb
    cases hb
    rw [hr] at h ⊢
    exact Nat.succ_le_succ (List.length_pos_of_mem ((List.mem_cons.1 h).resolve_left (by decide)))
  refine rel_ite Iff.rfl (fun _ => ?_) fun _ => carried_textRule hz hs
  have hb : (s.midLine.within a b).blockRule? = s.midLine.blockRule?.map (Move.within a b) :=
    blockRule?_within hn hs
  have ht : Carried a b (s.midLine.within a b).textRule s.midLine.textRule :=
    carried_textRule (s := s.midLine) hz hs
  change Carried a b
    ((s.midLine.within a b).blockRule?.elim (s.midLine.within a b).textRule .ok)
    (s.midLine.blockRule?.elim s.midLine.textRule .ok)
  rw [hb]
  cases s.midLine.blockRule? with
  | none => exact ht
  | some m => exact carried_of_eq rfl

end

/-! ## Readings in a longer text -/

theorem eq_silent_of_reads {m : Move} (h : Reads s m) (hs : s.input.rest = []) : m = .silent s := by
  cases h with
  | stop => rfl
  | step hne => exact absurd hs hne

/-- **A reading is a reading inside a longer text.** -/
theorem reads_within {m : Move} (h : Reads s m) (hz : s.input.Fits a b)
    (hm : b = [] ∨ m.next.input.rest ≠ [] ∨ m.next.buffer.all = []) :
    Reads (s.within a b) (m.within a b) := by
  induction h with
  | stop s => exact .stop _
  | @step s m n hs hstep hn ih =>
    obtain ⟨k, hk⟩ := exists_advance_of_rule (rule_of_step hs hstep)
    have hz' : m.next.input.Fits a b := by
      rw [hk]
      exact hz.advance k
    have hne : (s.within a b).input.rest ≠ [] := List.append_ne_nil_of_left_ne_nil hs b
    -- A step to the end of the text is the last one, so what waits after it waits for good.
    have hend : b = [] ∨ m.next.input.rest ≠ [] ∨ m.next.buffer.all = [] := by
      by_cases he : m.next.input.rest = []
      · rwa [eq_silent_of_reads hn he] at hm
      · exact .inr (.inl he)
    exact .step hne (carried_step hz hs m hstep hend) (ih hz' hm)

theorem wrapUp_within : (s.within a b).wrapUp = s.wrapUp.within a b := by
  unfold wrapUp
  rw [release_within]
  refine Move.andThen_within (fun s => ?_) _
  rw [← Move.andThen_within onLists_closeAll.within]
  refine congrArg (Move.andThen · _) ?_
  change (if s.inFence then _ else _) = (if s.inFence then _ else _ : Move).within a b
  split <;> rfl

end State

/-- The error at a place that has a text above. -/
def UnclosedCode.below (a : Text) (e : UnclosedCode) : UnclosedCode :=
  ⟨e.place.line + a.count '\n', e.place.column⟩

theorem Zipper.position_within {a b : Text} {z : Zipper} (ha : EndsLine a) :
    (z.within a b).position = ⟨z.position.line + a.count '\n', z.position.column⟩ := by
  have ht (before : List Char) : (before ++ a.reverse).takeWhile (· != '\n') =
      before.takeWhile (· != '\n') := by
    induction before with
    | nil =>
      rcases ha with rfl | ha
      · rfl
      · rw [← List.head?_reverse] at ha
        obtain ⟨t, ht⟩ := List.head?_eq_some_iff.1 ha
        rw [ht]
        rfl
    | cons c before ih => simp only [List.cons_append, List.takeWhile_cons, ih]
  unfold position within
  rw [ht, List.count_append, List.count_reverse, Nat.add_right_comm]

namespace State

/-- Lines above change nothing but where reading fails. -/
theorem scan_within {a : Text} (ha : EndsLine a) (s : State) : (s.within a []).scan =
    ⟨s.scan.raised, s.scan.warnings,
      match s.scan.stop with
      | .error e => .error (e.below a)
      | .ok t => .ok (t.within a [])⟩ := by
  have hz : s.input.Fits a [] := ⟨ha, .inl rfl⟩
  rcases reads_of_scan s with ⟨m, hr, hend, he⟩ | ⟨m, e, hr, hne, herr, he⟩
  · have hend' : (m.next.within a []).input.rest = [] := by
      change m.next.input.rest ++ [] = []
      rw [hend, List.append_nil]
    rw [he, scan_of_reads (reads_within hr hz (.inl rfl))]
    change (m.next.within a []).scan.after _ = _
    rw [scan_of_end hend']
    simp [Scan.after, Move.within]
  · have hne' : (m.next.within a []).input.rest ≠ [] := List.append_ne_nil_of_left_ne_nil hne []
    obtain ⟨hf, rfl, t, ht, hc⟩ := (step_eq_error_iff hne).1 herr
    have herr' : (m.next.within a []).step =
        .error (UnclosedCode.below a ⟨m.next.input.position⟩) := by
      rw [step_eq_error_iff hne']
      refine ⟨hf, ?_, t, ?_, hc⟩
      · rw [UnclosedCode.below, ← Zipper.position_within (b := []) ha]
        rfl
      · change m.next.input.rest ++ [] = _
        rw [List.append_nil, ht]
    rw [he, scan_of_reads (reads_within hr hz (.inl rfl))]
    change (m.next.within a []).scan.after _ = _
    rw [scan_of_error hne' herr']
    simp [Scan.after, Move.within]

end State

/-- **Lines above a document change nothing but the numbers of lines.** -/
theorem Zipper.trace_within {a : Text} (ha : EndsLine a) (z : Zipper) : (z.within a []).trace =
    ⟨z.trace.raised, z.trace.warnings, z.trace.failure?.map (UnclosedCode.below a)⟩ := by
  have hs : (State.initial (z.within a [])).scan = _ := State.scan_within ha (.initial z)
  unfold trace
  rw [hs]
  generalize (State.initial z).scan = r
  obtain ⟨raised, warnings, e | s⟩ := r
  · rfl
  · simp only [State.wrapUp_within, Move.within, Option.map_none]

/-! ## Cutting a document -/

/-- Whether a state is like the one where reading begins: nothing waits and nothing is open. -/
structure State.IsClean (s : State) : Prop where
  buffer : s.buffer.all = []
  lists : s.lists.isEmpty
  freshLine : s.freshLine = true
  inFence : s.inFence = false
  bold : s.bold = false
  italic : s.italic = false

theorem State.IsClean.eq_initial {s : State} (h : s.IsClean) : s = .initial s.input := by
  have hb : s.buffer = .empty := by
    have hb := h.buffer
    rw [Buffer.all_eq, List.append_eq_nil_iff] at hb
    exact Buffer.ext_held_line hb.1 hb.2
  have hl : s.lists = .empty := OpenLists.ext (List.isEmpty_iff.1 h.lists)
  obtain ⟨input, lists, buffer, freshLine, inFence, bold, italic⟩ := s
  cases hb
  cases hl
  cases h.freshLine
  cases h.inFence
  cases h.bold
  cases h.italic
  rfl

theorem State.wrapUp_initial (z : Zipper) :
    (State.initial z).wrapUp = .silent (.initial z) := rfl

/-- **Where nothing is open or waits, a document can be cut in two.** -/
theorem Zipper.trace_append {a b : Text} (ha : EndsLine a) {s : State}
    (hs : (State.initial (.start a)).scan.stop = .ok s) (hc : s.IsClean) :
    (∀ mk : Markup, (start (a ++ b)).trace.events mk =
      (start a).trace.events mk ++ (start b).trace.events mk) ∧
    (start (a ++ b)).trace.warnings = (start a).trace.warnings ++ (start b).trace.warnings ∧
    (start (a ++ b)).trace.failure? = (start b).trace.failure?.map (UnclosedCode.below a) := by
  rcases State.reads_of_scan (.initial (.start a)) with ⟨m, hr, hend, he⟩ | ⟨m, e, -, -, -, he⟩
  · obtain rfl : m.next = s := by simpa [he] using hs
    -- The reading of the first part, inside the whole document, stops at the second part.
    have hz : (start a).Fits [] b := ⟨.inl rfl, .inr ha⟩
    have hr' : Reads (.initial (start (a ++ b))) (m.within [] b) :=
      State.reads_within hr hz (.inr (.inr hc.buffer))
    have hin : m.next.input.within [] b = (start b).within a [] := by
      obtain ⟨n, hn⟩ := hr.exists_advance
      have hsource : m.next.input.source = a := by
        rw [hn, source_advance]
        rfl
      rw [source, hend, List.append_nil] at hsource
      simp [within, start, hend, ← hsource]
    have hnext : (m.within [] b).next = .initial (m.within [] b).next.input := by
      change m.next.within [] b = .initial (m.next.input.within [] b)
      rw [hc.eq_initial]
      rfl
    have hwhole : (start (a ++ b)).trace = ⟨m.raised ++ (start b).trace.raised,
        m.warnings ++ (start b).trace.warnings,
        (start b).trace.failure?.map (UnclosedCode.below a)⟩ := by
      rw [trace_of_reads hr' hnext]
      change (⟨_ ++ (m.next.input.within [] b).trace.raised, _, _⟩ : Trace) = _
      rw [show (m.within [] b).next.input = (start b).within a [] from hin, hin, trace_within ha]
      rfl
    have hfirst : (start a).trace = ⟨m.raised, m.warnings, none⟩ := by
      rw [trace, he]
      simp only
      rw [hc.eq_initial, State.wrapUp_initial, Move.raised_silent, Move.warnings_silent,
        List.append_nil, List.append_nil]
    rw [hwhole, hfirst]
    refine ⟨fun mk => ?_, rfl, rfl⟩
    exact Raised.events_append mk m.raised (start b).trace.raised
  · rw [he] at hs
    contradiction

/-- A header that ends its line, and a document that fails. -/
theorem Zipper.trace_append_header :
    EndsLine "# T\n".toList ∧
    (∀ mk : Markup, (start "# T\nx\n`".toList).trace.events mk =
      (start "# T\n".toList).trace.events mk ++ (start "x\n`".toList).trace.events mk) ∧
    (start "# T\nx\n`".toList).trace.warnings =
      (start "# T\n".toList).trace.warnings ++ (start "x\n`".toList).trace.warnings ∧
    (start "# T\nx\n`".toList).trace.failure? =
      (start "x\n`".toList).trace.failure?.map (UnclosedCode.below "# T\n".toList) := by
  have ha : EndsLine "# T\n".toList := by decide
  have hs : (State.initial (.start "# T\n".toList)).scan.stop =
      .ok (.initial ⟨"\nT #".toList, []⟩) := by cbv
  have hc : (State.initial ⟨"\nT #".toList, []⟩).IsClean := ⟨rfl, rfl, rfl, rfl, rfl, rfl⟩
  exact ⟨ha, trace_append (b := "x\n`".toList) ha hs hc⟩

end Roffdown
