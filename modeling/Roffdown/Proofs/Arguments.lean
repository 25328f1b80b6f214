import Mathlib.Data.List.Forall2
import Roffdown.Proofs.Requests

/-!
# Arguments of requests

roff cuts what follows the name of a request into arguments at its spaces, unless a double quote
begins an argument: then it goes on to the next double quote, and two of them stand for one.  The
packages write some texts of a document in quotes and some bare.  One in quotes is one argument,
whatever it says.  A bare one is the argument it should be only when it is a word.

* `Roff.arguments`, `Roff.requestArguments`: roff's reading of arguments.
* `Roff.Spells`: an argument that says a text, where a double quote may be written `\(dq`.
* `Roff.arguments_quoted`, `Roff.arguments_of_isBare`: texts in quotes and words.
* `Roff.isBare_or_of_spells`: what a bare text is when its argument says it.
* `request_arguments_are_split`: the requests that are written for titles, targets and names.
-/

namespace Roffdown

open Markdown Roff Text

namespace Roff

/-! ## How roff reads arguments -/

/-- The inside of a quoted argument, where two double quotes stand for one, and what is left after
the quote that closes it.  Without such a quote the argument goes on to the end of the line. -/
def quotedArgument : Text → Text × Text
  | [] => ([], [])
  | '"' :: '"' :: t => ('"' :: (quotedArgument t).1, (quotedArgument t).2)
  | '"' :: t => ([], t)
  | c :: t => (c :: (quotedArgument t).1, (quotedArgument t).2)

theorem quotedArgument_double (t : Text) :
    quotedArgument ('"' :: '"' :: t) = ('"' :: (quotedArgument t).1, (quotedArgument t).2) := by
  rw [quotedArgument]

theorem quotedArgument_close {t : Text} (h : t.head? ≠ some '"') :
    quotedArgument ('"' :: t) = ([], t) := by
  rw [quotedArgument]
  rintro u rfl
  exact h rfl

theorem quotedArgument_char {c : Char} (h : c ≠ '"') (t : Text) :
    quotedArgument (c :: t) = (c :: (quotedArgument t).1, (quotedArgument t).2) := by
  rw [quotedArgument]
  · rintro u rfl
    exact absurd rfl h
  · exact h

theorem length_quotedArgument_le (t : Text) : (quotedArgument t).2.length ≤ t.length := by
  induction t using quotedArgument.induct with
  | case1 => exact Nat.le_refl _
  | case2 t ih =>
    rw [quotedArgument_double, List.length_cons, List.length_cons]
    exact Nat.le_add_right_of_le (Nat.le_add_right_of_le ih)
  | case3 t h =>
    rw [quotedArgument]
    · exact Nat.le_succ _
    · exact h
  | case4 c t h hc ih =>
    rw [quotedArgument]
    · exact Nat.le_succ_of_le ih
    · exact h
    · exact hc

/-- The arguments that a text holds. -/
def arguments : Text → List Text
  | [] => []
  | c :: t =>
    if c = ' ' then arguments t
    else if c = '"' then (quotedArgument t).1 :: arguments (quotedArgument t).2
    else (c :: t.takeWhile (· != ' ')) :: arguments (t.dropWhile (· != ' '))
termination_by t => t.length
decreasing_by
  · exact Nat.lt_succ_self _
  · exact Nat.lt_succ_of_le (length_quotedArgument_le t)
  · exact Nat.lt_succ_of_le (List.dropWhile_suffix _).length_le

/-- The arguments of a request, after its name. -/
def requestArguments (line : Text) : List Text := arguments (line.drop (firstWord line).length)

@[simp] theorem arguments_nil : arguments [] = [] := by rw [arguments]

@[simp] theorem arguments_space (t : Text) : arguments (' ' :: t) = arguments t := by
  rw [arguments, if_pos rfl]

theorem arguments_quote (t : Text) :
    arguments ('"' :: t) = (quotedArgument t).1 :: arguments (quotedArgument t).2 := by
  rw [arguments, if_neg (by decide), if_pos rfl]

theorem arguments_char {c : Char} (hs : c ≠ ' ') (hq : c ≠ '"') (t : Text) :
    arguments (c :: t) = (c :: t.takeWhile (· != ' ')) :: arguments (t.dropWhile (· != ' ')) := by
  rw [arguments, if_neg hs, if_neg hq]

/-! ## What arguments say -/

/-- An argument that says a text: a double quote of the text may be written `\(dq`. -/
inductive Spells : Text → Text → Prop
  | nil : Spells [] []
  | char (c : Char) {t a : Text} (h : Spells t a) : Spells (c :: t) (c :: a)
  | quote {t a : Text} (h : Spells t a) : Spells ('"' :: t) ("\\(dq".toList ++ a)

namespace Spells

theorem refl (t : Text) : Spells t t := by
  induction t with
  | nil => exact .nil
  | cons c t ih => exact .char c ih

theorem quotedBody (t : Text) : Spells t (quotedBody t) := by
  induction t with
  | nil => exact .nil
  | cons c t ih =>
    rw [Roff.quotedBody, List.flatMap_cons]
    split
    · rename_i hc
      subst hc
      exact .quote ih
    · exact .char c ih

variable {t a : Text}

theorem eq_nil (h : Spells t []) : t = [] := by
  cases h
  rfl

/-- Only a double quote is written otherwise, and its spelling begins with a backslash. -/
theorem of_cons {x y : Char} (h : Spells (x :: t) (y :: a)) (hy : y ≠ '\\') :
    x = y ∧ Spells t a := by
  cases h with
  | char _ h => exact ⟨rfl, h⟩
  | quote => exact absurd rfl hy

theorem mem (h : Spells t a) {c : Char} (hc : c ∈ t) (hq : c ≠ '"') : c ∈ a := by
  induction h with
  | nil => exact hc
  | char x h ih =>
    rcases List.mem_cons.1 hc with rfl | hc
    · exact List.mem_cons_self
    · exact List.mem_cons_of_mem x (ih hc)
  | quote h ih => exact List.mem_append_right _ (ih ((List.mem_cons.1 hc).resolve_left hq))

end Spells

/-- roff reads a line as the request of a name, and its arguments say the texts in their order. -/
structure ReadsAs (line name : Text) (texts : List Text) : Prop where
  firstWord_eq : firstWord line = name
  arguments : List.Forall₂ Spells texts (requestArguments line)

theorem firstWord_append_space {name : Text} (h : ' ' ∉ name) (t : Text) :
    firstWord (name ++ ' ' :: t) = name := by
  rw [firstWord, takeWhile_bne_append h, List.takeWhile_cons_of_neg (by decide), List.append_nil]

theorem requestArguments_append_space {name : Text} (h : ' ' ∉ name) (t : Text) :
    requestArguments (name ++ ' ' :: t) = arguments t := by
  rw [requestArguments, firstWord_append_space h, List.drop_left, arguments_space]

theorem requestArguments_requestLine {name : Text} (h : ' ' ∉ name) (t : Text) :
    requestArguments (requestLine name t) = arguments t := by
  rw [requestArguments, firstWord_requestLine h, requestLine]
  split
  · rename_i ht
    rw [List.drop_length, List.isEmpty_iff.1 ht]
  · rw [List.drop_left, arguments_space]

/-! ## Texts in quotes -/

theorem quotedArgument_append {t : Text} (h : '"' ∉ t) {u : Text} (hu : u.head? ≠ some '"') :
    quotedArgument (t ++ '"' :: u) = (t, u) := by
  induction t with
  | nil => exact quotedArgument_close hu
  | cons c t ih =>
    rw [List.mem_cons, not_or] at h
    rw [List.cons_append, quotedArgument_char (Ne.symm h.1), ih h.2]

/-- A text in quotes is one argument. -/
theorem arguments_quoted (t : Text) : arguments (quoted t) = [quotedBody t] := by
  have hclose := quotedArgument_append (quote_not_mem_quotedBody t) (u := []) (by decide)
  rw [quoted, List.cons_append, arguments_quote, hclose, arguments_nil]

/-! ## Bare texts -/

/-- A text that is a word of its own: neither a space nor a quote at its beginning cuts it. -/
structure IsBare (t : Text) : Prop where
  ne_nil : t ≠ []
  space_not_mem : ' ' ∉ t
  head?_ne : t.head? ≠ some '"'

instance (t : Text) : Decidable (IsBare t) :=
  decidable_of_iff (t ≠ [] ∧ ' ' ∉ t ∧ t.head? ≠ some '"')
    ⟨fun h => ⟨h.1, h.2.1, h.2.2⟩, fun h => ⟨h.ne_nil, h.space_not_mem, h.head?_ne⟩⟩

/-- Where a word ends: before a space, or with the text. -/
def AtSpace (u : Text) : Prop := u = [] ∨ ∃ v, u = ' ' :: v

/-- A word is one argument. -/
theorem IsBare.arguments_append {t u : Text} (h : IsBare t) (hu : AtSpace u) :
    arguments (t ++ u) = t :: arguments u := by
  obtain ⟨hne, hs, hq⟩ := h
  cases t with
  | nil => exact absurd rfl hne
  | cons c t =>
    rw [List.mem_cons, not_or] at hs
    have hc : c ≠ '"' := fun hc => hq (congrArg some hc)
    rw [List.cons_append, arguments_char (Ne.symm hs.1) hc, takeWhile_bne_append hs.2,
      dropWhile_bne_append hs.2]
    rcases hu with rfl | ⟨v, rfl⟩
    · rw [List.takeWhile_nil, List.dropWhile_nil, List.append_nil]
    · rw [List.takeWhile_cons_of_neg (by decide), List.dropWhile_cons_of_neg (by decide),
        List.append_nil]

/-- Spaces and quotes, with a quote among them: what is still to be said of a text when the quotes
at its beginning have been read without being said. -/
structure IsOwed (p : Text) : Prop where
  eq_or : ∀ c ∈ p, c = ' ' ∨ c = '"'
  quote_mem : '"' ∈ p

section

variable {p q r u a : Text} {c : Char}

theorem IsOwed.of_space (h : IsOwed (' ' :: p)) : IsOwed p :=
  ⟨fun c hc => h.eq_or c (List.mem_cons_of_mem ' ' hc),
    (List.mem_cons.1 h.quote_mem).resolve_left (by decide)⟩

theorem IsOwed.rotate (h : IsOwed (c :: p)) : IsOwed (p ++ [c]) where
  eq_or x hx := h.eq_or x ((List.perm_append_singleton c p).mem_iff.1 hx)
  quote_mem := (List.perm_append_singleton c p).mem_iff.2 h.quote_mem

theorem IsOwed.concat (h : IsOwed p) : IsOwed (p ++ ['"']) where
  eq_or x hx := (List.mem_append.1 hx).elim (h.eq_or x) fun hx => .inr (List.mem_singleton.1 hx)
  quote_mem := List.mem_append_left _ h.quote_mem

theorem IsOwed.not_spells_nil (h : IsOwed p) : ¬ Spells (p ++ r) [] := fun hs =>
  List.ne_nil_of_mem h.quote_mem (List.append_eq_nil_iff.1 hs.eq_nil).1

/-- What is owed is said by what is read first. -/
theorem IsOwed.exists_cons (hp : IsOwed p) (h : Spells (p ++ r) (c :: a)) (hc : c ≠ '\\') :
    ∃ q, p = c :: q ∧ Spells (q ++ r) a := by
  obtain ⟨x, q, rfl⟩ := List.exists_cons_of_ne_nil (List.ne_nil_of_mem hp.quote_mem)
  obtain ⟨rfl, ha⟩ := h.of_cons hc
  exact ⟨q, rfl, ha⟩

/-- A quoted argument that owes a quote never comes to the end of saying a text: what it reads of
the text pays what it owes, and is owed in its turn.  So it goes on behind the text. -/
theorem exists_overrun (hu : AtSpace u) (hp : IsOwed p) (hr : '\\' ∉ r)
    (h : Spells (p ++ r) (quotedArgument (r ++ u)).1) :
    ∃ v q, u = ' ' :: v ∧ IsOwed q ∧ Spells q (quotedArgument v).1 ∧
      (quotedArgument (r ++ u)).2 = (quotedArgument v).2 := by
  -- By the reading of `r`: a character of it leaves the beginning of `p` and comes to its end.
  induction r using quotedArgument.induct generalizing p with
  | case1 =>
    rcases hu with rfl | ⟨v, rfl⟩
    · exact absurd h hp.not_spells_nil
    · rw [List.nil_append, quotedArgument_char (by decide)] at h ⊢
      obtain ⟨q, rfl, ha⟩ := hp.exists_cons h (by decide)
      rw [List.append_nil] at ha
      exact ⟨v, q, rfl, hp.of_space, ha, rfl⟩
  | case2 r ih =>
    rw [List.cons_append, List.cons_append, quotedArgument_double] at h ⊢
    obtain ⟨q, rfl, ha⟩ := hp.exists_cons h (by decide)
    rw [List.append_cons, List.append_cons] at ha
    simp only [List.mem_cons, not_or] at hr
    exact ih hp.rotate.concat hr.2.2 ha
  | case3 r hne =>
    have hhead : (r ++ u).head? ≠ some '"' := by
      cases r with
      | nil => rcases hu with rfl | ⟨v, rfl⟩ <;> simp
      | cons x r =>
        intro hx
        obtain rfl : x = '"' := Option.some.inj hx
        exact hne r rfl
    rw [List.cons_append, quotedArgument_close hhead] at h
    exact absurd h hp.not_spells_nil
  | case4 c r hne hc ih =>
    rw [List.mem_cons, not_or] at hr
    rw [List.cons_append, quotedArgument_char hc] at h ⊢
    obtain ⟨q, rfl, ha⟩ := hp.exists_cons h (Ne.symm hr.1)
    rw [List.append_cons] at ha
    exact ih hp.rotate hr.2 ha

/-- A text is a word if it is said by what stands in it before its first space. -/
theorem isBare_of_spells {t : Text} (hs : c ≠ ' ') (hq : c ≠ '"')
    (h : Spells t ((t ++ u).takeWhile (· != ' '))) : IsBare (c :: t) where
  ne_nil := List.cons_ne_nil c t
  space_not_mem hm := by
    have hm := (List.mem_cons.1 hm).resolve_left (Ne.symm hs)
    have hne := List.all_eq_true.1 List.all_takeWhile _ (h.mem hm (by decide))
    exact absurd hne (by decide)
  head?_ne hc := hq (Option.some.inj hc)

/-- A text after spaces: roff passes over them, so an argument does not say them. -/
theorem isBare_or_of_spells_after {t : Text} {rest : List Text} (hu : AtSpace u)
    (hp : ∀ x ∈ p, x = ' ') (ht : '\\' ∉ t) (h : arguments (t ++ u) = a :: rest)
    (hs : Spells (p ++ t) a) :
    (p = [] ∧ IsBare t) ∨ ((∀ x ∈ p ++ t, x = ' ') ∧ arguments u = a :: rest) ∨
      ∃ v q, u = ' ' :: v ∧ IsOwed q ∧ Spells q (quotedArgument v).1 ∧
        arguments (quotedArgument v).2 = rest := by
  -- The spaces at the beginning of `t` move to `p` one by one, until something else is read.
  induction t generalizing p with
  | nil => exact .inr (.inl ⟨by rwa [List.append_nil], h⟩)
  | cons c t ih =>
    rw [List.mem_cons, not_or] at ht
    by_cases hspace : c = ' '
    · subst hspace
      rw [List.cons_append, arguments_space] at h
      rw [List.append_cons] at hs ⊢
      have hp' : ∀ x ∈ p ++ [' '], x = ' ' := by
        simpa [or_imp, forall_and] using hp
      obtain ⟨hnil, -⟩ | hrest := ih hp' ht.2 h hs
      · exact absurd hnil (by simp)
      · exact .inr hrest
    by_cases hquote : c = '"'
    · subst hquote
      rw [List.cons_append, arguments_quote, List.cons.injEq] at h
      obtain ⟨rfl, rfl⟩ := h
      rw [List.append_cons] at hs
      have howed : IsOwed (p ++ ['"']) :=
        ⟨fun x hx => (List.mem_append.1 hx).imp (hp x) List.mem_singleton.1,
          List.mem_append_right p List.mem_cons_self⟩
      obtain ⟨v, q, hv, hq, hspell, hrest⟩ := exists_overrun hu howed ht.2 hs
      exact .inr (.inr ⟨v, q, hv, hq, hspell, congrArg arguments hrest.symm⟩)
    · rw [List.cons_append, arguments_char hspace hquote, List.cons.injEq] at h
      obtain ⟨rfl, -⟩ := h
      cases p with
      | nil =>
        obtain ⟨-, hs⟩ := hs.of_cons (Ne.symm ht.1)
        exact .inl ⟨rfl, isBare_of_spells hspace hquote hs⟩
      | cons x p =>
        obtain ⟨rfl, -⟩ := hs.of_cons (Ne.symm ht.1)
        exact absurd (hp x List.mem_cons_self) hspace

/-- **What a bare text is when its argument says it.**  It is a word, or else it has no part in the
argument, which comes from behind it: the text is nothing but spaces, or it begins with a quote and
the argument goes on behind it. -/
theorem isBare_or_of_spells {t : Text} {rest : List Text} (hu : AtSpace u) (ht : '\\' ∉ t)
    (h : arguments (t ++ u) = a :: rest) (hs : Spells t a) :
    IsBare t ∨ ((∀ x ∈ t, x = ' ') ∧ arguments u = a :: rest) ∨
      ∃ v q, u = ' ' :: v ∧ IsOwed q ∧ Spells q (quotedArgument v).1 ∧
        arguments (quotedArgument v).2 = rest :=
  (isBare_or_of_spells_after hu (List.forall_mem_nil _) ht h hs).imp_left And.right

theorem IsOwed.not_spells_cons (hp : IsOwed p) (hs : c ≠ ' ') (hq : c ≠ '"') (hb : c ≠ '\\') :
    ¬ Spells p (c :: a) := by
  intro h
  rw [← List.append_nil p] at h
  obtain ⟨q, rfl, -⟩ := hp.exists_cons h hb
  exact (hp.eq_or c List.mem_cons_self).elim hs hq

end

/-! ## Requests -/

section

variable {name t : Text} (h : ' ' ∉ name) {texts : List Text}
include h

theorem readsAs_append_space_iff :
    ReadsAs (name ++ ' ' :: t) name texts ↔ List.Forall₂ Spells texts (arguments t) := by
  rw [← requestArguments_append_space h]
  exact ⟨ReadsAs.arguments, .mk (firstWord_append_space h t)⟩

theorem readsAs_requestLine_iff :
    ReadsAs (requestLine name t) name texts ↔ List.Forall₂ Spells texts (arguments t) := by
  rw [← requestArguments_requestLine h]
  exact ⟨ReadsAs.arguments, .mk (firstWord_requestLine h t)⟩

end

/-- A bare text before one in quotes. -/
theorem forall₂_spells_bare_quoted_iff {t u : Text} (ht : '\\' ∉ t) :
    List.Forall₂ Spells [t, u] (arguments (t ++ ' ' :: quoted u)) ↔ IsBare t := by
  have hu : AtSpace (' ' :: quoted u) := .inr ⟨_, rfl⟩
  constructor
  · intro h
    obtain ⟨a, rest, hs, hrest, ha⟩ := List.forall₂_cons_left_iff.1 h
    obtain hbare | ⟨-, hnone⟩ | ⟨v, q, hv, hq, hspell, hlast⟩ := isBare_or_of_spells hu ht ha hs
    · exact hbare
    · rw [arguments_space, arguments_quoted] at hnone
      obtain ⟨-, rfl⟩ := List.cons.inj hnone
      cases hrest
    · obtain rfl := (List.cons.inj hv).2
      cases hb : quotedBody u with
      | nil =>
        have hempty : arguments (quotedArgument (quoted u)).2 = [] := by
          rw [quoted, hb]
          exact arguments_nil
        rw [hempty] at hlast
        subst hlast
        cases hrest
      | cons c w =>
        have hc : c ≠ '"' := by
          rintro rfl
          exact quote_not_mem_quotedBody u (hb ▸ List.mem_cons_self)
        have hclose : (c :: w ++ ['"']).head? ≠ some '"' := fun h => hc (Option.some.inj h)
        rw [quoted, hb, List.cons_append, quotedArgument_close hclose,
          ← List.append_nil q] at hspell
        exact absurd hspell hq.not_spells_nil
  · intro h
    rw [h.arguments_append hu, arguments_space, arguments_quoted]
    exact .cons (.refl t) (.cons (.quotedBody u) .nil)

/-- A bare text with nothing after it. -/
theorem forall₂_spells_bare_iff {t : Text} (ht : '\\' ∉ t) :
    List.Forall₂ Spells [t] (arguments t) ↔ IsBare t := by
  have hnil : AtSpace [] := .inl rfl
  constructor
  · intro h
    obtain ⟨a, rest, hs, -, ha⟩ := List.forall₂_cons_left_iff.1 h
    rw [← List.append_nil t] at ha
    obtain hbare | ⟨-, hnone⟩ | ⟨v, q, hv, -⟩ := isBare_or_of_spells hnil ht ha hs
    · exact hbare
    · rw [arguments_nil] at hnone
      cases hnone
    · cases hv
  · intro h
    rw [← List.append_nil t, h.arguments_append hnil, arguments_nil, List.append_nil]
    exact .cons (.refl t) .nil

/-- A bare text before a word, with more after both. -/
theorem exists_forall₂_spells_bare_iff {t w u : Text} (ht : '\\' ∉ t) (hw : IsBare w)
    (hb : '\\' ∉ w) (hu : AtSpace u) :
    (∃ more, List.Forall₂ Spells (t :: w :: more) (arguments (t ++ ' ' :: (w ++ u)))) ↔
      IsBare t := by
  have hwu : AtSpace (' ' :: (w ++ u)) := .inr ⟨_, rfl⟩
  constructor
  · rintro ⟨more, h⟩
    obtain ⟨a, rest, hs, -, ha⟩ := List.forall₂_cons_left_iff.1 h
    obtain hbare | ⟨hblank, hnext⟩ | ⟨v, q, hv, hq, hspell, -⟩ :=
      isBare_or_of_spells hwu ht ha hs
    · exact hbare
    · rw [arguments_space, hw.arguments_append hu] at hnext
      obtain ⟨rfl, -⟩ := List.cons.inj hnext
      cases t with
      | nil =>
        cases hs
        exact absurd rfl hw.ne_nil
      | cons c t =>
        obtain rfl := hblank c List.mem_cons_self
        exact absurd (hs.mem List.mem_cons_self (by decide)) hw.space_not_mem
    · obtain rfl := (List.cons.inj hv).2
      obtain ⟨c, w, rfl⟩ := List.exists_cons_of_ne_nil hw.ne_nil
      have hs : c ≠ ' ' := fun h => hw.space_not_mem (h ▸ List.mem_cons_self)
      have hq' : c ≠ '"' := fun h => hw.head?_ne (congrArg some h)
      have hb' : c ≠ '\\' := fun h => hb (h ▸ List.mem_cons_self)
      rw [List.cons_append, quotedArgument_char hq'] at hspell
      exact absurd hspell (hq.not_spells_cons hs hq' hb')
  · intro h
    rw [h.arguments_append hwu, arguments_space, hw.arguments_append hu]
    exact ⟨arguments u, List.forall₂_same.2 fun x _ => .refl x⟩

end Roff

theorem readsAs_heading (rank : SectionRank) (title : Text) :
    ReadsAs (".HEADING ".toList ++ MacroPackage.momLevel rank ++ ' ' :: quoted title)
      ".HEADING".toList [MacroPackage.momLevel rank, title] := by
  have hlevel : IsBare (MacroPackage.momLevel rank) := by cases rank <;> decide
  have hb : '\\' ∉ MacroPackage.momLevel rank := by cases rank <;> decide
  have hname : ' ' ∉ ".HEADING".toList := by decide
  rw [List.append_assoc]
  exact (readsAs_append_space_iff hname).2 ((forall₂_spells_bare_quoted_iff hb).2 hlevel)

/-- **How requests are cut into arguments.**  What the macros for typeset documents write in quotes
is one argument whatever it says: the title of a section, after its level, and the name of a
document.  What is written bare, as the target of a link and the name of a document are in man
pages, is the argument that it should be exactly when it is a word. -/
theorem request_arguments_are_split (rank : SectionRank) (title : Text) (l : Link)
    (facts : HeaderFacts) (lists : OpenLists) :
    (∃ line, MacroPackage.mom.lines (.heading rank title) lists = [line] ∧
      ReadsAs line ".HEADING".toList [MacroPackage.momLevel rank, title]) ∧
    (∃ line, (MacroPackage.mom.header facts).head? = some line ∧
      ReadsAs line ".TITLE".toList [facts.name]) ∧
    (l.isMail = false → '\\' ∉ l.target →
      (∃ line, MacroPackage.mdoc.lines (.link l) lists = [line] ∧
        (ReadsAs line ".Lk".toList [l.target, l.title] ↔ IsBare l.target)) ∧
      ∃ line, MacroPackage.man.lines (.link l) lists = [line, textLine l.title, ".UE".toList] ∧
        (ReadsAs line ".UR".toList [l.target] ↔ IsBare l.target)) ∧
    (facts.titleLine = none → '\\' ∉ facts.name → IsBare facts.fields.manualSection →
      '\\' ∉ facts.fields.manualSection →
      ∃ line, (∀ d ∈ [Dialect.man, .mdoc], d.package.header facts = [line]) ∧
        ((∃ more, ReadsAs line ".TH".toList (facts.name :: facts.fields.manualSection :: more)) ↔
          IsBare facts.name)) := by
  refine ⟨⟨_, rfl, readsAs_heading rank title⟩, ?_, ?_, ?_⟩
  · refine ⟨".TITLE".toList ++ ' ' :: quoted facts.name, rfl, ?_⟩
    rw [readsAs_append_space_iff (by decide), arguments_quoted]
    exact .cons (.quotedBody _) .nil
  · intro hmail ht
    constructor
    · refine ⟨".Lk".toList ++ ' ' :: (l.target ++ ' ' :: quoted l.title), ?_, ?_⟩
      · simp only [MacroPackage.mdoc, hmail]
        rfl
      · rw [readsAs_append_space_iff (by decide), forall₂_spells_bare_quoted_iff ht]
    · refine ⟨requestLine ".UR".toList l.target, ?_, ?_⟩
      · simp only [MacroPackage.man, hmail]
        rfl
      · rw [readsAs_requestLine_iff (by decide), forall₂_spells_bare_iff ht]
  · intro hnone hn hw hb
    generalize hafter : ' ' :: facts.date.text ++ ' ' :: facts.fields.origin = after
    have hat : AtSpace after := .inr ⟨_, hafter.symm⟩
    refine ⟨".TH".toList ++ ' ' :: (facts.name ++ ' ' :: (facts.fields.manualSection ++ after)),
      ?_, ?_⟩
    · have hline : MacroPackage.titleHeading facts = [".TH".toList ++ ' ' ::
          (facts.name ++ ' ' :: (facts.fields.manualSection ++ after))] := by
        simp [MacroPackage.titleHeading, hnone, ← hafter]
      exact List.forall_mem_cons.2 ⟨hline, List.forall_mem_singleton.2 hline⟩
    · have hname : ' ' ∉ ".TH".toList := by decide
      simp only [readsAs_append_space_iff hname]
      exact exists_forall₂_spells_bare_iff hn hw hb hat

/-- A title with quotes and spaces, and a target and a name that are words. -/
theorem request_arguments_are_split_at_words :
    let l : Link := ⟨"the \"site\"".toList, "x.org".toList⟩
    let facts : HeaderFacts := ⟨"doc".toList, none, ⟨2024, 5, 1⟩, .standard⟩
    let lists : OpenLists := ⟨[], by decide⟩
    l.isMail = false ∧ '\\' ∉ l.target ∧
      (∃ line, MacroPackage.mdoc.lines (.link l) lists = [line] ∧
        (ReadsAs line ".Lk".toList [l.target, l.title] ↔ IsBare l.target)) ∧
      (∃ line, MacroPackage.man.lines (.link l) lists = [line, textLine l.title, ".UE".toList] ∧
        (ReadsAs line ".UR".toList [l.target] ↔ IsBare l.target)) ∧
      facts.titleLine = none ∧ '\\' ∉ facts.name ∧ IsBare facts.fields.manualSection ∧
      '\\' ∉ facts.fields.manualSection ∧
      (∃ line, (∀ d ∈ [Dialect.man, .mdoc], d.package.header facts = [line]) ∧
        ((∃ more, ReadsAs line ".TH".toList (facts.name :: facts.fields.manualSection :: more)) ↔
          IsBare facts.name)) ∧
      IsBare l.target ∧ IsBare facts.name := by
  intro l facts lists
  obtain ⟨-, -, hlink, hheader⟩ := request_arguments_are_split .major l.title l facts lists
  have hmail : l.isMail = false := by decide
  have htarget : '\\' ∉ l.target := by decide
  have hname : '\\' ∉ facts.name := by decide
  have hsection : IsBare facts.fields.manualSection := by decide
  have hback : '\\' ∉ facts.fields.manualSection := by decide
  obtain ⟨hmdoc, hman⟩ := hlink hmail htarget
  exact ⟨hmail, htarget, hmdoc, hman, rfl, hname, hsection, hback,
    hheader rfl hname hsection hback, by decide, by decide⟩

/-- A target of two words is two arguments of the requests for links, and the second word of a name
stands where the section should. -/
theorem bare_arguments_are_cut :
    let z : Zipper := .start "[t](a b)".toList
    let facts : HeaderFacts := ⟨"my doc".toList, none, ⟨2024, 5, 1⟩, .standard⟩
    z.trace.lines MacroPackage.mdoc = [".Lk a b \"t\"".toList] ∧
      ¬ ReadsAs ".Lk a b \"t\"".toList ".Lk".toList ["a b".toList, "t".toList] ∧
      z.trace.lines MacroPackage.man = [".UR a b".toList, "t".toList, ".UE".toList] ∧
      ¬ ReadsAs ".UR a b".toList ".UR".toList ["a b".toList] ∧
      MacroPackage.man.header facts = [".TH my doc 7 2024-05-01 document".toList] ∧
      ¬ ∃ more, ReadsAs ".TH my doc 7 2024-05-01 document".toList ".TH".toList
        ("my doc".toList :: "7".toList :: more) := by
  intro z facts
  have htarget : ¬ IsBare "a b".toList := by decide
  have hname : ¬ IsBare "my doc".toList := by decide
  refine ⟨by decide +kernel, ?_, by decide +kernel, ?_, by decide +kernel, ?_⟩
  · have hline : ".Lk a b \"t\"".toList =
        ".Lk".toList ++ ' ' :: ("a b".toList ++ ' ' :: quoted "t".toList) := by decide
    rwa [hline, readsAs_append_space_iff (by decide), forall₂_spells_bare_quoted_iff (by decide)]
  · have hline : ".UR a b".toList = requestLine ".UR".toList "a b".toList := by decide
    rwa [hline, readsAs_requestLine_iff (by decide), forall₂_spells_bare_iff (by decide)]
  · have hline : ".TH my doc 7 2024-05-01 document".toList =
        ".TH".toList ++ ' ' :: ("my doc".toList ++
          ' ' :: ("7".toList ++ ' ' :: "2024-05-01 document".toList)) := by decide
    have hrequest : ' ' ∉ ".TH".toList := by decide
    have hb : '\\' ∉ "my doc".toList := by decide
    have hw : IsBare "7".toList := by decide
    simp only [hline, readsAs_append_space_iff hrequest]
    rwa [exists_forall₂_spells_bare_iff hb hw (by decide) (.inr ⟨_, rfl⟩)]

end Roffdown
