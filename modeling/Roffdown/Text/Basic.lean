/-!
# Texts

A text is the list of its characters.

* `splitAtFirst_eq_some_iff`: cutting at the first `c` leaves a part without `c`, and loses nothing.
* `join_split`: the parts between the places of a character make up the text.
* `eq_firstLine_or`, `head?_split`: the first line, and that it is the first of all lines.
* `ofLines`: lines, each ended by a newline.
* `trim`: `trimStart` and `trimEnd` by a class of characters.
* `ofNat`: the decimal digits of a number.
-/

namespace Roffdown

/-- A text, as the list of its characters. -/
abbrev Text := List Char

namespace Text

/-- Number of bytes that a text takes in UTF-8. -/
def utf8Length : Text → Nat
  | [] => 0
  | c :: t => c.utf8Size + utf8Length t

@[simp] theorem utf8Length_nil : utf8Length [] = 0 := rfl

@[simp] theorem utf8Length_cons (c : Char) (t : Text) :
    utf8Length (c :: t) = c.utf8Size + utf8Length t := rfl

@[simp] theorem utf8Length_append (s t : Text) :
    utf8Length (s ++ t) = utf8Length s + utf8Length t := by
  induction s with
  | nil => simp
  | cons c s ih => simp [ih, Nat.add_assoc]

/-! ## Cutting -/

/-- The parts before and after the first `c`. -/
def splitAtFirst (c : Char) : Text → Option (Text × Text)
  | [] => none
  | x :: t => if x = c then some ([], t) else (splitAtFirst c t).map fun p => (x :: p.1, p.2)

theorem splitAtFirst_eq_some_iff {c : Char} {t a b : Text} :
    splitAtFirst c t = some (a, b) ↔ t = a ++ c :: b ∧ c ∉ a := by
  induction t generalizing a with
  | nil => simp [splitAtFirst]
  | cons x t ih =>
    by_cases h : x = c
    · subst h
      cases a with
      | nil => simp [splitAtFirst]
      | cons y a => simp +contextual [splitAtFirst, eq_comm]
    · cases a with
      | nil => simp [splitAtFirst, h]
      | cons y a =>
        simp only [splitAtFirst, h, if_false, Option.map_eq_some_iff, Prod.exists, Prod.mk.injEq,
          List.cons.injEq, List.cons_append, List.mem_cons, not_or]
        constructor
        · rintro ⟨p, q, hs, ⟨rfl, rfl⟩, rfl⟩
          exact ⟨⟨rfl, (ih.1 hs).1⟩, fun e => h e.symm, (ih.1 hs).2⟩
        · rintro ⟨⟨rfl, ht⟩, _, hc⟩
          exact ⟨a, b, ih.2 ⟨ht, hc⟩, ⟨rfl, rfl⟩, rfl⟩

theorem splitAtFirst_eq_none_iff {c : Char} {t : Text} : splitAtFirst c t = none ↔ c ∉ t := by
  induction t with
  | nil => simp [splitAtFirst]
  | cons x t ih =>
    by_cases h : x = c
    · simp [splitAtFirst, h]
    · simp [splitAtFirst, h, ih, Ne.symm h]

theorem drop_length_takeWhile (p : Char → Bool) (t : Text) :
    t.drop (t.takeWhile p).length = t.dropWhile p := by
  have h : (t.takeWhile p ++ t.dropWhile p).drop (t.takeWhile p).length = t.dropWhile p :=
    List.drop_left
  rwa [List.takeWhile_append_dropWhile] at h

section

variable {c : Char} {t : Text} (h : c ∉ t) (u : Text)
include h

theorem takeWhile_bne_append : (t ++ u).takeWhile (· != c) = t ++ u.takeWhile (· != c) := by
  refine List.takeWhile_append_of_pos fun x hx => ?_
  rw [bne_iff_ne]
  rintro rfl
  exact h hx

theorem dropWhile_bne_append : (t ++ u).dropWhile (· != c) = u.dropWhile (· != c) := by
  refine List.dropWhile_append_of_pos fun x hx => ?_
  rw [bne_iff_ne]
  rintro rfl
  exact h hx

end

/-- The first line, without its newline. -/
def firstLine (t : Text) : Text := t.takeWhile (· != '\n')

theorem eq_firstLine_or (t : Text) :
    t = firstLine t ∨ ∃ u, t = firstLine t ++ '\n' :: u := by
  have ht : firstLine t ++ t.dropWhile (· != '\n') = t := List.takeWhile_append_dropWhile
  cases hd : t.dropWhile (· != '\n') with
  | nil =>
    rw [hd, List.append_nil] at ht
    exact .inl ht.symm
  | cons c u =>
    have hc := List.head?_dropWhile_not (· != '\n') t
    simp only [hd, List.head?_cons, bne_eq_false_iff_eq] at hc
    subst hc
    rw [hd] at ht
    exact .inr ⟨u, ht.symm⟩

theorem newline_not_mem_firstLine (t : Text) : '\n' ∉ firstLine t := by
  intro h
  have hp := List.all_eq_true.1 List.all_takeWhile _ h
  simp at hp

theorem firstLine_append {t : Text} (h : '\n' ∉ t) (u : Text) : firstLine (t ++ '\n' :: u) = t := by
  rw [firstLine, takeWhile_bne_append h, List.takeWhile_cons_of_neg (by simp), List.append_nil]

theorem firstLine_of_newline_not_mem {t : Text} (h : '\n' ∉ t) : firstLine t = t := by
  rcases eq_firstLine_or t with ht | ⟨u, ht⟩
  · exact ht.symm
  · rw [ht] at h
    exact absurd (List.mem_append_right _ List.mem_cons_self) h

/-- The text after the first newline; nothing when there is none. -/
def afterLine? (t : Text) : Option Text := (splitAtFirst '\n' t).map Prod.snd

theorem afterLine?_eq_none_iff {t : Text} : afterLine? t = none ↔ '\n' ∉ t := by
  rw [afterLine?, Option.map_eq_none_iff, splitAtFirst_eq_none_iff]

theorem drop_firstLine (t : Text) :
    t.drop ((firstLine t).length + 1) = (afterLine? t).getD [] := by
  have hline := newline_not_mem_firstLine t
  rcases eq_firstLine_or t with ht | ⟨u, ht⟩
  · have hnone : afterLine? t = none := by
      rwa [afterLine?_eq_none_iff, ht]
    rw [hnone, ← ht]
    exact List.drop_of_length_le (Nat.le_succ _)
  · rw [afterLine?, splitAtFirst_eq_some_iff.2 ⟨ht, hline⟩]
    generalize firstLine t = line at ht
    rw [ht, ← List.drop_drop, List.drop_left]
    rfl

/-- The lines written one after the other, each ended by a newline. -/
def ofLines (lines : List Text) : Text := lines.flatMap (· ++ ['\n'])

@[simp] theorem ofLines_nil : ofLines [] = [] := rfl

@[simp] theorem ofLines_append (a b : List Text) : ofLines (a ++ b) = ofLines a ++ ofLines b := by
  simp [ofLines]

/-- The parts of a text between the places of a character. -/
def split (c : Char) : Text → List Text
  | [] => [[]]
  | x :: t =>
    if x = c then [] :: split c t
    else
      match split c t with
      | [] => [[x]]
      | part :: parts => (x :: part) :: parts

/-- Parts with a character between them. -/
def join (c : Char) : List Text → Text
  | [] => []
  | [part] => part
  | part :: parts => part ++ c :: join c parts

theorem join_cons_cons (c : Char) (part next : Text) (parts : List Text) :
    join c (part :: next :: parts) = part ++ c :: join c (next :: parts) := rfl

theorem split_ne_nil (c : Char) (t : Text) : split c t ≠ [] := by
  cases t with
  | nil => simp [split]
  | cons x t =>
    rw [split]
    split
    · simp
    · split <;> simp

theorem join_split (c : Char) (t : Text) : join c (split c t) = t := by
  induction t with
  | nil => rfl
  | cons x t ih =>
    rw [split]
    by_cases h : x = c
    · rw [if_pos h]
      cases hs : split c t with
      | nil => exact absurd hs (split_ne_nil c t)
      | cons part parts =>
        rw [hs] at ih
        simp [join, ih, h]
    · rw [if_neg h]
      cases hs : split c t with
      | nil => exact absurd hs (split_ne_nil c t)
      | cons part parts =>
        rw [hs] at ih
        cases parts <;> simpa [join] using ih

theorem split_append (c : Char) (t u : Text) :
    split c (t ++ c :: u) = split c t ++ split c u := by
  induction t with
  | nil => simp [split]
  | cons x t ih =>
    rw [List.cons_append, split, split, ih]
    by_cases h : x = c
    · rw [if_pos h, if_pos h]
      rfl
    · rw [if_neg h, if_neg h]
      obtain ⟨part, parts, hs⟩ := List.exists_cons_of_ne_nil (split_ne_nil c t)
      rw [hs]
      rfl

theorem head?_split (t : Text) : (split '\n' t).head? = some (firstLine t) := by
  induction t with
  | nil => rfl
  | cons x t ih =>
    rw [split]
    by_cases h : x = '\n'
    · subst h
      rfl
    · obtain ⟨part, parts, hs⟩ := List.exists_cons_of_ne_nil (split_ne_nil '\n' t)
      rw [hs, List.head?_cons, Option.some.injEq] at ih
      rw [if_neg h, hs, ih]
      simp [firstLine, h]

/-! ## Trimming -/

/-- Drops the characters of a class from the beginning. -/
def trimStart (p : Char → Bool) (t : Text) : Text := t.dropWhile p

/-- Drops the characters of a class from the end. -/
def trimEnd (p : Char → Bool) (t : Text) : Text := (t.reverse.dropWhile p).reverse

/-- Drops the characters of a class from both ends. -/
def trim (p : Char → Bool) (t : Text) : Text := trimEnd p (trimStart p t)

/-! ## Numbers -/

/-- The decimal digits of a number. -/
def ofNat (n : Nat) : Text := Nat.toDigits 10 n

/-- The decimal digits of a number, after a minus sign when it is negative. -/
def ofInt : Int → Text
  | .ofNat n => ofNat n
  | .negSucc n => '-' :: ofNat (n + 1)

/-- Digits filled up to a width with zeros in front. -/
def zeroPadded (width : Nat) (t : Text) : Text := List.replicate (width - t.length) '0' ++ t

/-- The value of a character as a digit in bases up to sixteen. -/
def digitValue (c : Char) : Nat :=
  if c.isDigit then c.toNat - 48 else if c.isLower then c.toNat - 87 else c.toNat - 55

/-- The number that a run of digits writes in a base. -/
def toNat (base : Nat) (digits : Text) : Nat :=
  digits.foldl (fun n c => n * base + digitValue c) 0

end Text

end Roffdown
