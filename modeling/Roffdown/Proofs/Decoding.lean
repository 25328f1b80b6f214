import Mathlib.Data.List.Count
import Roffdown.Proofs.CharacterBytes
import Roffdown.Proofs.Spelling

/-!
# Decoding any bytes

Bytes are decoded whether they are UTF-8 or not.  What is told about that here does not speak of how
it is done: the bytes fall into characters and into broken parts, each of which is as long as
something that could have become a character, and a replacement stands for each of these.  A decoder
that reads byte by byte finds this, because where it stands inside of a character it knows the bytes
that complete it.

* `Broken`, `Decodes`: broken parts, and the text of any bytes.
* `Decoder.Pending`: a decoder that has read the first bytes of a character.
* `Decoder.begin_cases`, `Decoder.Pending.feed_cases`: what one byte does.
* `decodes_iff`: the text of bytes is the one that is decoded.
* `Decodes.append`, `Decodes.filter_ascii`, `Decodes.exists_split`: parts of bytes, their ASCII
  characters, and the bytes above one of these.
* `Document.valid_text_is_kept`: all of it for documents, and the lines that errors tell.
-/

namespace Roffdown

open String Text

namespace Utf8

/-! ## Characters and broken parts -/

/-- The bytes of some character begin with these. -/
def Begins (p : List UInt8) : Prop := ∃ c, p <+: utf8EncodeChar c

/-- A part of bytes that is broken: no character stands where it begins, and it is the longest part
there with which one begins, or a single byte where there is none. -/
structure Broken (p rest : List UInt8) : Prop where
  ne_nil : p ≠ []
  no_char : ∀ c, ¬ utf8EncodeChar c <+: p ++ rest
  begins : Begins p ∨ p.length = 1
  longest : ∀ q, q <+: p ++ rest → Begins q → q.length ≤ p.length

/-- A text of bytes: their characters, and one replacement for each broken part. -/
inductive Decodes : List UInt8 → Text → Prop
  | nil : Decodes [] []
  | char (c : Char) {bytes : List UInt8} {t : Text} (h : Decodes bytes t) :
      Decodes (utf8EncodeChar c ++ bytes) (c :: t)
  | broken {p bytes : List UInt8} {t : Text} (hp : Broken p bytes) (h : Decodes bytes t) :
      Decodes (p ++ bytes) (replacement :: t)

variable {p q rest bytes : List UInt8} {c : Char} {t : Text}

theorem Begins.of_isPrefix (h : Begins q) (hp : p <+: q) : Begins p := by
  obtain ⟨c, hc⟩ := h
  exact ⟨c, hp.trans hc⟩

/-- The first byte of a character does not go on with another one. -/
theorem not_begins_append {b : UInt8} (hp : p ≠ []) (h : utf8EncodeChar c = b :: q) :
    ¬ Begins (p ++ [b]) := by
  rintro ⟨d, r, hd⟩
  obtain ⟨a, p, rfl⟩ := List.exists_cons_of_ne_nil hp
  rw [List.cons_append, List.cons_append] at hd
  refine not_continues_head h (continues_of_mem_tail hd.symm ?_)
  simp

/-- Of the bytes after a broken part, only the first one counts. -/
theorem broken_iff : Broken p rest ↔ p ≠ [] ∧ (∀ c, ¬ utf8EncodeChar c <+: p) ∧
    (Begins p ∨ p.length = 1) ∧ ∀ b ∈ rest.head?, ¬ Begins (p ++ [b]) := by
  constructor
  · intro h
    refine ⟨h.ne_nil, fun c hc => h.no_char c (hc.trans (List.prefix_append _ _)), h.begins, ?_⟩
    intro b hb hbegins
    obtain ⟨rest, rfl⟩ := List.head?_eq_some_iff.1 hb
    have hle := h.longest (p ++ [b]) ⟨rest, by simp⟩ hbegins
    rw [List.length_append, List.length_singleton] at hle
    omega
  · rintro ⟨hne, hno, hbegins, hnext⟩
    have hlong {q : List UInt8} (hq : q <+: p ++ rest) (hb : Begins q) : q.length ≤ p.length := by
      rw [← Nat.not_lt]
      intro hlt
      obtain ⟨r, rfl⟩ :=
        List.prefix_of_prefix_length_le (List.prefix_append p rest) hq (Nat.le_of_lt hlt)
      cases r with
      | nil => exact absurd hlt (by simp)
      | cons b r =>
        rw [List.prefix_append_right_inj] at hq
        obtain ⟨u, rfl⟩ := hq
        exact hnext b rfl (hb.of_isPrefix ⟨r, by simp⟩)
    refine ⟨hne, fun c hc => ?_, hbegins, fun q => hlong⟩
    have hle := hlong hc ⟨c, List.prefix_refl _⟩
    exact hno c (List.prefix_of_prefix_length_le hc (List.prefix_append p rest) hle)

theorem Broken.of_head? {rest' : List UInt8} (h : Broken p rest)
    (hh : ∀ b ∈ rest'.head?, b ∈ rest.head? ∨ ¬ Begins (p ++ [b])) : Broken p rest' := by
  obtain ⟨hne, hno, hbegins, hnext⟩ := broken_iff.1 h
  exact broken_iff.2 ⟨hne, hno, hbegins, fun b hb => (hh b hb).elim (hnext b) id⟩

theorem broken_singleton {b : UInt8} (h : ¬ Begins [b]) : Broken [b] rest := by
  refine broken_iff.2 ⟨List.cons_ne_nil _ _, fun c hc => h ⟨c, ?_⟩, .inr rfl,
    fun x _ hx => h (hx.of_isPrefix ⟨[x], rfl⟩)⟩
  obtain ⟨x, q, hq⟩ := List.exists_cons_of_ne_nil (utf8EncodeChar_ne_nil (c := c))
  rw [hq, List.cons_prefix_cons] at hc
  rw [hq, hc.1]
  exact ⟨q, rfl⟩

/-! ## One text -/

theorem Decodes.of_char {u : Text} (h : Decodes (utf8EncodeChar c ++ bytes) u) :
    ∃ t, u = c :: t ∧ Decodes bytes t := by
  generalize hl : utf8EncodeChar c ++ bytes = l at h
  cases h with
  | nil => exact absurd (List.append_eq_nil_iff.1 hl).1 utf8EncodeChar_ne_nil
  | char d h =>
    obtain ⟨rfl, rfl⟩ := encodeChar_append_inj hl
    exact ⟨_, rfl, h⟩
  | broken hp => exact absurd ⟨_, hl⟩ (hp.no_char c)

theorem Decodes.of_broken {u : Text} (hp : Broken p bytes) (h : Decodes (p ++ bytes) u) :
    ∃ t, u = replacement :: t ∧ Decodes bytes t := by
  generalize hl : p ++ bytes = l at h
  cases h with
  | nil => exact absurd (List.append_eq_nil_iff.1 hl).1 hp.ne_nil
  | char c h => exact absurd (hl ▸ List.prefix_append _ _) (hp.no_char c)
  | @broken q rest t hq h =>
    -- Neither of the two parts is longer than the other.
    have hle {p q bytes rest : List UInt8} (hp : Broken p bytes) (hq : Broken q rest)
        (hl : p ++ bytes = q ++ rest) : p.length ≤ q.length := by
      rcases hp.begins with hb | hb
      · exact hq.longest p (hl ▸ List.prefix_append _ _) hb
      · rw [hb]
        exact List.length_pos_iff.2 hq.ne_nil
    obtain ⟨rfl, rfl⟩ := List.append_inj hl (Nat.le_antisymm (hle hp hq hl) (hle hq hp hl.symm))
    exact ⟨t, rfl, h⟩

theorem Decodes.of_nil {u : Text} (h : Decodes [] u) : u = [] := by
  generalize hl : ([] : List UInt8) = l at h
  cases h with
  | nil => rfl
  | char c h => exact absurd (List.append_eq_nil_iff.1 hl.symm).1 utf8EncodeChar_ne_nil
  | broken hp h => exact absurd (List.append_eq_nil_iff.1 hl.symm).1 hp.ne_nil

/-- **Bytes have one text.** -/
theorem Decodes.unique {u : Text} (h : Decodes bytes t) (h' : Decodes bytes u) : u = t := by
  induction h generalizing u with
  | nil => exact h'.of_nil
  | char c h ih =>
    obtain ⟨t', rfl, ht⟩ := h'.of_char
    rw [ih ht]
  | broken hp h ih =>
    obtain ⟨t', rfl, ht⟩ := h'.of_broken hp
    rw [ih ht]

/-! ## Decoding byte by byte -/

namespace Decoder

/-- The bytes that complete the character that is being read. -/
inductive Completes : Decoder → List UInt8 → Char → Prop
  | last {bits : Nat} {lower upper b : UInt8} (h : lower ≤ b ∧ b ≤ upper) :
      Completes ⟨1, bits, lower, upper⟩ [b] (Char.ofNat (bits * 64 + (b.toNat - 0x80)))
  | next {n bits : Nat} {lower upper b : UInt8} {q : List UInt8} {c : Char}
      (h : lower ≤ b ∧ b ≤ upper)
      (hq : Completes ⟨n + 1, bits * 64 + (b.toNat - 0x80), 0x80, 0xbf⟩ q c) :
      Completes ⟨n + 2, bits, lower, upper⟩ (b :: q) c

/-- A decoder that has read the first bytes of a character, and knows the bytes that complete it. -/
structure Pending (d : Decoder) (p : List UInt8) : Prop where
  needed : d.needed ≠ 0
  range : d.lower ≤ d.upper
  completes : ∀ q c, utf8EncodeChar c = p ++ q ↔ d.Completes q c

section

variable {n bits : Nat} {lower upper : UInt8}

theorem completes_one : Completes ⟨1, bits, lower, upper⟩ q c ↔ ∃ b, q = [b] ∧
    (lower ≤ b ∧ b ≤ upper) ∧ c = Char.ofNat (bits * 64 + (b.toNat - 0x80)) := by
  constructor
  · rintro ⟨h⟩
    exact ⟨_, rfl, h, rfl⟩
  · rintro ⟨b, hq, h, hc⟩
    rw [hq, hc]
    exact .last h

theorem completes_add_two : Completes ⟨n + 2, bits, lower, upper⟩ q c ↔ ∃ b r, q = b :: r ∧
    (lower ≤ b ∧ b ≤ upper) ∧
      Completes ⟨n + 1, bits * 64 + (b.toNat - 0x80), 0x80, 0xbf⟩ r c := by
  constructor
  · rintro (_ | ⟨h, hq⟩)
    exact ⟨_, _, rfl, h, hq⟩
  · rintro ⟨b, r, rfl, h, hq⟩
    exact .next h hq

theorem exists_completes (n bits : Nat) (h : lower ≤ upper) :
    ∃ b q c, Completes ⟨n + 1, bits, lower, upper⟩ (b :: q) c := by
  induction n generalizing bits lower upper with
  | zero => exact ⟨lower, [], _, .last ⟨UInt8.le_refl _, h⟩⟩
  | succ n ih =>
    obtain ⟨b, q, c, hq⟩ := ih (bits * 64 + (lower.toNat - 0x80))
      (show (0x80 : UInt8) ≤ 0xbf by decide)
    exact ⟨lower, b :: q, c, .next ⟨UInt8.le_refl _, h⟩ hq⟩

end

/-! ### The first byte of a character -/

section

variable {b low high lower upper x : UInt8}

theorem lower_le_iff (h : 0x80 ≤ lower) :
    (if b = low then lower else 0x80) ≤ x ↔ 0x80 ≤ x ∧ (b = low → lower ≤ x) := by
  by_cases hb : b = low
  · simp only [hb, if_true, true_implies]
    exact ⟨fun hx => ⟨UInt8.le_trans h hx, hx⟩, And.right⟩
  · simp only [hb, if_false, false_implies, and_true]

theorem le_upper_iff (h : upper ≤ 0xbf) :
    (x ≤ if b = high then upper else 0xbf) ↔ x ≤ 0xbf ∧ (b = high → x ≤ upper) := by
  by_cases hb : b = high
  · simp only [hb, if_true, true_implies]
    exact ⟨fun hx => ⟨UInt8.le_trans hx h, hx⟩, And.right⟩
  · simp only [hb, if_false, false_implies, and_true]

/-- The range of the second byte, which two of the first bytes make smaller. -/
theorem in_range_iff (hl : 0x80 ≤ lower) (hu : upper ≤ 0xbf) :
    ((if b = low then lower else 0x80) ≤ x ∧ x ≤ if b = high then upper else 0xbf) ↔
      (0x80 ≤ x.toNat ∧ x.toNat ≤ 0xbf) ∧ (b.toNat = low.toNat → lower.toNat ≤ x.toNat) ∧
        (b.toNat = high.toNat → x.toNat ≤ upper.toNat) := by
  rw [lower_le_iff hl, le_upper_iff hu, and_and_and_comm, UInt8.toNat_inj, UInt8.toNat_inj]
  exact Iff.rfl

theorem lower_le_upper (hne : low ≠ high) (hl : Continues lower) (hu : Continues upper) :
    (if b = low then lower else 0x80) ≤ if b = high then upper else 0xbf := by
  by_cases hb : b = low
  · rw [if_pos hb, if_neg (hb ▸ hne)]
    exact hl.2
  · rw [if_neg hb, le_upper_iff hu.2]
    exact ⟨by decide, fun _ => hu.1⟩

theorem pending_two (h : 0xc2 ≤ b) (h' : b < 0xe0) :
    Pending ⟨1, b.toNat - 0xc0, 0x80, 0xbf⟩ [b] := by
  refine ⟨Nat.one_ne_zero, show (0x80 : UInt8) ≤ 0xbf by decide, fun q c => ?_⟩
  simp only [encodeChar_eq_iff, List.singleton_append, List.map_cons, completes_one,
    bytesOf_eq_two_iff (UInt8.le_iff_toNat_le.1 h) (UInt8.lt_iff_toNat_lt.1 h')]
  constructor
  · rintro ⟨n, ⟨x, hq, hx, hn⟩, hc⟩
    obtain ⟨x, r, rfl, rfl, hr⟩ := List.map_eq_cons_iff.1 hq
    obtain rfl := List.map_eq_nil_iff.1 hr
    exact ⟨x, rfl, hx, hn ▸ hc⟩
  · rintro ⟨x, rfl, hx, hc⟩
    exact ⟨_, ⟨_, rfl, hx, rfl⟩, hc⟩

theorem pending_three (h : 0xe0 ≤ b) (h' : b < 0xf0) :
    Pending ⟨2, b.toNat - 0xe0, if b = 0xe0 then 0xa0 else 0x80, if b = 0xed then 0x9f else 0xbf⟩
      [b] := by
  refine ⟨Nat.succ_ne_zero 1, lower_le_upper (by decide) (by decide) (by decide), fun q c => ?_⟩
  simp only [encodeChar_eq_iff, List.singleton_append, List.map_cons, completes_one,
    completes_add_two, Nat.zero_add, in_range_iff (show 0x80 ≤ 0xa0 by decide)
    (show 0x9f ≤ 0xbf by decide),
    bytesOf_eq_three_iff (UInt8.le_iff_toNat_le.1 h) (UInt8.lt_iff_toNat_lt.1 h')]
  constructor
  · rintro ⟨n, ⟨x, y, hq, hx, hlow, hhigh, hy, hn⟩, hc⟩
    obtain ⟨x, r, rfl, rfl, hr⟩ := List.map_eq_cons_iff.1 hq
    obtain ⟨y, r, rfl, rfl, hr'⟩ := List.map_eq_cons_iff.1 hr
    obtain rfl := List.map_eq_nil_iff.1 hr'
    exact ⟨x, [y], rfl, ⟨hx, hlow, hhigh⟩, y, rfl, hy, hn ▸ hc⟩
  · rintro ⟨x, r, rfl, ⟨hx, hlow, hhigh⟩, y, rfl, hy, hc⟩
    exact ⟨_, ⟨_, _, rfl, hx, hlow, hhigh, hy, rfl⟩, hc⟩

theorem pending_four (h : 0xf0 ≤ b) (h' : b < 0xf5) :
    Pending ⟨3, b.toNat - 0xf0, if b = 0xf0 then 0x90 else 0x80, if b = 0xf4 then 0x8f else 0xbf⟩
      [b] := by
  refine ⟨Nat.succ_ne_zero 2, lower_le_upper (by decide) (by decide) (by decide), fun q c => ?_⟩
  simp only [encodeChar_eq_iff, List.singleton_append, List.map_cons, completes_one,
    completes_add_two, Nat.zero_add, in_range_iff (show 0x80 ≤ 0x90 by decide)
    (show 0x8f ≤ 0xbf by decide),
    bytesOf_eq_four_iff (UInt8.le_iff_toNat_le.1 h) (UInt8.lt_iff_toNat_lt.1 h')]
  constructor
  · rintro ⟨n, ⟨x, y, z, hq, hx, hlow, hhigh, hy, hz, hn⟩, hc⟩
    obtain ⟨x, r, rfl, rfl, hr⟩ := List.map_eq_cons_iff.1 hq
    obtain ⟨y, r, rfl, rfl, hr'⟩ := List.map_eq_cons_iff.1 hr
    obtain ⟨z, r, rfl, rfl, hr''⟩ := List.map_eq_cons_iff.1 hr'
    obtain rfl := List.map_eq_nil_iff.1 hr''
    exact ⟨x, [y, z], rfl, ⟨hx, hlow, hhigh⟩, y, [z], rfl, hy, z, rfl, hz, hn ▸ hc⟩
  · rintro ⟨x, r, rfl, ⟨hx, hlow, hhigh⟩, y, r, rfl, hy, z, rfl, hz, hc⟩
    exact ⟨_, ⟨_, _, _, rfl, hx, hlow, hhigh, hy, hz, rfl⟩, hc⟩

end

theorem not_begins_singleton {b : UInt8} (h : 0x80 ≤ b) (h' : b < 0xc2 ∨ 0xf5 ≤ b) :
    ¬ Begins [b] := by
  rintro ⟨c, r, hc⟩
  have hb := toNat_head_encodeChar hc.symm
  have hl : 0x80 ≤ b.toNat := UInt8.le_iff_toNat_le.1 h
  have hu : b.toNat < 0xc2 ∨ 0xf5 ≤ b.toNat :=
    h'.imp UInt8.lt_iff_toNat_lt.1 UInt8.le_iff_toNat_le.1
  omega

/-- **What a byte does where a character begins**: it is an ASCII character, it is the first of some
bytes, or it is broken. -/
theorem begin_cases (b : UInt8) :
    (b < 0x80 ∧ begin b = ([Char.ofNat b.toNat], between)) ∨
    (∃ d, Pending d [b] ∧ begin b = ([], d)) ∨
    (¬ Begins [b] ∧ begin b = ([replacement], between)) := by
  by_cases h : b < 0x80
  · exact .inl ⟨h, by rw [begin, if_pos h]⟩
  by_cases h₁ : b < 0xc2
  · exact .inr (.inr ⟨not_begins_singleton (UInt8.not_lt.1 h) (.inl h₁),
      by rw [begin, if_neg h, if_pos h₁]⟩)
  by_cases h₂ : b < 0xe0
  · exact .inr (.inl ⟨_, pending_two (UInt8.not_lt.1 h₁) h₂,
      by rw [begin, if_neg h, if_neg h₁, if_pos h₂]⟩)
  by_cases h₃ : b < 0xf0
  · exact .inr (.inl ⟨_, pending_three (UInt8.not_lt.1 h₂) h₃,
      by rw [begin, if_neg h, if_neg h₁, if_neg h₂, if_pos h₃]⟩)
  by_cases h₄ : b < 0xf5
  · exact .inr (.inl ⟨_, pending_four (UInt8.not_lt.1 h₃) h₄,
      by rw [begin, if_neg h, if_neg h₁, if_neg h₂, if_neg h₃, if_pos h₄]⟩)
  · exact .inr (.inr ⟨not_begins_singleton (UInt8.not_lt.1 h) (.inr (UInt8.not_lt.1 h₄)),
      by rw [begin, if_neg h, if_neg h₁, if_neg h₂, if_neg h₃, if_neg h₄]⟩)

/-! ### Inside of a character -/

variable {d : Decoder}

theorem Pending.exists_char (h : d.Pending p) : ∃ c b q, utf8EncodeChar c = p ++ b :: q := by
  obtain ⟨n, hn⟩ := Nat.exists_eq_succ_of_ne_zero h.needed
  obtain ⟨b, q, c, hq⟩ := exists_completes n d.bits h.range
  rw [← Nat.succ_eq_add_one, ← hn] at hq
  exact ⟨c, b, q, (h.completes _ c).2 hq⟩

theorem Pending.begins (h : d.Pending p) : Begins p := by
  obtain ⟨c, b, q, hc⟩ := h.exists_char
  exact ⟨c, b :: q, hc.symm⟩

/-- The bytes that have been read are broken if they do not go on. -/
theorem Pending.broken (h : d.Pending p) (hp : p ≠ [])
    (hnext : ∀ b ∈ rest.head?, ¬ Begins (p ++ [b])) : Broken p rest := by
  refine broken_iff.2 ⟨hp, fun c hc => ?_, .inl h.begins, hnext⟩
  obtain ⟨e, b, q, he⟩ := h.exists_char
  obtain rfl := eq_of_isPrefix_encodeChar (hc.trans ⟨b :: q, he.symm⟩)
  have hle := hc.length_le
  rw [he, List.length_append, List.length_cons] at hle
  omega

/-- **What a byte does inside of a character**: it completes the character, it goes on with it, or
what has been read is broken and something else begins. -/
theorem Pending.feed_cases (h : d.Pending p) (b : UInt8) :
    (∃ c, utf8EncodeChar c = p ++ [b] ∧ d.feed b = ([c], between)) ∨
    (∃ e, Pending e (p ++ [b]) ∧ d.feed b = ([], e)) ∨
    (¬ Begins (p ++ [b]) ∧ d.feed b = (replacement :: (begin b).1, (begin b).2)) := by
  obtain ⟨needed, bits, lower, upper⟩ := d
  by_cases hb : lower ≤ b ∧ b ≤ upper
  · obtain ⟨n, rfl⟩ := Nat.exists_eq_succ_of_ne_zero h.needed
    cases n with
    | zero =>
      refine .inl ⟨_, (h.completes [b] _).2 (.last hb), ?_⟩
      rw [feed, if_neg h.needed, if_pos hb, if_pos rfl]
    | succ n =>
      refine .inr (.inl ⟨⟨n + 1, bits * 64 + (b.toNat - 0x80), 0x80, 0xbf⟩,
        ⟨Nat.succ_ne_zero n, show (0x80 : UInt8) ≤ 0xbf by decide, fun q c => ?_⟩, ?_⟩)
      · rw [List.append_assoc, List.singleton_append, h.completes, completes_add_two]
        constructor
        · rintro ⟨_, _, he, -, hq⟩
          obtain ⟨rfl, rfl⟩ := List.cons.inj he
          exact hq
        · exact fun hq => ⟨b, q, rfl, hb, hq⟩
      · rw [feed, if_neg h.needed, if_pos hb, if_neg (by simp)]
        rfl
  · refine .inr (.inr ⟨?_, by rw [feed, if_neg h.needed, if_neg hb]⟩)
    rintro ⟨c, q, hc⟩
    rw [List.append_assoc, eq_comm, h.completes] at hc
    cases hc with
    | last h => exact hb h
    | next h => exact hb h

/-- The text of bytes, from where decoding stands. -/
def read (d : Decoder) (bytes : List UInt8) : Text :=
  (d.outputs bytes).1 ++ (d.outputs bytes).2.finish

theorem read_cons (d : Decoder) (b : UInt8) (bytes : List UInt8) :
    d.read (b :: bytes) = (d.feed b).1 ++ (d.feed b).2.read bytes := List.append_assoc ..

theorem read_between_cons (b : UInt8) (bytes : List UInt8) :
    between.read (b :: bytes) = (begin b).1 ++ (begin b).2.read bytes := read_cons between b bytes

end Decoder

/-- **Decoding byte by byte finds the text of the bytes**, also from inside of a character. -/
theorem decodes_read (bytes : List UInt8) : Decodes bytes (Decoder.between.read bytes) ∧
    ∀ (d : Decoder) (p : List UInt8), d.Pending p → p ≠ [] →
      Decodes (p ++ bytes) (d.read bytes) := by
  induction bytes with
  | nil =>
    refine ⟨.nil, fun d p hd hp => ?_⟩
    have hread : d.read [] = [replacement] := if_neg hd.needed
    rw [hread]
    exact .broken (hd.broken hp fun b hb => absurd hb (Option.not_mem_none b)) .nil
  | cons b bytes ih =>
    have hbetween : Decodes (b :: bytes) (Decoder.between.read (b :: bytes)) := by
      rw [Decoder.read_between_cons]
      rcases Decoder.begin_cases b with ⟨hb, he⟩ | ⟨d, hd, he⟩ | ⟨hb, he⟩
      · have h := ih.1.char (Char.ofNat b.toNat)
        rw [encodeChar_ofNat hb] at h
        rwa [he]
      · rw [he]
        exact ih.2 d [b] hd (List.cons_ne_nil _ _)
      · rw [he]
        exact .broken (broken_singleton hb) ih.1
    refine ⟨hbetween, fun d p hd hp => ?_⟩
    rw [Decoder.read_cons]
    rcases hd.feed_cases b with ⟨c, hc, he⟩ | ⟨e, hpending, he⟩ | ⟨hb, he⟩
    · have h := ih.1.char c
      rw [hc, List.append_assoc] at h
      rwa [he]
    · have h := ih.2 e _ hpending (List.append_ne_nil_of_left_ne_nil hp _)
      rw [List.append_assoc] at h
      rwa [he]
    · rw [Decoder.read_between_cons] at hbetween
      rw [he]
      refine .broken (hd.broken hp fun x hx => ?_) hbetween
      obtain rfl := Option.some.inj hx
      exact hb

/-- **The text of bytes is the one that is decoded.** -/
theorem decodes_iff : Decodes bytes t ↔ t = decode bytes := by
  have h := (decodes_read bytes).1
  constructor
  · exact h.unique
  · rintro rfl
    exact h

theorem decodes_decode (bytes : List UInt8) : Decodes bytes (decode bytes) := decodes_iff.2 rfl

/-! ## Parts of bytes -/

theorem Decodes.encode_append (h : Decodes bytes t) (s : Text) :
    Decodes (encode s ++ bytes) (s ++ t) := by
  induction s with
  | nil => exact h
  | cons c s ih =>
    rw [encode_cons, List.append_assoc]
    exact ih.char c

/-- **A character begins something new**, whatever stands before it. -/
theorem Decodes.append {a : List UInt8} {u : Text} (h : Decodes a t)
    (hc : utf8EncodeChar c <+: bytes) (hu : Decodes bytes u) : Decodes (a ++ bytes) (t ++ u) := by
  induction h with
  | nil => exact hu
  | char d h ih =>
    rw [List.append_assoc]
    exact ih.char d
  | @broken p rest t hp h ih =>
    rw [List.append_assoc]
    refine .broken (hp.of_head? fun b hb => ?_) ih
    cases rest with
    | cons x rest => exact .inl hb
    | nil =>
      obtain ⟨x, q, hx⟩ := List.exists_cons_of_ne_nil (utf8EncodeChar_ne_nil (c := c))
      obtain ⟨r, rfl⟩ := hc
      rw [hx] at hb
      obtain rfl := Option.some.inj hb
      exact .inr (not_begins_append hp.ne_nil hx)

theorem decode_append_encode_append (a b : List UInt8) {s : Text} (hs : s ≠ []) :
    decode (a ++ encode s ++ b) = decode a ++ s ++ decode b := by
  obtain ⟨c, s, rfl⟩ := List.exists_cons_of_ne_nil hs
  have hprefix : utf8EncodeChar c <+: encode (c :: s) ++ b := ⟨encode s ++ b, by simp⟩
  have h := (decodes_decode a).append hprefix ((decodes_decode b).encode_append (c :: s))
  rw [List.append_assoc, List.append_assoc, ← decodes_iff.1 h]

theorem decode_encode (s : Text) : decode (encode s) = s := by
  have h := Decodes.nil.encode_append s
  rw [List.append_nil, List.append_nil] at h
  exact (decodes_iff.1 h).symm

/-! ## ASCII characters -/

theorem Broken.not_lt (h : Broken p rest) {b : UInt8} (hb : b ∈ p) : ¬ b < 0x80 := by
  intro hlt
  have hno := h.no_char (Char.ofNat b.toNat)
  rw [encodeChar_ofNat hlt] at hno
  rcases h.begins with ⟨c, hc⟩ | hp
  · have hmem : b ∈ utf8EncodeChar c := hc.subset hb
    rw [eq_of_mem_encodeChar hmem hlt, encodeChar_ofNat hlt] at hc
    obtain ⟨x, p, rfl⟩ := List.exists_cons_of_ne_nil h.ne_nil
    rw [(List.cons_prefix_cons.1 hc).1] at hno
    exact hno ⟨p ++ rest, rfl⟩
  · obtain ⟨x, rfl⟩ := List.length_eq_one_iff.1 hp
    rw [List.mem_singleton.1 hb] at hno
    exact hno ⟨rest, rfl⟩

/-- **The ASCII characters of a text are the bytes below 0x80.** -/
theorem Decodes.filter_ascii (h : Decodes bytes t) :
    t.filter isAscii = (bytes.filter (· < 0x80)).map fun b => Char.ofNat b.toNat := by
  induction h with
  | nil => rfl
  | char c h ih =>
    rw [List.filter_append, List.map_append, filter_encodeChar, ← ih, ← List.filter_append]
    rfl
  | @broken p rest t hp h ih =>
    have hnone : p.filter (· < 0x80) = [] := by
      rw [List.filter_eq_nil_iff]
      intro b hb hlt
      exact hp.not_lt hb (of_decide_eq_true hlt)
    rw [List.filter_append, hnone, List.nil_append, ← ih, List.filter_cons_of_neg (by decide)]

/-- An ASCII character is as often in a text as its byte in the bytes. -/
theorem Decodes.count (h : Decodes bytes t) {b : UInt8} (hb : b < 0x80) :
    t.count (Char.ofNat b.toNat) = bytes.count b := by
  have hascii : isAscii (Char.ofNat b.toNat) := isAscii_iff.2 ⟨b, hb, rfl⟩
  rw [← List.count_filter hascii, h.filter_ascii,
    List.count_map_of_injective _ (fun b : UInt8 => Char.ofNat b.toNat) ofNat_byte_injective]
  exact List.count_filter (decide_eq_true hb)

/-- **The bytes above an ASCII character** have the text above it. -/
theorem Decodes.exists_split {b : UInt8} (hb : b < 0x80) {u v : Text}
    (h : Decodes bytes (u ++ Char.ofNat b.toNat :: v)) :
    ∃ above below, bytes = above ++ b :: below ∧ Decodes above u ∧ Decodes below v := by
  generalize ht : u ++ Char.ofNat b.toNat :: v = t at h
  induction h generalizing u with
  | nil => exact absurd ht (by simp)
  | @char c rest t h ih =>
    cases u with
    | nil =>
      obtain ⟨rfl, rfl⟩ := List.cons.inj ht
      rw [encodeChar_ofNat hb]
      exact ⟨[], rest, rfl, .nil, h⟩
    | cons x u =>
      obtain ⟨rfl, ht'⟩ := List.cons.inj ht
      obtain ⟨above, below, rfl, habove, hbelow⟩ := ih ht'
      exact ⟨_, below, (List.append_assoc ..).symm, habove.char x, hbelow⟩
  | @broken p rest t hp h ih =>
    cases u with
    | nil =>
      have hascii := isAscii_iff.2 ⟨b, hb, rfl⟩
      rw [(List.cons.inj ht).1] at hascii
      exact absurd hascii (by decide)
    | cons x u =>
      obtain ⟨rfl, ht'⟩ := List.cons.inj ht
      obtain ⟨above, below, rfl, habove, hbelow⟩ := ih ht'
      refine ⟨_, below, (List.append_assoc ..).symm,
        .broken (hp.of_head? fun a ha => .inl ?_) habove, hbelow⟩
      obtain ⟨above, rfl⟩ := List.head?_eq_some_iff.1 ha
      rfl

end Utf8

/-! ## Documents -/

open Markdown

namespace Document

open Utf8

/-- **The line that an error tells is a line of the file**: the one of its last code mark. -/
theorem exists_line_of_error {name : Text} {bytes : List UInt8} {dialect : Dialect}
    {fields : HeaderFields} {date : Date} {e : UnclosedCode}
    (h : ((ofBytes name bytes).toRoff dialect fields date).result = .error e) :
    ∃ above below, bytes = above ++ 0x60 :: below ∧ 0x60 ∉ below ∧
      e.place.line = above.count 0x0a + 1 := by
  have hf : (Zipper.start (decode bytes)).trace.failure? = some e := by
    have htrace := (ofBytes name bytes).trace_start
    rw [result_toRoff] at h
    cases hf : (ofBytes name bytes).takeTitle.2.trace.failure? with
    | none =>
      rw [hf] at h
      cases h
    | some e' =>
      rw [hf] at h
      cases h
      rw [hf] at htrace
      exact congrArg Trace.failure? htrace
  obtain ⟨m, hm, hne, herr, -⟩ := Zipper.exists_reads_of_failure hf
  obtain ⟨-, rfl, t, hr, ht⟩ := (State.step_eq_error_iff hne).1 herr
  obtain ⟨n, hn⟩ := hm.exists_advance
  have hsource : decode bytes = m.next.input.before.reverse ++ codeMark :: t := by
    rw [← hr, ← Zipper.source, hn, Zipper.source_advance]
    rfl
  have hdecodes := decodes_decode bytes
  rw [hsource] at hdecodes
  obtain ⟨above, below, hbytes, habove, hbelow⟩ :=
    hdecodes.exists_split (b := 0x60) (by decide)
  refine ⟨above, below, hbytes, ?_, ?_⟩
  · rw [← List.count_eq_zero, ← hbelow.count (by decide)]
    exact List.count_eq_zero.2 ht
  · have hcount := habove.count (b := 0x0a) (by decide)
    rw [List.count_reverse] at hcount
    exact congrArg (· + 1) hcount

/-- **Decoding keeps valid text where it stands.**  The text of a document has one replacement for
each broken part of its bytes; a text that is found in the bytes, wherever it is, is found in the
document between what is decoded of the bytes before it and after it, and bytes that are all of a
text are that text.  The ASCII characters are the bytes below 0x80, so the line that an error tells
is the one of the file. -/
theorem valid_text_is_kept (name : Text) :
    (∀ bytes t, Decodes bytes t ↔ (ofBytes name bytes).source = t) ∧
    (∀ (a c : List UInt8) (s : Text), s ≠ [] → (ofBytes name (a ++ encode s ++ c)).source =
      (ofBytes name a).source ++ s ++ (ofBytes name c).source) ∧
    (∀ s : Text, (ofBytes name (encode s)).source = s) ∧
    (∀ bytes, (ofBytes name bytes).source.filter isAscii =
      (bytes.filter (· < 0x80)).map fun b => Char.ofNat b.toNat) ∧
    ∀ bytes dialect fields date e,
      ((ofBytes name bytes).toRoff dialect fields date).result = .error e →
        ∃ above below, bytes = above ++ 0x60 :: below ∧ 0x60 ∉ below ∧
          e.place.line = above.count 0x0a + 1 := by
  refine ⟨fun bytes t => decodes_iff.trans eq_comm, fun a c s hs => ?_, decode_encode,
    fun bytes => (decodes_decode bytes).filter_ascii, fun bytes dialect fields date e h => ?_⟩
  · exact decode_append_encode_append a c hs
  · exact exists_line_of_error h

/-- A text between the two halves of a character, and an error below a byte that is none. -/
theorem valid_text_is_kept_between_halves :
    let a : List UInt8 := [0x61, 0xc3]
    let c : List UInt8 := [0xa9, 0x0a]
    let s := "é`".toList
    let bytes : List UInt8 := [0xff, 0x0a, 0xe9, 0x60, 0x0a]
    let name := "a.md".toList
    s ≠ [] ∧ (ofBytes name (a ++ encode s ++ c)).source = "a\ufffdé`\ufffd\n".toList ∧
    ((ofBytes name bytes).toRoff .man .standard ⟨2024, 5, 1⟩).result = .error ⟨⟨2, 2⟩⟩ ∧
    ∃ above below, bytes = above ++ 0x60 :: below ∧ 0x60 ∉ below ∧
      2 = above.count 0x0a + 1 := by
  intro a c s bytes name
  have hs : s ≠ [] := by decide
  have herror : ((ofBytes name bytes).toRoff .man .standard ⟨2024, 5, 1⟩).result =
      .error ⟨⟨2, 2⟩⟩ := by
    decide +kernel
  obtain ⟨-, hkept, -, -, hline⟩ := valid_text_is_kept name
  refine ⟨hs, ?_, herror, hline _ _ _ _ _ herror⟩
  rw [hkept a c s hs]
  decide +kernel

end Document

end Roffdown
