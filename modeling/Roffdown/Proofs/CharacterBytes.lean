import Roffdown.Text.Utf8

/-!
# The bytes of characters

A character takes one to four bytes.  They are told by its number, and no character takes the bytes
with which another one begins; so a text is read back from its bytes, and the first byte of each
character tells where it begins.

* `bytesOf`: the bytes of a character, as numbers, from the number of the character.
* `bytesOf_eq_two_iff`, `bytesOf_eq_three_iff`, `bytesOf_eq_four_iff`: what follows a first byte.
* `eq_of_mem_encodeChar`: ASCII characters alone have bytes below 0x80.
* `not_continues_head`, `continues_of_mem_tail`: the first byte of a character, and the others.
* `encodeChar_append_inj`: no character begins with all of another one.
-/

namespace Roffdown.Utf8

open String Text

/-! ## By number -/

theorem toNat_ofNat_of_isValidChar {n : Nat} (h : n.isValidChar) : (Char.ofNat n).toNat = n := by
  rw [Char.ofNat, dif_pos h]
  rfl

/-- The bytes of the character with a number, as numbers. -/
def bytesOf (n : Nat) : List Nat :=
  if n < 0x80 then [n]
  else if n < 0x800 then [0xc0 + n / 64, 0x80 + n % 64]
  else if n < 0x10000 then [0xe0 + n / 4096, 0x80 + n / 64 % 64, 0x80 + n % 64]
  else [0xf0 + n / 262144, 0x80 + n / 4096 % 64, 0x80 + n / 64 % 64, 0x80 + n % 64]

theorem toNat_lt (c : Char) : c.toNat < 0xd800 ∨ 0xdfff < c.toNat ∧ c.toNat < 0x110000 := c.valid

theorem map_toNat_encodeChar (c : Char) :
    (utf8EncodeChar c).map UInt8.toNat = bytesOf c.toNat := by
  have hc := toNat_lt c
  have hv : c.val.toNat = c.toNat := rfl
  unfold utf8EncodeChar bytesOf
  simp only [hv, ← Nat.lt_succ_iff]
  split
  · simp only [List.map_cons, List.map_nil, UInt8.toNat_ofNat']
    rw [Nat.mod_eq_of_lt (by omega)]
  -- In the other cases the remainders that are taken of the bytes leave them as they are.
  repeat' split
  all_goals
    simp only [List.map_cons, List.map_nil, UInt8.toNat_ofNat', List.cons.injEq, and_true]
    omega

theorem encodeChar_eq_iff {c : Char} {l : List UInt8} : utf8EncodeChar c = l ↔
    ∃ n, (n.isValidChar ∧ bytesOf n = l.map UInt8.toNat) ∧ c = Char.ofNat n := by
  constructor
  · rintro rfl
    exact ⟨c.toNat, ⟨c.valid, (map_toNat_encodeChar c).symm⟩, (Char.ofNat_toNat c).symm⟩
  · rintro ⟨n, ⟨hn, hl⟩, rfl⟩
    rw [← List.map_inj_right fun a b => UInt8.toNat_inj.1, map_toNat_encodeChar,
      toNat_ofNat_of_isValidChar hn, hl]

section

variable {first n : Nat} {others : List Nat}

theorem bytesOf_eq_two_iff (h : 0xc2 ≤ first) (h' : first < 0xe0) :
    n.isValidChar ∧ bytesOf n = first :: others ↔ ∃ x, others = [x] ∧ (0x80 ≤ x ∧ x ≤ 0xbf) ∧
      n = (first - 0xc0) * 64 + (x - 0x80) := by
  unfold bytesOf Nat.isValidChar
  constructor
  · rintro ⟨hn, hb⟩
    repeat' split at hb
    all_goals obtain ⟨hfirst, rfl⟩ := List.cons.inj hb
    · omega
    · exact ⟨_, rfl, by omega, by omega⟩
    · omega
    · omega
  · rintro ⟨x, rfl, hx, hn⟩
    rw [if_neg (by omega), if_pos (by omega)]
    simp only [List.cons.injEq, and_true]
    omega

/-- Characters with a shorter form and surrogates leave less room for the second byte. -/
theorem bytesOf_eq_three_iff (h : 0xe0 ≤ first) (h' : first < 0xf0) :
    n.isValidChar ∧ bytesOf n = first :: others ↔ ∃ x y, others = [x, y] ∧
      (0x80 ≤ x ∧ x ≤ 0xbf) ∧ (first = 0xe0 → 0xa0 ≤ x) ∧ (first = 0xed → x ≤ 0x9f) ∧
      (0x80 ≤ y ∧ y ≤ 0xbf) ∧ n = ((first - 0xe0) * 64 + (x - 0x80)) * 64 + (y - 0x80) := by
  unfold bytesOf Nat.isValidChar
  constructor
  · rintro ⟨hn, hb⟩
    repeat' split at hb
    all_goals obtain ⟨hfirst, rfl⟩ := List.cons.inj hb
    · omega
    · omega
    · exact ⟨_, _, rfl, by omega, by omega, by omega, by omega, by omega⟩
    · omega
  · rintro ⟨x, y, rfl, hx, hlow, hhigh, hy, hn⟩
    rw [if_neg (by omega), if_neg (by omega), if_pos (by omega)]
    simp only [List.cons.injEq, and_true]
    omega

/-- So do the last numbers that are characters. -/
theorem bytesOf_eq_four_iff (h : 0xf0 ≤ first) (h' : first < 0xf5) :
    n.isValidChar ∧ bytesOf n = first :: others ↔ ∃ x y z, others = [x, y, z] ∧
      (0x80 ≤ x ∧ x ≤ 0xbf) ∧ (first = 0xf0 → 0x90 ≤ x) ∧ (first = 0xf4 → x ≤ 0x8f) ∧
      (0x80 ≤ y ∧ y ≤ 0xbf) ∧ (0x80 ≤ z ∧ z ≤ 0xbf) ∧
      n = (((first - 0xf0) * 64 + (x - 0x80)) * 64 + (y - 0x80)) * 64 + (z - 0x80) := by
  unfold bytesOf Nat.isValidChar
  constructor
  · rintro ⟨hn, hb⟩
    repeat' split at hb
    all_goals obtain ⟨hfirst, rfl⟩ := List.cons.inj hb
    · omega
    · omega
    · omega
    · exact ⟨_, _, _, rfl, by omega, by omega, by omega, by omega, by omega, by omega⟩
  · rintro ⟨x, y, z, rfl, hx, hlow, hhigh, hy, hz, hn⟩
    rw [if_neg (by omega), if_neg (by omega), if_neg (by omega)]
    simp only [List.cons.injEq, and_true]
    omega

end

/-! ## ASCII -/

/-- The ASCII characters. -/
def isAscii (c : Char) : Bool := c.toNat < 0x80

theorem toNat_ofNat_byte (b : UInt8) : (Char.ofNat b.toNat).toNat = b.toNat := by
  have := b.toNat_lt
  exact toNat_ofNat_of_isValidChar (.inl (by omega))

theorem ofNat_byte_injective : Function.Injective fun b : UInt8 => Char.ofNat b.toNat := by
  intro a b h
  have hn := congrArg Char.toNat h
  simp only [toNat_ofNat_byte] at hn
  exact UInt8.toNat_inj.1 hn

theorem isAscii_iff {c : Char} : isAscii c ↔ ∃ b : UInt8, b < 0x80 ∧ c = Char.ofNat b.toNat := by
  rw [isAscii, decide_eq_true_eq]
  constructor
  · intro h
    have hb : (UInt8.ofNat c.toNat).toNat = c.toNat := by
      rw [UInt8.toNat_ofNat', Nat.mod_eq_of_lt (by omega)]
    refine ⟨UInt8.ofNat c.toNat, UInt8.lt_iff_toNat_lt.2 (by rwa [hb]), ?_⟩
    rw [hb, Char.ofNat_toNat]
  · rintro ⟨b, hb, rfl⟩
    rw [toNat_ofNat_byte]
    exact UInt8.lt_iff_toNat_lt.1 hb

theorem encodeChar_ofNat {b : UInt8} (h : b < 0x80) :
    utf8EncodeChar (Char.ofNat b.toNat) = [b] := by
  have hb : b.toNat < 0x80 := UInt8.lt_iff_toNat_lt.1 h
  refine encodeChar_eq_iff.2 ⟨_, ⟨.inl (by omega), ?_⟩, rfl⟩
  rw [bytesOf, if_pos hb]
  rfl

/-- **A byte below 0x80 is an ASCII character**, wherever it is found. -/
theorem eq_of_mem_encodeChar {c : Char} {b : UInt8} (h : b ∈ utf8EncodeChar c) (hb : b < 0x80) :
    c = Char.ofNat b.toNat := by
  replace hb : b.toNat < 0x80 := UInt8.lt_iff_toNat_lt.1 hb
  have hm : b.toNat ∈ bytesOf c.toNat := by
    rw [← map_toNat_encodeChar]
    exact List.mem_map_of_mem h
  rw [← Char.ofNat_toNat c]
  congr 1
  unfold bytesOf at hm
  repeat' split at hm
  all_goals
    simp only [List.mem_cons, List.not_mem_nil, or_false] at hm
    omega

/-- The ASCII characters among the bytes of a character. -/
theorem filter_encodeChar (c : Char) :
    ((utf8EncodeChar c).filter (· < 0x80)).map (fun b => Char.ofNat b.toNat) =
      [c].filter isAscii := by
  by_cases h : isAscii c
  · obtain ⟨b, hb, rfl⟩ := isAscii_iff.1 h
    rw [encodeChar_ofNat hb, List.filter_cons_of_pos (by simpa using hb),
      List.filter_cons_of_pos h]
    rfl
  · rw [List.filter_cons_of_neg h, List.filter_nil, List.map_eq_nil_iff, List.filter_eq_nil_iff]
    intro b hb hlt
    rw [decide_eq_true_eq] at hlt
    exact h (isAscii_iff.2 ⟨b, hlt, eq_of_mem_encodeChar hb hlt⟩)

/-! ## Where a character begins -/

/-- A byte that continues a character. -/
def Continues (b : UInt8) : Prop := 0x80 ≤ b ∧ b ≤ 0xbf

instance : DecidablePred Continues := fun _ => inferInstanceAs (Decidable (_ ∧ _))

section

variable {c : Char} {first : UInt8} {others : List UInt8} (h : utf8EncodeChar c = first :: others)

include h

theorem toNat_head_encodeChar :
    first.toNat < 0x80 ∨ 0xc2 ≤ first.toNat ∧ first.toNat < 0xf5 := by
  have hc := toNat_lt c
  have hb := map_toNat_encodeChar c
  rw [h, List.map_cons] at hb
  unfold bytesOf at hb
  repeat' split at hb
  all_goals
    have hfirst := (List.cons.inj hb).1
    omega

theorem not_continues_head : ¬ Continues first := by
  rintro ⟨hl, hu⟩
  rw [UInt8.le_iff_toNat_le] at hl hu
  have hfirst := toNat_head_encodeChar h
  change 0x80 ≤ first.toNat at hl
  change first.toNat ≤ 0xbf at hu
  omega

theorem continues_of_mem_tail {b : UInt8} (hb : b ∈ others) : Continues b := by
  have hm : b.toNat ∈ (bytesOf c.toNat).tail := by
    rw [← map_toNat_encodeChar, h]
    exact List.mem_map_of_mem hb
  show 0x80 ≤ b.toNat ∧ b.toNat ≤ 0xbf
  unfold bytesOf at hm
  split at hm
  · exact absurd hm List.not_mem_nil
  repeat' split at hm
  all_goals
    simp only [List.tail_cons, List.mem_cons, List.not_mem_nil, or_false] at hm
    omega

end

theorem eq_of_isPrefix_encodeChar {c d : Char} (h : utf8EncodeChar c <+: utf8EncodeChar d) :
    c = d := by
  obtain ⟨r, hr⟩ := h
  have hc : ByteArray.utf8DecodeChar? (utf8EncodeChar d).toByteArray 0 = some c := by
    rw [← hr, List.toByteArray_append, ByteArray.utf8DecodeChar?_utf8EncodeChar_append]
  have hd := ByteArray.utf8DecodeChar?_utf8EncodeChar_append (b := .empty) (c := d)
  rw [ByteArray.append_empty, hc] at hd
  exact Option.some.inj hd

/-- The bytes of two characters, with more after each, are the same only if the characters are. -/
theorem encodeChar_append_inj {c d : Char} {a b : List UInt8}
    (h : utf8EncodeChar c ++ a = utf8EncodeChar d ++ b) : c = d ∧ a = b := by
  have hcd : c = d := by
    rcases List.prefix_or_prefix_of_prefix ⟨a, rfl⟩ (h ▸ List.prefix_append _ b) with hp | hp
    · exact eq_of_isPrefix_encodeChar hp
    · exact (eq_of_isPrefix_encodeChar hp).symm
  subst hcd
  exact ⟨rfl, List.append_cancel_left h⟩

/-! ## Texts -/

@[simp] theorem encode_nil : encode [] = [] := rfl

@[simp] theorem encode_cons (c : Char) (t : Text) :
    encode (c :: t) = utf8EncodeChar c ++ encode t := rfl

@[simp] theorem encode_append (s t : Text) : encode (s ++ t) = encode s ++ encode t :=
  List.flatMap_append

theorem length_encode (t : Text) : (encode t).length = utf8Length t := by
  induction t with
  | nil => rfl
  | cons c t ih => rw [encode_cons, List.length_append, length_utf8EncodeChar, ih, utf8Length_cons]

end Roffdown.Utf8
