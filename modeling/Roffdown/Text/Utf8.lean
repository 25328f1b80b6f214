import Roffdown.Text.Basic

/-!
# UTF-8

Bytes are decoded one at a time by a machine that knows which bytes may continue the character that
it is reading.  Where the bytes are no UTF-8, one replacement character stands for the longest part
that could still have become a character, or for a single byte when there is no such part.

* `decode`: the text of any bytes.
* `decode?`: the text of bytes that are UTF-8; no other bytes have one (`encode_of_decode?`).
* `outputs_append`: decoding goes on from where it stands.
-/

namespace Roffdown.Utf8

/-- The bytes of a text. -/
def encode (t : Text) : List UInt8 := t.flatMap String.utf8EncodeChar

/-- The character that stands for bytes that are no UTF-8. -/
def replacement : Char := '\ufffd'

/-- Where decoding stands: how many bytes the character that is being read still needs, the bits
that it has, and the range of its next byte.  Nothing is being read when it needs none. -/
structure Decoder where
  needed : Nat
  bits : Nat
  lower : UInt8
  upper : UInt8
deriving DecidableEq, Repr

namespace Decoder

/-- Between two characters. -/
def between : Decoder := ⟨0, 0, 0x80, 0xbf⟩

/-- A byte where a character begins. -/
def begin (b : UInt8) : Text × Decoder :=
  if b < 0x80 then ([Char.ofNat b.toNat], between)
  else if b < 0xc2 then ([replacement], between)
  else if b < 0xe0 then ([], ⟨1, b.toNat - 0xc0, 0x80, 0xbf⟩)
  else if b < 0xf0 then
    ([], ⟨2, b.toNat - 0xe0, if b = 0xe0 then 0xa0 else 0x80, if b = 0xed then 0x9f else 0xbf⟩)
  else if b < 0xf5 then
    ([], ⟨3, b.toNat - 0xf0, if b = 0xf0 then 0x90 else 0x80, if b = 0xf4 then 0x8f else 0xbf⟩)
  else ([replacement], between)

/-- One byte: the characters that it completes, and where decoding stands then. -/
def feed (d : Decoder) (b : UInt8) : Text × Decoder :=
  if d.needed = 0 then begin b
  else if d.lower ≤ b ∧ b ≤ d.upper then
    let bits := d.bits * 64 + (b.toNat - 0x80)
    if d.needed = 1 then ([Char.ofNat bits], between)
    else ([], ⟨d.needed - 1, bits, 0x80, 0xbf⟩)
  else (replacement :: (begin b).1, (begin b).2)

/-- The characters that the end of the bytes completes. -/
def finish (d : Decoder) : Text := if d.needed = 0 then [] else [replacement]

/-- The characters that bytes complete, and where decoding stands after them. -/
def outputs (d : Decoder) : List UInt8 → Text × Decoder
  | [] => ([], d)
  | b :: bytes =>
    let r := d.feed b
    let s := r.2.outputs bytes
    (r.1 ++ s.1, s.2)

theorem outputs_append (d : Decoder) (a b : List UInt8) :
    d.outputs (a ++ b) =
      ((d.outputs a).1 ++ ((d.outputs a).2.outputs b).1, ((d.outputs a).2.outputs b).2) := by
  induction a generalizing d with
  | nil => rfl
  | cons x a ih => simp [outputs, ih]

end Decoder

/-- The text of bytes, with replacement characters where they are no UTF-8. -/
def decode (bytes : List UInt8) : Text :=
  let r := Decoder.between.outputs bytes
  r.1 ++ r.2.finish

/-- The text of bytes that are UTF-8. -/
def decode? (bytes : List UInt8) : Option Text :=
  if encode (decode bytes) = bytes then some (decode bytes) else none

theorem encode_of_decode? {bytes : List UInt8} {t : Text} (h : decode? bytes = some t) :
    encode t = bytes := by
  unfold decode? at h
  split at h
  · rename_i he
    rw [Option.some.injEq] at h
    exact h ▸ he
  · contradiction

end Roffdown.Utf8
