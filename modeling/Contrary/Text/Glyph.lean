import Contrary.Text.Bytes

/-!
# Glyphs

A glyph is the unit in which a text is read: a code point with its UTF-8
encoding, or a stray byte that is not part of one.  Overlong forms, surrogates
and values above U+10FFFF are not encodings, so each of their bytes is stray.
A stray byte counts as U+FFFD wherever a code point is asked for.

**Reading forwards.**  `glyphs` cuts a whole text into glyphs.

**Reading backwards.**  `Glyph.last` finds the glyph at the end of a text from
its last four bytes; trimming the end of a text needs it.
-/

namespace Contrary

/-- A code point with the bytes that encode it, or a stray byte. -/
inductive Glyph where
  | point (code : Nat) (bytes : Bytes)
  | stray (byte : UInt8)
  deriving DecidableEq, Repr

namespace Glyph

/-- The code point of a glyph; U+FFFD for a stray byte. -/
def code : Glyph → Nat
  | .point c _ => c
  | .stray _ => 0xFFFD

/-- The bytes of a glyph in its text. -/
def bytes : Glyph → Bytes
  | .point _ bs => bs
  | .stray b => [b]

/-- What a lead byte announces: how many bytes follow it, the range of the
first of them, and the bits of the code point that the lead byte holds. -/
structure Lead where
  tail : Nat
  low : UInt8
  high : UInt8
  bits : Nat

/-- The lead bytes of the encodings longer than one byte. -/
def lead? (b : UInt8) : Option Lead :=
  if b < 0xC2 then none
  else if b < 0xE0 then some ⟨1, 0x80, 0xBF, b.toNat - 0xC0⟩
  else if b = 0xE0 then some ⟨2, 0xA0, 0xBF, 0⟩
  else if b = 0xED then some ⟨2, 0x80, 0x9F, 0xD⟩
  else if b < 0xF0 then some ⟨2, 0x80, 0xBF, b.toNat - 0xE0⟩
  else if b = 0xF0 then some ⟨3, 0x90, 0xBF, 0⟩
  else if b < 0xF4 then some ⟨3, 0x80, 0xBF, b.toNat - 0xF0⟩
  else if b = 0xF4 then some ⟨3, 0x80, 0x8F, 4⟩
  else none

/-- Whether `more` are the bytes that a lead byte announces. -/
def Lead.accepts (l : Lead) (more : Bytes) : Bool :=
  more.length == l.tail &&
    (more.take 1).all (fun b => l.low ≤ b && b ≤ l.high) &&
    (more.drop 1).all (fun b => 0x80 ≤ b && b ≤ 0xBF)

/-- The code point of an encoding, six bits for each byte after the lead. -/
def Lead.value (l : Lead) (more : Bytes) : Nat :=
  more.foldl (fun n b => 64 * n + b.toNat % 64) l.bits

/-- The glyph at the front of the text `b :: rest`. -/
def first (b : UInt8) (rest : Bytes) : Glyph :=
  if b < 0x80 then .point b.toNat [b]
  else
    match lead? b with
    | none => .stray b
    | some l =>
        let more := rest.take l.tail
        if l.accepts more then .point (l.value more) (b :: more) else .stray b

/-- The glyph at the end of a text whose last byte is `b`.  The bytes before it
are given nearest first.  At most one of the three longer encodings can fit. -/
def last (b : UInt8) (before : Bytes) : Glyph :=
  let longer (k : Nat) : Option Glyph :=
    match (before.take k).reverse with
    | [] => none
    | c :: more =>
        let g := first c (more ++ [b])
        if g.bytes.length = k + 1 then some g else none
  ([1, 2, 3].findSome? longer).getD (first b [])

end Glyph

/-- The glyphs of a text, in order. -/
def glyphs : Bytes → List Glyph
  | [] => []
  | b :: rest =>
      let g := Glyph.first b rest
      g :: glyphs (rest.drop (g.bytes.length - 1))
termination_by s => s.length
decreasing_by
  simp only [List.length_drop, List.length_cons]
  omega

end Contrary
