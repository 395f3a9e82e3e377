import Contrary.Text.Glyph
import Contrary.Text.Printable

/-!
# Quoted texts

A quoted text stands between double quotes.  Printable code points are shown as
they are; quotes and backslashes take a backslash; the control characters that
have a letter are written with it; everything else is written in hexadecimal,
stray bytes as `\xNN`.
-/

namespace Contrary

namespace Glyph

/-- The letter of a control character that has one. -/
def escapeLetter? : Nat → Option Char
  | 0x07 => some 'a'
  | 0x08 => some 'b'
  | 0x09 => some 't'
  | 0x0A => some 'n'
  | 0x0B => some 'v'
  | 0x0C => some 'f'
  | 0x0D => some 'r'
  | _ => none

/-- An escape: a backslash, a letter and a hexadecimal numeral. -/
def hexEscape (letter : Char) (width n : Nat) : Bytes :=
  '\\'.toUInt8 :: letter.toUInt8 :: Bytes.hex width n

/-- A glyph as it is written between quotes. -/
def quoted : Glyph → Bytes
  | .stray b => hexEscape 'x' 2 b.toNat
  | .point c bs =>
      if c = 0x22 || c = 0x5C then '\\'.toUInt8 :: bs
      else if isPrintable c then bs
      else
        match escapeLetter? c with
        | some letter => ['\\'.toUInt8, letter.toUInt8]
        | none =>
            if c < 0x20 || c = 0x7F then hexEscape 'x' 2 c
            else if c < 0x10000 then hexEscape 'u' 4 c
            else hexEscape 'U' 8 c

end Glyph

/-- A text between double quotes, with escapes. -/
def Bytes.quoted (s : Bytes) : Bytes :=
  '"'.toUInt8 :: (glyphs s).flatMap Glyph.quoted ++ ['"'.toUInt8]

end Contrary
