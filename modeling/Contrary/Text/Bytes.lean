/-!
# Byte strings

A text is a byte string.  Source files, typed lines and program output may hold
any bytes, so texts are not required to be valid UTF-8; the decoding of code
points is in `Contrary.Text.Glyph`.

This module holds the operations that look at single bytes only: character
classes of ASCII, decimal and hexadecimal numerals, cutting at a separator and
trimming by a byte predicate.
-/

namespace Contrary

/-- A text: a byte string that need not be valid UTF-8. -/
abbrev Bytes := List UInt8

/-- The bytes of a fixed text whose characters are all ASCII. -/
def ascii (s : String) : Bytes :=
  s.toList.map Char.toUInt8

namespace Bytes

/-- The decimal digits `0` to `9`. -/
def isDigit (b : UInt8) : Bool :=
  '0'.toUInt8 ≤ b && b ≤ '9'.toUInt8

/-- The lower case letters `a` to `z`. -/
def isLower (b : UInt8) : Bool :=
  'a'.toUInt8 ≤ b && b ≤ 'z'.toUInt8

/-- The capital letters `A` to `Z`. -/
def isUpper (b : UInt8) : Bool :=
  'A'.toUInt8 ≤ b && b ≤ 'Z'.toUInt8

/-- A space or a tab. -/
def isSpaceOrTab (b : UInt8) : Bool :=
  b == ' '.toUInt8 || b == '\t'.toUInt8

/-- The digit that stands for a number below ten. -/
def digit (d : Nat) : UInt8 :=
  (48 + d).toUInt8

/-- The decimal numeral of a natural number, without leading zeros. -/
def decimalNat (n : Nat) : Bytes :=
  if n < 10 then [digit n] else decimalNat (n / 10) ++ [digit (n % 10)]

/-- The decimal numeral of an integer, with a minus sign below zero. -/
def decimal : Int → Bytes
  | .ofNat n => decimalNat n
  | .negSucc n => '-'.toUInt8 :: decimalNat (n + 1)

/-- The lower case hexadecimal digit of a number below sixteen. -/
def hexDigit (d : Nat) : UInt8 :=
  if d < 10 then digit d else (87 + d).toUInt8

/-- The last `width` hexadecimal digits of a number. -/
def hex : (width : Nat) → Nat → Bytes
  | 0, _ => []
  | width + 1, n => hex width (n / 16) ++ [hexDigit (n % 16)]

/-- Pads a text with spaces on the left up to `width` bytes. -/
def padLeft (width : Nat) (s : Bytes) : Bytes :=
  List.replicate (width - s.length) ' '.toUInt8 ++ s

/-- Cuts a text at every occurrence of a byte.  There is one piece more than
there are occurrences, so the result is never empty. -/
def splitOn (sep : UInt8) : Bytes → List Bytes
  | [] => [[]]
  | b :: s =>
      if b = sep then [] :: splitOn sep s
      else
        match splitOn sep s with
        | [] => [[b]]
        | piece :: pieces => (b :: piece) :: pieces

/-- Drops the longest end of a text all of whose bytes satisfy `p`. -/
def dropEndWhile (p : UInt8 → Bool) (s : Bytes) : Bytes :=
  (s.reverse.dropWhile p).reverse

/-- A text followed by a line feed. -/
def line (s : Bytes) : Bytes :=
  s ++ ['\n'.toUInt8]

/-- The text before the first space, and the text after it. -/
def cutAtSpace (s : Bytes) : Bytes × Bytes :=
  (s.takeWhile (· != ' '.toUInt8), (s.dropWhile (· != ' '.toUInt8)).drop 1)

end Bytes
end Contrary
