import Contrary.Text.Blank
import Contrary.Text.Numeral
import Contrary.Token.Basic

/-!
# Lexemes

How one source line becomes tokens.

**Comments.**  A slash closes a comment that holds everything on its left up to
the slash before it.  Only what follows the last slash is code.

**Code.**  Blanks separate lexemes and are dropped.  A bracket is a lexeme, a
run of decimal digits is one, and any other run without blanks and brackets is
one: a name may hold digits after its first glyph.

**Numbers.**  A run of digits is a number of 32 bits with a sign; a larger one
is a fault of the line, and the leftmost such run is reported.
-/

namespace Contrary

/-- A piece of code before its digits are read. -/
inductive Lexeme where
  | bracket (side : Side)
  | digits (run : List Glyph)
  | word (run : List Glyph)
  deriving DecidableEq, Repr

/-- A run of digits above the range of 32-bit integers. -/
structure LiteralError where
  digits : Bytes
  deriving DecidableEq, Repr

/-- The wording of a number out of range. -/
def LiteralError.message (e : LiteralError) : Bytes :=
  ascii "integer literal " ++ e.digits.quoted ++ ascii " cannot be parsed: " ++
    (NumeralError.mk e.digits .outOfRange).message

namespace Glyph

/-- The bytes of a run of glyphs. -/
def text (run : List Glyph) : Bytes :=
  run.flatMap Glyph.bytes

/-- A decimal digit. -/
def isDigit (g : Glyph) : Bool :=
  0x30 ≤ g.code && g.code ≤ 0x39

/-- The side of a bracket glyph. -/
def side? (g : Glyph) : Option Side :=
  if g.code = 0x5B then some .left
  else if g.code = 0x5D then some .right
  else none

/-- A glyph that a name may go on with. -/
def inWord (g : Glyph) : Bool :=
  !g.isBlank && g.side?.isNone

end Glyph

namespace Lexeme

/-- The lexemes of a piece of code. -/
def scan : List Glyph → List Lexeme
  | [] => []
  | g :: rest =>
      if g.isBlank then scan rest
      else
        match g.side? with
        | some side => .bracket side :: scan rest
        | none =>
            if g.isDigit then
              .digits (g :: rest.takeWhile Glyph.isDigit) :: scan (rest.dropWhile Glyph.isDigit)
            else
              .word (g :: rest.takeWhile Glyph.inWord) :: scan (rest.dropWhile Glyph.inWord)
termination_by gs => gs.length
decreasing_by
  all_goals
    have := (List.dropWhile_suffix Glyph.isDigit (l := rest)).length_le
    have := (List.dropWhile_suffix Glyph.inWord (l := rest)).length_le
    simp only [List.length_cons]
    omega

/-- The token of a lexeme; digits must make a number of 32 bits. -/
def token : Lexeme → Except LiteralError Token
  | .bracket side => .ok (.bracket side)
  | .word run => .ok (.name (Glyph.text run))
  | .digits run =>
      match Numeral.readPlain32 (Glyph.text run) with
      | .ok value => .ok (.literal value)
      | .error _ => .error ⟨Glyph.text run⟩

end Lexeme

namespace Token

/-- The tokens of a piece of code. -/
def ofCode (code : Bytes) : Except LiteralError (List Token) :=
  (Lexeme.scan (glyphs code)).mapM Lexeme.token

/-- The tokens of a source line: a comment for each slash, then the code. -/
def ofLine (line : Bytes) : Except LiteralError (List Token) :=
  let pieces := Bytes.splitOn '/'.toUInt8 line
  (ofCode (pieces.getLastD [])).map (pieces.dropLast.map Token.comment ++ ·)

end Token
end Contrary
