import Contrary.Text.Blank
import Contrary.Text.Numeral

/-!
# Numbers from outside

A running program draws 32-bit integers from a source.  Every kind of source is
an instance of `NumberSource`; a failed draw may still consume input.

* `Scanner` reads prefixed numerals that blanks separate from a text.
* `Answer` is one typed line, read as a plain numeral.
-/

namespace Contrary

/-- Why no number could be drawn. -/
inductive ReadFailure where
  /-- The input has ended. -/
  | endOfInput
  /-- What comes next does not start a number. -/
  | expectedInteger
  /-- A numeral is malformed or exceeds 64 bits. -/
  | numeral (e : NumeralError)
  /-- A numeral exceeds 32 bits. -/
  | overflow (token : Bytes)
  /-- The user gave up the prompt. -/
  | promptAborted
  /-- The terminal failed. -/
  | device (message : Bytes)
  deriving DecidableEq, Repr

/-- The wording of a failed draw. -/
def ReadFailure.message : ReadFailure → Bytes
  | .endOfInput => ascii "EOF"
  | .expectedInteger => ascii "expected integer"
  | .numeral e => e.message
  | .overflow token => ascii "integer overflow on token " ++ token
  | .promptAborted => ascii "prompt aborted"
  | .device message => message

/-- A source of numbers. -/
class NumberSource (σ : Type) where
  /-- Draws a number, or fails, and says what is left of the source. -/
  draw : σ → Except ReadFailure Int32 × σ

/-- The rest of a text from which numbers are read. -/
structure Scanner where
  rest : Bytes
  deriving DecidableEq, Repr

namespace Scanner

/-- A digit of a base, or an underscore. -/
def inBase (base : Nat) (b : UInt8) : Bool :=
  b == '_'.toUInt8 || (Numeral.digitValue? b).any (· < base)

/-- Splits the token of a number, sign included, off a text that does not start
with a blank.  A leading `0` chooses the digits that may follow. -/
def splitToken (s : Bytes) : Except ReadFailure Bytes × Bytes :=
  let sign := s.take 1 |>.filter fun b => b == '+'.toUInt8 || b == '-'.toUInt8
  let body := s.drop sign.length
  let taking (start : Bytes) (base : Nat) (s : Bytes) : Except ReadFailure Bytes × Bytes :=
    (.ok (sign ++ start ++ s.takeWhile (inBase base)), s.dropWhile (inBase base))
  match body with
  | [] => (.error .endOfInput, [])
  | b :: more =>
      if b == '0'.toUInt8 then
        match more with
        | [] => taking [b] 8 []
        | c :: digits =>
            match Numeral.prefixBase? c with
            | some base => taking [b, c] base digits
            | none => taking [b] 8 (c :: digits)
      else if inBase 10 b then taking [] 10 (b :: more)
      else (.error .expectedInteger, b :: more)

/-- The number that a token spells. -/
def readToken (token : Bytes) : Except ReadFailure Int32 :=
  match Numeral.read .prefixed 64 token with
  | .error e => .error (.numeral e)
  | .ok n =>
      if Int32.minValue.toInt ≤ n ∧ n ≤ Int32.maxValue.toInt then .ok (Int32.ofInt n)
      else .error (.overflow token)

/-- Skips blanks and draws a number.  The token of a number is consumed even if
the number does not fit. -/
def draw (s : Scanner) : Except ReadFailure Int32 × Scanner :=
  match splitToken s.rest.trimFront with
  | (.error e, rest) => (.error e, ⟨rest⟩)
  | (.ok token, rest) => (readToken token, ⟨rest⟩)

instance : NumberSource Scanner where
  draw := Scanner.draw

/-- Draws several numbers one after another, going on after failures. -/
def drawMany : Nat → Scanner → List (Except ReadFailure Int32)
  | 0, _ => []
  | n + 1, s => s.draw.1 :: drawMany n s.draw.2

end Scanner

/-- One answer at a prompt for a number. -/
structure Answer where
  value : Except ReadFailure Int32

namespace Answer

/-- The number in a typed line: a plain numeral between blanks. -/
def ofLine (line : Bytes) : Except NumeralError Int32 :=
  Numeral.readPlain32 line.trim

instance : NumberSource Answer where
  draw a := (a.value, a)

end Answer
end Contrary
