import Contrary.Text.Quoted

/-!
# Numerals

Reading an integer of a given number of bits from a whole text.

**Styles.**  A plain numeral is an optional sign and decimal digits.  A prefixed
numeral may also be binary, octal or hexadecimal, marked by `0b`, `0o` or `0x`;
a leading `0` alone makes it octal, and single underscores may stand between
digits or after the prefix.

**Faults.**  Digits are read from the left, and the first fault ends the
reading: a text whose first digits already exceed the unsigned range is out of
range whatever follows.  Misplaced underscores are noticed last.
-/

namespace Contrary

/-- Why a text is not a numeral of the asked size. -/
inductive NumeralFault where
  | malformed
  | outOfRange
  deriving DecidableEq, Repr

/-- A text that could not be read as a numeral. -/
structure NumeralError where
  text : Bytes
  fault : NumeralFault
  deriving DecidableEq, Repr

/-- The wording of a fault. -/
def NumeralFault.message : NumeralFault → Bytes
  | .malformed => ascii "invalid syntax"
  | .outOfRange => ascii "value out of range"

/-- The wording of a failed reading. -/
def NumeralError.message (e : NumeralError) : Bytes :=
  ascii "strconv.ParseInt: parsing " ++ e.text.quoted ++ ascii ": " ++ e.fault.message

/-- How a numeral may be written. -/
inductive NumeralStyle where
  | plain
  | prefixed
  deriving DecidableEq, Repr

namespace Numeral

/-- The value of a digit or letter in a base of up to thirty-six. -/
def digitValue? (b : UInt8) : Option Nat :=
  if Bytes.isDigit b then some (b.toNat - 48)
  else if Bytes.isLower b then some (b.toNat - 87)
  else if Bytes.isUpper b then some (b.toNat - 55)
  else none

/-- Reads digits of a base on top of the value `n` of those before them. -/
def readDigits (base limit : Nat) (gaps : Bool) : Nat → Bytes → Except NumeralFault Nat
  | n, [] => .ok n
  | n, b :: s =>
      if gaps && b == '_'.toUInt8 then readDigits base limit gaps n s
      else
        match digitValue? b with
        | none => .error .malformed
        | some d =>
            if base ≤ d then .error .malformed
            else if limit < n * base + d then .error .outOfRange
            else readDigits base limit gaps (n * base + d) s

/-- Whether every underscore stands between digits.  The first argument says
whether a digit, or a prefix, stands just before. -/
def gapsInside : Bool → Bytes → Bool
  | afterDigit, [] => afterDigit
  | afterDigit, b :: s =>
      if b == '_'.toUInt8 then afterDigit && gapsInside false s else gapsInside true s

/-- The base that a prefix marks. -/
def prefixBase? (b : UInt8) : Option Nat :=
  if b == 'b'.toUInt8 || b == 'B'.toUInt8 then some 2
  else if b == 'o'.toUInt8 || b == 'O'.toUInt8 then some 8
  else if b == 'x'.toUInt8 || b == 'X'.toUInt8 then some 16
  else none

/-- The base of an unsigned numeral and the digits after its prefix.  A prefix
needs something after it; otherwise the leading `0` alone counts. -/
def splitBase : Bytes → Nat × Bytes
  | [] => (10, [])
  | b :: s =>
      if b == '0'.toUInt8 then
        match s with
        | c :: d :: rest =>
            match prefixBase? c with
            | some base => (base, d :: rest)
            | none => (8, s)
        | _ => (8, s)
      else (10, b :: s)

/-- Splits an optional sign off a numeral; the first part says whether it is a
minus. -/
def splitSign : Bytes → Bool × Bytes
  | [] => (false, [])
  | b :: s =>
      if b == '-'.toUInt8 then (true, s)
      else if b == '+'.toUInt8 then (false, s)
      else (false, b :: s)

/-- Reads an unsigned numeral of at most `bits` bits. -/
def magnitude (style : NumeralStyle) (bits : Nat) (s : Bytes) : Except NumeralFault Nat :=
  if s.isEmpty then .error .malformed
  else
    match style with
    | .plain => readDigits 10 ((1 <<< bits) - 1) false 0 s
    | .prefixed =>
        let (base, digits) := splitBase s
        match readDigits base ((1 <<< bits) - 1) true 0 digits with
        | .error f => .error f
        | .ok n => if gapsInside (base != 10) digits then .ok n else .error .malformed

/-- Reads a signed numeral of `bits` bits in two's complement range. -/
def read (style : NumeralStyle) (bits : Nat) (text : Bytes) : Except NumeralError Int :=
  let (negative, body) := splitSign text
  match magnitude style bits body with
  | .error f => .error ⟨text, f⟩
  | .ok n =>
      if negative then
        if n ≤ 1 <<< (bits - 1) then .ok (-n) else .error ⟨text, .outOfRange⟩
      else if n < 1 <<< (bits - 1) then .ok n
      else .error ⟨text, .outOfRange⟩

/-- Reads a plain signed numeral of 32 bits. -/
def readPlain32 (text : Bytes) : Except NumeralError Int32 :=
  (read .plain 32 text).map Int32.ofInt

end Numeral
end Contrary
