import Contrary.Text.Bytes

/-!
# Located faults

A fault of one source line, with the line as it stands in the file.  Lines are
counted from the bottom, because that is the order in which a program is read.
A program made by other means may carry any integers as its line numbers.
-/

namespace Contrary

/-- A fault with the source line that it belongs to. -/
structure Located (ε : Type) where
  /-- The line number from the bottom; the last line is 1. -/
  line : Int
  /-- How many lines the source has. -/
  lineCount : Int
  /-- The line as it stands in the source. -/
  text : Bytes
  cause : ε
  deriving DecidableEq, Repr

end Contrary
