import Contrary.Located
import Contrary.Text.Width

/-!
# Reports

How a fault is shown to the user.  A fault without a line is one line of text;
a located one shows its source line, underlined, and its line number counted
from the top and from the bottom.
-/

namespace Contrary

/-- A located fault in words. -/
structure Report where
  /-- The stage that found the fault; may be empty. -/
  stage : Bytes
  /-- The line number from the bottom. -/
  line : Int
  /-- How many lines the source has. -/
  lineCount : Int
  /-- The line as it stands in the source. -/
  text : Bytes
  /-- What is wrong with the line. -/
  cause : Bytes
  deriving DecidableEq, Repr

namespace Report

/-- The report of a located fault. -/
def ofLocated {ε : Type} (stage : String) (wording : ε → Bytes) (e : Located ε) : Report :=
  ⟨ascii stage, e.line, e.lineCount, e.text, wording e.cause⟩

/-- The line number from the top.  It is a signed word of 64 bits, so that line
numbers which no source can have wrap around. -/
def topLine (r : Report) : Int :=
  (r.lineCount - (r.line - 1)).bmod (1 <<< 64)

/-- The stage in brackets, if there is one. -/
def stageMark (r : Report) : Bytes :=
  if r.stage.isEmpty then [] else ascii "[" ++ r.stage ++ ascii "] "

/-- The report in one line. -/
def message (r : Report) : Bytes :=
  r.stageMark ++ ascii "line " ++ Bytes.decimal r.topLine ++ ascii " (from bottom " ++
    Bytes.decimal r.line ++ ascii "): " ++ r.cause

/-- The source line as it is shown: without carriage returns at its end. -/
def shownText (r : Report) : Bytes :=
  Bytes.dropEndWhile (· == '\r'.toUInt8) r.text

/-- The spaces and tabs that the shown line starts with. -/
def indent (r : Report) : Bytes :=
  r.shownText.takeWhile Bytes.isSpaceOrTab

/-- The width of the underline: that of the shown line without the spaces and
tabs at both ends, and at least one column. -/
def underline (r : Report) : Nat :=
  let code := r.shownText.dropWhile Bytes.isSpaceOrTab
  max 1 (Bytes.dropEndWhile Bytes.isSpaceOrTab code).columns

/-- The report with its source line, for a terminal. -/
def render (r : Report) : Bytes :=
  Bytes.line (ascii "error: " ++ r.stageMark ++ r.cause) ++
    Bytes.line (Bytes.padLeft 3 (Bytes.decimal r.topLine) ++ ascii " | " ++ r.shownText) ++
    Bytes.line (ascii "    | " ++ r.indent ++ List.replicate r.underline '^'.toUInt8) ++
    Bytes.line (ascii "    = line " ++ Bytes.decimal r.topLine ++ ascii " (from bottom: " ++
      Bytes.decimal r.line ++ ascii ")")

/-- A fault without a line, for a terminal. -/
def plain (message : Bytes) : Bytes :=
  Bytes.line (ascii "error: " ++ message)

end Report
end Contrary
