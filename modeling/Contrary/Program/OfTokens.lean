import Contrary.Phrase.Meaning
import Contrary.Program.Basic
import Contrary.Program.Pairing
import Contrary.Report
import Contrary.Token.Lines

/-!
# Programs of a source

A program is read from token lines, bottom line first.  Lines without code are
skipped but counted.
-/

namespace Contrary

/-- A fault of a source, with its line. -/
inductive SourceError where
  /-- A number out of range. -/
  | literal (e : Located LiteralError)
  /-- A line of code without a meaning. -/
  | phrase (e : Located PhraseError)
  /-- Blocks that do not pair. -/
  | block (e : Located Imbalance)
  deriving DecidableEq, Repr

/-- The report of a fault of a source. -/
def SourceError.report : SourceError → Report
  | .literal e => Report.ofLocated "lexer" LiteralError.message e
  | .phrase e => Report.ofLocated "parser" PhraseError.message e
  | .block e => Report.ofLocated "codegen" Imbalance.message e

namespace Program

/-- The code of a token line: its tokens without the comments. -/
def code (l : TokenLine) : List Token :=
  l.tokens.filter fun t => !t.isComment

/-- Reads token lines on top of a program that `below` lines have given so far. -/
def readLines (total : Nat) :
    (below : Nat) → Program → List TokenLine → Except (Located PhraseError) Program
  | _, p, [] => .ok p
  | below, p, l :: above =>
      if (code l).isEmpty then readLines total (below + 1) p above
      else
        match Op.ofCode p.names (code l) with
        | .error e => .error ⟨below + 1, total, l.raw, e⟩
        | .ok (op, names) =>
            readLines total (below + 1)
              { p with names := names, ops := p.ops.push ⟨op, below + 1, l.raw⟩ } above

/-- The program of token lines that are given bottom line first. -/
def ofTokenLines (ls : List TokenLine) : Except (Located PhraseError) Program :=
  readLines ls.length 0 ⟨Names.empty, #[], ls.length⟩ ls

/-- The program of a source text. -/
def ofSource (source : Bytes) : Except SourceError Program :=
  match TokenLine.ofSource source with
  | .error e => .error (.literal e)
  | .ok ls =>
      match ofTokenLines ls with
      | .error e => .error (.phrase e)
      | .ok p => .ok p

end Program
end Contrary
