import Contrary.Program.OfTokens
import Contrary.Target.OfProgram

/-!
# Builds

A build takes a source through all stages and keeps what each of them gives:
the token lines, the program and its C text.  On request it reports how long a
stage took and what it gave, as far as the build gets.
-/

namespace Contrary

/-- The stages of a build. -/
inductive Stage where
  | tokens
  | program
  | code
  deriving DecidableEq, Repr

/-- What a build gives. -/
structure Product where
  tokens : List TokenLine
  program : Program
  code : Bytes
  deriving DecidableEq, Repr

namespace Build

/-- What a build reports. -/
structure Options where
  /-- The time that each stage took. -/
  verbose : Bool
  /-- What each stage gave. -/
  dump : Bool
  deriving DecidableEq, Repr

/-- The line that ends a stage. -/
def doneLine (elapsed : Stage → Bytes) (stage : Stage) : Bytes :=
  let word := match stage with
    | .tokens => "TOKENIZATION"
    | .program => "PARSING"
    | .code => "COMPILATION"
  Bytes.line (ascii word ++ ascii " DONE in " ++ elapsed stage ++ ascii " s")

/-- The line above what a stage gave. -/
def dumpTitle (stage : Stage) : Bytes :=
  let word := match stage with
    | .tokens => "Tokenization"
    | .program => "Parsing"
    | .code => "Compilation"
  Bytes.line (ascii word ++ ascii " Output:")

/-- The report of a stage.  `elapsed` is the text of the time that it took. -/
def log (o : Options) (elapsed : Stage → Bytes) (stage : Stage) (dump : Bytes) : Bytes :=
  (if o.verbose then doneLine elapsed stage else []) ++
    (if o.dump then dumpTitle stage ++ dump else [])

/-- Takes a source through all stages.  The reports of the stages that were
finished stand even if a later one fails. -/
def run (o : Options) (elapsed : Stage → Bytes) (source : Bytes) :
    Bytes × Except SourceError Product :=
  match TokenLine.ofSource source with
  | .error e => ([], .error (.literal e))
  | .ok tokens =>
      let log₁ := log o elapsed .tokens (TokenLine.dumpAll tokens)
      match Program.ofTokenLines tokens with
      | .error e => (log₁, .error (.phrase e))
      | .ok program =>
          let log₂ := log₁ ++ log o elapsed .program program.dump
          match program.toC with
          | .error e => (log₂, .error (.block e))
          | .ok code =>
              (log₂ ++ log o elapsed .code (Bytes.line code), .ok ⟨tokens, program, code⟩)

/-- What a build gives, without reports. -/
def product (source : Bytes) : Except SourceError Product :=
  (run ⟨false, false⟩ (fun _ => []) source).2

end Build
end Contrary
