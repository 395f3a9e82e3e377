import Contrary.CommandLine.Options
import Contrary.Session.Transcript

/-!
# The command line

What a command does, given its arguments.  How files, the clock and the input are
reached is left to the host that it runs on.

* With `-i` it is an interactive session.
* With `-r` it runs the program of a file.
* Otherwise it writes the C text of the program of a file, and only if there is
  no fault.
-/

namespace Contrary
namespace CommandLine

/-- The text that explains the arguments. -/
def usage : Bytes :=
  [ "usage: gnalose <input> [-o output] [-v] [-p] [-r]",
    "       gnalose -i",
    "",
    "  -o file  write C to file (default output.c)",
    "  -v       report the time spent in each stage",
    "  -p       print tokens, IR and C",
    "  -r       run the program instead of writing C",
    "  -i       interactive session" ].flatMap fun l => Bytes.line (ascii l)

/-- What a command has written and the status with which it ends. -/
structure Result where
  out : Bytes
  err : Bytes
  /-- The exit status; none while a program is still running. -/
  exit : Option Nat
  deriving DecidableEq, Repr

/-- A fault of the command itself. -/
def complaint (message : Bytes) : Bytes :=
  Bytes.line (ascii "gnalose: " ++ message)

/-- The result of arguments that cannot be followed. -/
def refuse : ArgumentError → Result
  | .help => ⟨usage, [], some 0⟩
  | .missingInput => ⟨[], complaint ArgumentError.missingInput.message ++ usage, some 0⟩
  | e => ⟨[], complaint e.message, some 1⟩

/-- The program in a file, or what is said if there is none.  A file that cannot
be opened is reported as such; one that cannot be read is reported as it is. -/
def loadProgram (contents : Except FileError Bytes) : Except Bytes Program :=
  match contents with
  | .error e => .error (Report.plain (if e.action = .opening then e.readMessage else e.message))
  | .ok source =>
      match Program.ofSource source with
      | .error e => .error e.report.render
      | .ok p => .ok p

/-- The machine for the program in a file, or what is said if there is none. -/
def loadMachine (contents : Except FileError Bytes) : Except Bytes Machine :=
  match loadProgram contents with
  | .error report => .error report
  | .ok p => (Machine.load p).mapError fun e => Report.plain e.message

/-- What follows the output of a program that has come to its ending. -/
def conclude : Ending → Result
  | .finished => ⟨[], [], some 0⟩
  | .halted (.abort _) => ⟨Bytes.line [], [], some 1⟩
  | .halted h => ⟨[], Report.plain h.message, some 1⟩
  | .stepLimit => ⟨[], [], none⟩

/-- What follows the saving of a C text, after the log of its build. -/
def afterSaving (log : Bytes) : Except FileError Unit → Result
  | .ok () => ⟨log, [], some 0⟩
  | .error e => ⟨log, complaint e.writeMessage, some 1⟩

/-- Where a command runs. -/
structure Host (m : Type → Type) where
  readFile : Bytes → m (Except FileError Bytes)
  writeFile : Bytes → Bytes → m (Except FileError Unit)
  /-- The times that the stages of a build of a source take. -/
  stageTimes : Bytes → m (Stage → Bytes)
  /-- Runs a machine to its ending.  What it writes is given back, unless the host
  has written it already. -/
  runMachine : Machine → m (Bytes × Ending)
  /-- Serves a session, with its output as above. -/
  serve : m Result

namespace Host

variable {m : Type → Type} [Monad m]

/-- Runs the program in a file. -/
def execute (h : Host m) (path : Bytes) : m Result := do
  match loadMachine (← h.readFile path) with
  | .error report => return ⟨[], report, some 1⟩
  | .ok machine =>
      let (output, ending) ← h.runMachine machine
      return { conclude ending with out := output ++ (conclude ending).out }

/-- The times of a build, if they are to be reported. -/
def reportTimes (h : Host m) (o : Options) (source : Bytes) : m (Stage → Bytes) :=
  if o.verbose then h.stageTimes source else pure fun _ => []

/-- Builds the program in a file, and saves the C text if there is one. -/
def compile (h : Host m) (o : Options) : m Result := do
  match ← h.readFile o.input with
  | .error e => return ⟨[], complaint e.readMessage, some 1⟩
  | .ok source =>
      let elapsed ← h.reportTimes o source
      match Build.run ⟨o.verbose, o.dump⟩ elapsed source with
      | (log, .error e) => return ⟨log, e.report.render, some 1⟩
      | (log, .ok product) =>
          return afterSaving log (← h.writeFile o.output product.code)

/-- Does what a command asks for. -/
def follow (h : Host m) (arguments : List Bytes) : m Result :=
  match Options.read arguments with
  | (_, some e) => pure (refuse e)
  | (o, none) =>
      if o.interactive then h.serve
      else if o.run then h.execute o.input
      else h.compile o

end Host

/-- The result of a whole session. -/
def Result.ofTranscript (t : Transcript) : Result :=
  ⟨t.exchanges.flatMap Exchange.out, t.exchanges.flatMap Exchange.err,
    if t.session.activity = .closed then some 0 else none⟩

/-- The host with a disk and an input, where a program may run for at most `limit` steps. -/
def Host.ofDisk (limit : Nat) (elapsed : Stage → Bytes) (input : Bytes) : Host (StateM Disk) where
  readFile path := fun d => (d.read path, d)
  writeFile path contents := fun d => d.write path contents
  stageTimes _ := pure elapsed
  runMachine machine :=
    let (r, ending) := machine.run limit (Scanner.mk input)
    pure (r.output.toList, ending)
  serve := fun d =>
    let t := Session.transcript limit d (Session.eventsOfInput input)
    (Result.ofTranscript t, t.disk)

/-- Does what a command asks for, on the host with a disk and an input. -/
def run (limit : Nat) (elapsed : Stage → Bytes) (arguments : List Bytes) (d : Disk)
    (input : Bytes) : Result × Disk :=
  (Host.ofDisk limit elapsed input).follow arguments d

end CommandLine
end Contrary
