import Contrary.CommandLine.Run
import Contrary.HistoryFile

/-!
# The program

The outer layer of the command line: it reads and writes real files and streams
and leaves every decision to the library.
-/

namespace Contrary
namespace Main

/-- How many steps a program runs between two looks at the outside. -/
def stride : Nat :=
  1000000

/-- Writes a text to a stream. -/
def put (stream : IO.FS.Stream) (s : Bytes) : IO Unit := do
  unless s.isEmpty do
    stream.write ⟨s.toArray⟩
    stream.flush

/-- The fault that the system reports. -/
def faultOf : IO.Error → FileFault
  | .noFileOrDirectory _ _ _ => .missing
  | .inappropriateType _ 20 _ => .notDirectory
  | .inappropriateType _ _ _ => .isDirectory
  | .invalidArgument _ 36 _ => .nameTooLong
  | .invalidArgument _ 22 _ => .invalidName
  | .resourceExhausted _ 28 _ => .noSpace
  | .permissionDenied _ _ _ => .system (ascii "permission denied")
  | e => .system e.toString.toUTF8.toList

/-- The path that a text names. -/
def pathText (path : Bytes) : String :=
  (String.fromUTF8? ⟨path.toArray⟩).getD ""

/-- Does something with a file; a failure is reported with what was done. -/
def attempt {α : Type} (action : FileAction) (path : Bytes) (work : IO α) :
    IO (Except FileError α) := do
  try
    return .ok (← work)
  catch e =>
    return .error ⟨action, path, faultOf e⟩

/-- Opens a file and goes on with its handle. -/
def withFile {α : Type} (mode : IO.FS.Mode) (action : FileAction) (path : Bytes)
    (work : IO.FS.Handle → IO α) : IO (Except FileError α) := do
  match ← attempt .opening path (IO.FS.Handle.mk (pathText path) mode) with
  | .error e => return .error e
  | .ok handle => attempt action path (work handle)

/-- Reads a file. -/
def readFile (path : Bytes) : IO (Except FileError Bytes) :=
  withFile .read .reading path fun handle => return (← handle.readBinToEnd).toList

/-- Writes a file. -/
def writeFile (path contents : Bytes) : IO (Except FileError Unit) :=
  withFile .write .writing path fun handle => do
    handle.write ⟨contents.toArray⟩
    -- a write that is held back can still fail
    handle.flush

/-- A span of time in seconds. -/
def seconds (nanos : Nat) : Bytes :=
  let digits := Bytes.decimalNat (nanos % 1000000000)
  Bytes.decimalNat (nanos / 1000000000) ++ ascii "." ++
    List.replicate (9 - digits.length) '0'.toUInt8 ++ digits

/-- The result of a computation and the time that it takes. -/
def timed {α : Type} (work : Unit → α) : IO (α × Bytes) := do
  let before ← IO.monoNanosNow
  let result ← IO.lazyPure work
  let after ← IO.monoNanosNow
  return (result, seconds (after - before))

/-- The times that the stages of a build take. -/
def stageTimes (source : Bytes) : IO (Stage → Bytes) := do
  let (tokens, tokensTime) ← timed fun _ => TokenLine.ofSource source
  let (program, programTime) ← timed fun _ => Program.ofTokenLines (tokens.toOption.getD [])
  let (_, codeTime) ← timed fun _ => program.toOption.map Program.toC
  return fun
    | .tokens => tokensTime
    | .program => programTime
    | .code => codeTime

/-- Reads the rest of a line, with its line feed, after the bytes that are given
backwards; empty at the end of the input. -/
partial def readLine (stdin : IO.FS.Stream) (before : Bytes) : IO Bytes := do
  let chunk ← stdin.read 1
  if chunk.isEmpty then return before.reverse
  let line := chunk.toList ++ before
  if chunk.toList == ['\n'.toUInt8] then return line.reverse else readLine stdin line

/-- Runs a program to its end, reading a line whenever the numbers run out. -/
partial def execute (m : Machine) (r : Run Scanner) (stdin stdout : IO.FS.Stream) :
    IO Ending := do
  if m.needsNumber r.state && r.input.rest.trimFront.isEmpty then
    let line ← readLine stdin []
    unless line.isEmpty do
      return ← execute m { r with input := ⟨r.input.rest ++ line⟩ } stdin stdout
  let (r, ending) := m.runFor 1 r
  put stdout r.output.toList
  let r := { r with output := #[] }
  match ending with
  | .stepLimit => execute m r stdin stdout
  | _ => return ending

/-- Saves the file of a reply, if it has one, and writes the reply. -/
def putReply (r : Reply) (stdout stderr : IO.FS.Stream) : IO Unit := do
  let r ← match r.save with
    | none => pure r
    | some (path, contents) => do pure (r.afterSaving (← writeFile path contents))
  put stdout r.out
  put stderr r.err

/-- Serves a session until it is closed.  The result is what was typed. -/
partial def serve (s : Session) (terminal : Bool) (typed : List Bytes)
    (stdin stdout stderr : IO.FS.Stream) : IO (List Bytes) := do
  match s.activity, s.prompt? with
  | .busy _ _, _ =>
      let (s, reply) := s.proceed stride
      putReply reply stdout stderr
      serve s terminal typed stdin stdout stderr
  | _, none => return typed
  | _, some prompt =>
      if terminal then put stdout prompt
      let line ← readLine stdin []
      let event := (Session.eventsOfInput line).head?.getD .endOfInput
      let (s, reply) := s.respond stride event
      putReply reply stdout stderr
      serve s terminal (if line.trim.isEmpty then typed else line.trim :: typed) stdin stdout stderr

/-- Keeps the lines that were typed. -/
def keepHistory (typed : List Bytes) : IO Unit := do
  let home := ((← IO.getEnv "HOME").getD "").toUTF8.toList
  let path := historyFile (← IO.appPath).toString.toUTF8.toList home
  unless path.isEmpty do
    let before := (← readFile path).toOption.getD []
    let _ ← writeFile path (before ++ typed.reverse.flatMap Bytes.line)

/-- An interactive session. -/
def interact (stdin stdout stderr : IO.FS.Stream) : IO CommandLine.Result := do
  let terminal ← stdin.isTty
  if terminal then put stdout (Bytes.line (ascii "gnalose interactive session, :help for commands"))
  let typed ← serve Session.empty terminal [] stdin stdout stderr
  if terminal then keepHistory typed
  return ⟨[], [], some 0⟩

/-- The real files and streams.  Programs and sessions write as they go. -/
def host (stdin stdout stderr : IO.FS.Stream) : CommandLine.Host IO where
  readFile := readFile
  writeFile := writeFile
  stageTimes := stageTimes
  runMachine m := return ([], ← execute m ⟨m.start, ⟨[]⟩, #[]⟩ stdin stdout)
  serve := interact stdin stdout stderr

end Main
end Contrary

open Contrary in
/-- Follows the arguments of the command line. -/
def main (arguments : List String) : IO UInt32 := do
  let stdin ← IO.getStdin
  let stdout ← IO.getStdout
  let stderr ← IO.getStderr
  let result ← (Main.host stdin stdout stderr).follow (arguments.map fun a => a.toUTF8.toList)
  Main.put stdout result.out
  Main.put stderr result.err
  return UInt32.ofNat (result.exit.getD 0)
