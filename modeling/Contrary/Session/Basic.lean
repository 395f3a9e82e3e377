import Contrary.Build
import Contrary.Disk
import Contrary.Machine.Dialogue

/-!
# Interactive sessions

In a session the user types a program, line by line, and gives directives that
start with a colon.  Lines are added at the bottom, so the newest runs first.

A session answers one event after another; what it does with an event depends on
whether the user is editing or a running program has asked for a number.  The
answer to an event is a reply: what is written, and a file to be saved.
-/

namespace Contrary

/-- What a prompt brings. -/
inductive Event where
  | line (text : Bytes)
  /-- The user gave the prompt up. -/
  | aborted
  /-- The terminal failed. -/
  | failed (message : Bytes)
  | endOfInput
  deriving DecidableEq, Repr

/-- What a session is doing. -/
inductive Activity where
  | editing
  /-- A program has asked for a number. -/
  | asking (m : Machine) (s : State)
  /-- A program is running and has not come to a stop yet. -/
  | busy (m : Machine) (s : State)
  | closed
  deriving DecidableEq, Repr

/-- A session: the lines typed so far, from the top, and what it is doing. -/
structure Session where
  lines : List Bytes
  activity : Activity
  deriving DecidableEq, Repr

/-- The answer to an event. -/
structure Reply where
  out : Bytes
  err : Bytes
  /-- A path and the contents of the file to be saved there. -/
  save : Option (Bytes × Bytes)
  deriving DecidableEq, Repr

namespace Reply

/-- Nothing is written. -/
def silent : Reply :=
  ⟨[], [], none⟩

/-- A text on the output. -/
def say (out : Bytes) : Reply :=
  ⟨out, [], none⟩

/-- A text on the error output. -/
def complain (err : Bytes) : Reply :=
  ⟨[], err, none⟩

end Reply

/-- What the user can ask a session to do. -/
inductive Directive where
  | quit
  | help
  | code
  | program
  | tokens
  | run
  | find (name : Bytes)
  | list
  | undo
  | reset
  | write (path : Bytes)
  | unknown (word : Bytes)
  deriving DecidableEq, Repr

/-- The directive in a trimmed line: a word and, after a space, an argument. -/
def Directive.ofLine (line : Bytes) : Directive :=
  let (word, rest) := Bytes.cutAtSpace line
  let argument := rest.trim
  if word == ascii ":q" || word == ascii ":quit" then .quit
  else if word == ascii ":h" || word == ascii ":help" then .help
  else if word == ascii ":c" then .code
  else if word == ascii ":ir" then .program
  else if word == ascii ":tokens" then .tokens
  else if word == ascii ":run" then .run
  else if word == ascii ":find" then .find argument
  else if word == ascii ":list" then .list
  else if word == ascii ":undo" then .undo
  else if word == ascii ":reset" then .reset
  else if word == ascii ":write" then .write argument
  else .unknown word

namespace Session

/-- A session without lines. -/
def empty : Session :=
  ⟨[], .editing⟩

/-- The text that explains the directives. -/
def helpText : Bytes :=
  [ "Lines are added at the bottom of the program, so the newest line runs first.",
    "  :c            print the generated C",
    "  :ir           print the parsed representation",
    "  :tokens       print the token stream",
    "  :run          run the program, integers are read at the ? prompt",
    "  :list         show the program",
    "  :find <name>  show what a name is bound to",
    "  :undo         drop the last line",
    "  :reset        drop every line",
    "  :write <path> write the generated C to path",
    "  :help         show this text",
    "  :quit         leave" ].flatMap fun l => Bytes.line (ascii l)

/-- The source that the lines make. -/
def source (s : Session) : Bytes :=
  Listing.join s.lines

/-- Builds the program and goes on with what that gives, or reports the fault. -/
def building (s : Session) (k : Product → Session × Reply) : Session × Reply :=
  match Build.product s.source with
  | .error e => (s, .complain e.report.render)
  | .ok product => k product

/-- The reply to a run that has stopped. -/
def settle (s : Session) (m : Machine) : Run Answer × Pause → Session × Reply
  | (r, .asks) => ({ s with activity := .asking m r.state }, .say r.output.toList)
  | (r, .ended .stepLimit) => ({ s with activity := .busy m r.state }, .say r.output.toList)
  | (r, .ended .finished) => ({ s with activity := .editing }, .say r.output.toList)
  | (r, .ended (.halted (.abort _))) =>
      ({ s with activity := .editing }, .say (Bytes.line r.output.toList))
  | (r, .ended (.halted h)) =>
      ({ s with activity := .editing }, ⟨r.output.toList, Report.plain h.message, none⟩)

/-- Runs the program of a product for at most `limit` steps until it needs a
number. -/
def runProduct (s : Session) (limit : Nat) (product : Product) : Session × Reply :=
  match Machine.load product.program with
  | .error e => (s, .complain (Report.plain e.message))
  | .ok m => s.settle m (m.begin limit)

/-- What a name is bound to. -/
def describe (names : Names) (name : Bytes) : Reply :=
  let found (kind : NameKind) (handle : Bytes) : Reply :=
    .say (Bytes.line (name ++ ascii ": " ++ kind.label ++ ascii " " ++ handle))
  match names.find? name with
  | some (.variable, v) => found .variable (dumpVar v)
  | some (.array, a) =>
      found .array (dumpArray a ++ ascii " size " ++ Bytes.decimal (names.arrayDecl a).size)
  | some (.flag, f) => found .flag (dumpFlag f)
  | none => .complain (Bytes.line (name ++ ascii " is not defined"))

/-- The lines with their numbers. -/
def listing (s : Session) : Bytes :=
  s.lines.zipIdx.flatMap fun (l, i) =>
    Bytes.line (Bytes.padLeft 3 (Bytes.decimalNat (i + 1)) ++ ascii " | " ++ l)

/-- Does what a directive asks for.  A program may run for at most `limit`
steps. -/
def obey (s : Session) (limit : Nat) : Directive → Session × Reply
  | .quit => ({ s with activity := .closed }, .silent)
  | .help => (s, .say helpText)
  | .code => s.building fun p => (s, .say (Bytes.line p.code))
  | .program => s.building fun p => (s, .say p.program.dump)
  | .tokens =>
      match TokenLine.ofSource s.source with
      | .error e => (s, .complain (SourceError.literal e).report.render)
      | .ok tokens => (s, .say (TokenLine.dumpAll tokens))
  | .run => s.building fun p => s.runProduct limit p
  | .find name =>
      if name.isEmpty then (s, .complain (Bytes.line (ascii ":find needs a name")))
      else s.building fun p => (s, describe p.program.names name)
  | .list => (s, .say s.listing)
  | .undo => ({ s with lines := s.lines.dropLast }, .silent)
  | .reset => ({ s with lines := [] }, .silent)
  | .write path =>
      if path.isEmpty then (s, .complain (Bytes.line (ascii ":write needs a path")))
      else s.building fun p => (s, ⟨[], [], some (path, p.code)⟩)
  | .unknown word =>
      (s, .complain (Bytes.line (ascii "unknown command " ++ word ++ ascii ", try :help")))

/-- Takes a typed line: a directive, or a line of the program.  A line with a
number out of range is refused. -/
def handle (s : Session) (limit : Nat) (line : Bytes) : Session × Reply :=
  if (ascii ":").isPrefixOf line.trim then s.obey limit (Directive.ofLine line.trim)
  else
    match Token.ofLine line with
    | .error e => (s, .complain (Bytes.line (ascii "error: [lexer] " ++ e.message)))
    | .ok _ => ({ s with lines := s.lines ++ [line] }, .silent)

/-- The number that an event brings. -/
def numberOf : Event → Except ReadFailure Int32
  | .line text => (Answer.ofLine text).mapError .numeral
  | .aborted => .error .promptAborted
  | .failed message => .error (.device message)
  | .endOfInput => .error .endOfInput

/-- The prompt of a session that waits for an event. -/
def prompt? (s : Session) : Option Bytes :=
  match s.activity with
  | .editing => some (ascii "gnalose> ")
  | .asking _ _ => some (ascii "? ")
  | .busy _ _ => none
  | .closed => none

/-- Lets a program that is still running go on for at most `limit` steps. -/
def proceed (s : Session) (limit : Nat) : Session × Reply :=
  match s.activity with
  | .busy m state => s.settle m (m.converse limit ⟨state, ⟨.error .endOfInput⟩, #[]⟩)
  | _ => (s, .silent)

/-- Answers an event.  A program may run for at most `limit` steps before it
needs a number or stops. -/
def respond (s : Session) (limit : Nat) (e : Event) : Session × Reply :=
  match s.activity, e with
  | .editing, .line text => s.handle limit text
  | .editing, .aborted => (s, .say (Bytes.line []))
  | .editing, .failed message =>
      ({ s with activity := .closed }, .complain (Bytes.line (ascii "read error: " ++ message)))
  | .editing, .endOfInput => ({ s with activity := .closed }, .silent)
  | .asking m state, e => s.settle m (m.resume limit state (numberOf e))
  | .busy _ _, _ => (s, .silent)
  | .closed, _ => (s, .silent)

end Session
end Contrary
