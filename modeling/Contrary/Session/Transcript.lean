import Contrary.Session.Basic

/-!
# Transcripts

A whole session: the exchanges that a list of events leads to, with a disk where
files are saved.  After the last event the input ends.
-/

namespace Contrary

/-- One turn of a session: the prompt, what was written until the next prompt,
and the lines of the program then. -/
structure Exchange where
  prompt : Bytes
  out : Bytes
  err : Bytes
  lines : List Bytes
  deriving DecidableEq, Repr

/-- A session from its start to its end. -/
structure Transcript where
  exchanges : List Exchange
  session : Session
  disk : Disk
  /-- The events that were left when the session ended. -/
  unread : List Event
  deriving DecidableEq, Repr

/-- A reply after its file was saved, or was not: a failure is added to what the
reply writes. -/
def Reply.afterSaving (r : Reply) : Except FileError Unit → Reply
  | .ok () => r
  | .error e => { r with err := r.err ++ Report.plain e.writeMessage }

/-- Saves the file of a reply, if it has one. -/
def Reply.perform (r : Reply) (d : Disk) : Reply × Disk :=
  match r.save with
  | none => (r, d)
  | some (path, contents) =>
      let (outcome, d') := d.write path contents
      (r.afterSaving outcome, d')

namespace Session

/-- Answers events until the session waits for none or no event is left. -/
def answerAll (limit : Nat) : Session → Disk → List Event → Transcript
  | s, d, [] => ⟨[], s, d, []⟩
  | s, d, e :: events =>
      match s.prompt? with
      | none => ⟨[], s, d, e :: events⟩
      | some prompt =>
          let (s', reply) := s.respond limit e
          let (reply, d') := reply.perform d
          let later := answerAll limit s' d' events
          let exchange := ⟨prompt, reply.out, reply.err, s'.lines⟩
          { later with exchanges := exchange :: later.exchanges }

/-- A whole session.  The end of the input is met at most twice: once by a
program that asks for a number, and once by the user's prompt. -/
def transcript (limit : Nat) (d : Disk) (events : List Event) : Transcript :=
  let t := empty.answerAll limit d (events ++ [.endOfInput, .endOfInput])
  { t with unread := t.unread.filter (· ≠ .endOfInput) }

/-- The events of an input that is not a terminal: its lines, without the
carriage returns and line feeds at their ends. -/
def eventsOfInput (input : Bytes) : List Event :=
  let pieces := Bytes.splitOn '\n'.toUInt8 input
  let pieces := if pieces.getLast? = some [] then pieces.dropLast else pieces
  pieces.map fun p => .line (Bytes.dropEndWhile (· == '\r'.toUInt8) p)

end Session
end Contrary
