import Contrary.Machine.Input
import Contrary.Program.Basic
import Contrary.Program.Pairing

/-!
# The machine

A machine is a program that is ready to run: its blocks are paired, and the
operation at which each flag is placed is known.

**Storage.**  A cell stores its shown value minus a common offset.  Moving the
offset moves every shown value at once.  All arithmetic is on 32-bit integers
and wraps around.

**Liveness.**  Variables and arrays are dead until they are defined; flags are
alive until they are unmarked.  The use of something dead aborts the program.

**Handles.**  A program that was read from a source refers only to entries of
its tables.  For programs made by other means, a handle outside its table ends
the run with `Halt.stray`.
-/

namespace Contrary

/-- Why a program gives itself up. -/
inductive Abort where
  | nothingToPin
  | undefinedUse
  | leak (name : Bytes)
  deriving DecidableEq, Repr

/-- Why a line of a program cannot be run. -/
inductive Failure where
  | read (cause : ReadFailure)
  | outOfRange (index : Int32) (array : Bytes) (size : Nat)
  deriving DecidableEq, Repr

/-- Why a program stops before its end. -/
inductive Halt where
  | abort (cause : Abort)
  | failure (line : Int) (text : Bytes) (cause : Failure)
  | stray
  deriving DecidableEq, Repr

/-- What an aborting program writes. -/
def Abort.message : Abort → Bytes
  | .nothingToPin => ascii "ABORTED\n:nothing to pin"
  | .undefinedUse => ascii "ABORTED\nTried to use already undefined variable/flag/array"
  | .leak name =>
      ascii "ABORTED\nMemory leaked: " ++ name ++
        ascii ". Everything should be undefined at the end using \"define\""

/-- The wording of a failure. -/
def Failure.message : Failure → Bytes
  | .read cause => ascii "read: " ++ cause.message
  | .outOfRange index array size =>
      ascii "index " ++ Bytes.decimal index.toInt ++ ascii " out of range for array " ++ array ++
        ascii "[" ++ Bytes.decimalNat size ++ ascii "]"

namespace Halt

/-- The wording of a halt. -/
def message : Halt → Bytes
  | .abort cause => cause.message
  | .failure line text cause =>
      ascii "line " ++ Bytes.decimal line ++ ascii " (from bottom) " ++ text.quoted ++
        ascii ": " ++ cause.message
  | .stray => ascii "handle outside its table"

/-- What a halting program writes. -/
def output : Halt → Bytes
  | .abort cause => cause.message
  | _ => []

end Halt

/-- A program that is ready to run. -/
structure Machine where
  program : Program
  /-- Where the blocks end. -/
  closing : Pairing
  /-- Where each flag is placed. -/
  marks : Array Nat
  deriving DecidableEq, Repr

/-- A variable of a running program. -/
structure Cell where
  stored : Int32
  live : Bool
  deriving DecidableEq, Repr

/-- An array of a running program. -/
structure Bank where
  cells : Array Int32
  live : Bool
  deriving DecidableEq, Repr

/-- The state of a running program. -/
structure State where
  offset : Int32
  vars : Array Cell
  arrays : Array Bank
  /-- Which flags are alive. -/
  flags : Array Bool
  pinned : Option Nat
  /-- The position of the next operation. -/
  pc : Nat
  deriving DecidableEq, Repr

namespace Machine

/-- Where each flag is placed: at its last mark, and at the first operation if it
has none. -/
def placeFlags (p : Program) : Array Nat :=
  p.ops.toList.zipIdx.foldl
    (fun marks (l, i) =>
      match l.op with
      | .mark f => marks.setIfInBounds f i
      | _ => marks)
    (Array.replicate p.names.flags.size 0)

/-- Makes a program ready to run; its blocks must pair. -/
def load (p : Program) : Except BlockError Machine :=
  (Pairing.ofOps (p.ops.toList.map OpLine.op)).map fun t => ⟨p, t, placeFlags p⟩

/-- The state before the first operation. -/
def start (m : Machine) : State where
  offset := 0
  vars := m.program.names.vars.map fun _ => ⟨0, false⟩
  arrays := m.program.names.arrays.map fun d => ⟨Array.replicate d.size.toNat 0, false⟩
  flags := m.program.names.flags.map fun _ => true
  pinned := none
  pc := 0

end Machine
end Contrary
