import Contrary.Machine.Step

/-!
# Runs

A run repeats steps until the program halts, reaches its end, or has made as
many steps as it may.  At the end everything must be dead: the first variable,
array or flag that is alive is a leak, and aborts the program.

A program may run forever, so every run has a limit.  A limit that is not reached
makes no difference.
-/

namespace Contrary

/-- How a run ends. -/
inductive Ending where
  | finished
  | halted (h : Halt)
  | stepLimit
  deriving DecidableEq, Repr

/-- The wording of an ending that is a fault. -/
def Ending.message : Ending → Bytes
  | .finished => []
  | .halted h => h.message
  | .stepLimit => ascii "step limit exceeded"

/-- A run so far: the state, the rest of the input and all that was written. -/
structure Run (σ : Type) where
  state : State
  input : σ
  output : Array UInt8

namespace Machine

/-- The first name that is alive, among the variables, the arrays and the
flags. -/
def leaked? (m : Machine) (s : State) : Option Bytes :=
  let names := m.program.names
  let alive (entries : List (Bytes × Bool)) : Option Bytes := (entries.find? (·.2)).map (·.1)
  (alive (names.vars.toList.zip (s.vars.toList.map Cell.live))).or <|
    (alive ((names.arrays.toList.map ArrayDecl.name).zip (s.arrays.toList.map Bank.live))).or <|
      alive (names.flags.toList.zip s.flags.toList)

/-- How a program ends that has reached its end. -/
def finalHalt? (m : Machine) (s : State) : Option Halt :=
  (m.leaked? s).map fun name => .abort (.leak name)

/-- Whether no operation is left. -/
def atEnd (m : Machine) (s : State) : Bool :=
  m.program.ops.size ≤ s.pc

section

variable {σ : Type} [NumberSource σ]

/-- Ends a run that has reached the end of the program. -/
def finish (m : Machine) (r : Run σ) : Run σ × Ending :=
  match m.finalHalt? r.state with
  | none => (r, .finished)
  | some h => ({ r with output := r.output ++ h.output }, .halted h)

/-- A run after one more step, with the reason to stop, if there is one. -/
def advance (m : Machine) (r : Run σ) : Run σ × Option Halt :=
  let t := m.step r.state r.input
  (⟨t.state, t.input, r.output ++ t.output⟩, t.halt)

/-- Goes on with a run for at most `limit` steps. -/
def runFor (m : Machine) : (limit : Nat) → Run σ → Run σ × Ending
  | 0, r => if m.atEnd r.state then m.finish r else (r, .stepLimit)
  | limit + 1, r =>
      if m.atEnd r.state then m.finish r
      else
        match m.advance r with
        | (r', some h) => (r', .halted h)
        | (r', none) => runFor m limit r'

/-- Runs a program from its start. -/
def run (m : Machine) (limit : Nat) (input : σ) : Run σ × Ending :=
  m.runFor limit ⟨m.start, input, #[]⟩

/-- Goes on from a state one step at a time, for at most `limit` steps.  Every
step is recorded with the state after it and what it wrote. -/
def traceFrom (m : Machine) : (limit : Nat) → State → σ → List (State × Bytes) × Ending
  | 0, _, _ => ([], .stepLimit)
  | limit + 1, s, input =>
      match m.runFor 1 ⟨s, input, #[]⟩ with
      | (r, .stepLimit) =>
          let (later, ending) := traceFrom m limit r.state r.input
          ((r.state, r.output.toList) :: later, ending)
      | (r, ending) => ([(r.state, r.output.toList)], ending)

/-- Runs a program from its start and records every step. -/
def trace (m : Machine) (limit : Nat) (input : σ) : List (State × Bytes) × Ending :=
  m.traceFrom limit m.start input

end

end Machine
end Contrary
