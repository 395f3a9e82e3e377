import Contrary.Machine.Run

/-!
# Runs that ask for numbers

A run in a dialogue stops whenever it needs a number, and goes on when it has
been given an answer.
-/

namespace Contrary

/-- Why a run in a dialogue has stopped. -/
inductive Pause where
  /-- The next operation needs a number. -/
  | asks
  | ended (e : Ending)
  deriving DecidableEq, Repr

namespace Machine

/-- Whether the next operation draws a number. -/
def needsNumber (m : Machine) (s : State) : Bool :=
  match m.program.ops[s.pc]? with
  | some ⟨.read target, _, _⟩ => (s.requirePlace target).isOk
  | _ => false

/-- Goes on until a number is needed or the run ends, for at most `limit`
steps. -/
def converse (m : Machine) : (limit : Nat) → Run Answer → Run Answer × Pause
  | 0, r =>
      if m.needsNumber r.state then (r, .asks)
      else
        let (r', ending) := m.runFor 0 r
        (r', .ended ending)
  | limit + 1, r =>
      if m.needsNumber r.state then (r, .asks)
      else
        match m.runFor 1 r with
        | (r', .stepLimit) => converse m limit r'
        | (r', ending) => (r', .ended ending)

/-- Starts a run in a dialogue. -/
def begin (m : Machine) (limit : Nat) : Run Answer × Pause :=
  m.converse limit ⟨m.start, ⟨.error .endOfInput⟩, #[]⟩

/-- Goes on with an answer for the operation that needs a number. -/
def resume (m : Machine) (limit : Nat) (s : State) (answer : Except ReadFailure Int32) :
    Run Answer × Pause :=
  match m.runFor 1 ⟨s, ⟨answer⟩, #[]⟩ with
  | (r, .stepLimit) => m.converse limit r
  | (r, ending) => (r, .ended ending)

end Machine
end Contrary
