import Contrary.Machine.State

/-!
# One step

What one operation does to the state of a running program.

**Order of checks.**  Operands are checked and read from left to right.  For an
array element the index variable must be alive, then the array, and then the
index must be in range.  A number is drawn from the source after its target is
known to be alive and before its index is looked at.

**Arithmetic.**  The value and the cell of the target are found first.  Then the
offset moves, the target is moved back, and the cell of the operand is found
again, with its index as it now is, and moved back too.  If that index has left
the array, the step fails with the offset moved.
-/

namespace Contrary

/-- The cell that a place denotes in a state. -/
inductive Address where
  | var (v : Nat)
  | cell (a i : Nat)
  deriving DecidableEq, Repr

namespace State

section Access

variable (s : State)

/-- The number stored at an address. -/
def load : Address → Int32
  | .var v => (s.vars.getD v ⟨0, false⟩).stored
  | .cell a i => (s.arrays.getD a ⟨#[], false⟩).cells.getD i 0

/-- Changes the number stored at an address. -/
def modify (f : Int32 → Int32) : Address → State
  | .var v => { s with vars := s.vars.modify v fun c => { c with stored := f c.stored } }
  | .cell a i =>
      { s with arrays := s.arrays.modify a fun b => { b with cells := b.cells.modify i f } }

/-- Requires a variable to be alive. -/
def requireVar (v : Nat) : Except Halt Unit :=
  match s.vars[v]? with
  | none => .error .stray
  | some c => if c.live then .ok () else .error (.abort .undefinedUse)

/-- Requires the variable of an index to be alive. -/
def requireIndex : Index → Except Halt Unit
  | .literal _ => .ok ()
  | .var v => s.requireVar v

/-- Requires a place to be alive. -/
def requirePlace : Place → Except Halt Unit
  | .var v => s.requireVar v
  | .element a i => do
      s.requireIndex i
      match s.arrays[a]? with
      | none => .error .stray
      | some b => if b.live then .ok () else .error (.abort .undefinedUse)

/-- The value of an index. -/
def indexValue : Index → Except Halt Int32
  | .literal n => .ok n
  | .var v =>
      match s.vars[v]? with
      | none => .error .stray
      | some c => .ok (c.stored + s.offset)

/-- The cell of a place.  An index out of range is blamed on the given line. -/
def address (names : Names) (l : OpLine) : Place → Except Halt Address
  | .var v => if v < s.vars.size then .ok (.var v) else .error .stray
  | .element a i => do
      let n ← s.indexValue i
      match s.arrays[a]? with
      | none => .error .stray
      | some b =>
          if 0 ≤ n.toInt ∧ n.toInt < b.cells.size then .ok (.cell a n.toInt.toNat)
          else .error (.failure l.line l.text (.outOfRange n (names.arrayDecl a).name b.cells.size))

/-- The shown value of an operand, which must be alive. -/
def value (names : Names) (l : OpLine) : Operand → Except Halt Int32
  | .literal n => .ok n
  | .stored p => do
      s.requirePlace p
      let q ← s.address names l p
      return s.load q + s.offset

end Access

section Effects

variable (s : State)

/-- Makes a variable alive, with shown value 0. -/
def define (v : Nat) : Except Halt State :=
  if v < s.vars.size then .ok { s with vars := s.vars.setIfInBounds v ⟨-s.offset, true⟩ }
  else .error .stray

/-- Kills a variable. -/
def undefine (v : Nat) : Except Halt State :=
  if v < s.vars.size then .ok { s with vars := s.vars.modify v fun c => { c with live := false } }
  else .error .stray

/-- Makes an array alive, with shown value 0 in every cell. -/
def defineArray (a : Nat) : Except Halt State :=
  if a < s.arrays.size then
    .ok { s with arrays := s.arrays.modify a fun b => ⟨b.cells.map fun _ => -s.offset, true⟩ }
  else .error .stray

/-- Kills an array. -/
def undefineArray (a : Nat) : Except Halt State :=
  if a < s.arrays.size then
    .ok { s with arrays := s.arrays.modify a fun b => { b with live := false } }
  else .error .stray

/-- Kills a flag. -/
def unmark (f : Nat) : Except Halt State :=
  if f < s.flags.size then .ok { s with flags := s.flags.setIfInBounds f false }
  else .error .stray

/-- Pins a flag, which must be alive. -/
def pin (f : Nat) : Except Halt State :=
  match s.flags[f]? with
  | none => .error .stray
  | some true => .ok { s with pinned := some f }
  | some false => .error (.abort .undefinedUse)

/-- Goes on at the pinned flag. -/
def jump (marks : Array Nat) : Except Halt State :=
  match s.pinned with
  | none => .error (.abort .nothingToPin)
  | some f =>
      match marks[f]? with
      | none => .error .stray
      | some i => .ok { s with pc := i }

/-- Stores a number that has been drawn. -/
def receive (names : Names) (l : OpLine) (target : Place) (n : Int32) : Except Halt State := do
  let q ← s.address names l target
  return s.modify (fun _ => n - s.offset) q

/-- Moves the offset by `d` and the cell at an address back by as much. -/
def shift (d : Int32) (q : Address) : State :=
  { s with offset := s.offset + d }.modify (· - d) q

/-- Adds or subtracts: moves every shown value by the value of an operand, or by
its negation, except those of the target and of the operand. -/
def move (names : Names) (l : OpLine) (direction : Int32 → Int32) (v : Operand) (target : Place) :
    State × Option Halt :=
  let found : Except Halt (Int32 × Address) := do
    let n ← s.value names l v
    s.requirePlace target
    let q ← s.address names l target
    return (direction n, q)
  match found, v with
  | .error h, _ => (s, some h)
  | .ok (d, q), .literal _ => (s.shift d q, none)
  | .ok (d, q), .stored p =>
      match (s.shift d q).address names l p with
      | .error h => (s.shift d q, some h)
      | .ok r => ((s.shift d q).modify (· - d) r, none)

end Effects

end State

/-- The outcome of an operation. -/
structure Step (σ : Type) where
  state : State
  input : σ
  /-- What the operation has written. -/
  output : Bytes
  /-- Why the program stops, if it does. -/
  halt : Option Halt

namespace Step

/-- The program goes on. -/
def next {σ : Type} (s : State) (input : σ) : Step σ :=
  ⟨s, input, [], none⟩

/-- The program stops. -/
def stop {σ : Type} (s : State) (input : σ) (h : Halt) : Step σ :=
  ⟨s, input, h.output, some h⟩

/-- The program goes on in a new state, or stops in the old one. -/
def ofState {σ : Type} (s : State) (input : σ) : Except Halt State → Step σ
  | .ok s' => next s' input
  | .error h => stop s input h

/-- The program writes a value, or stops. -/
def writing {σ : Type} (s : State) (input : σ) (render : Int32 → Bytes) :
    Except Halt Int32 → Step σ
  | .ok n => ⟨s, input, render n, none⟩
  | .error h => stop s input h

end Step

namespace Machine

/-- The number as a line of output. -/
def renderNumber (n : Int32) : Bytes :=
  Bytes.line (Bytes.decimal n.toInt)

/-- The lowest byte of a number as a line of output. -/
def renderChar (n : Int32) : Bytes :=
  Bytes.line [n.toUInt32.toUInt8]

/-- The comparison that decides whether the block opened at position `i` runs,
and the position at which the block is closed. -/
def condition? (m : Machine) (i : Nat) : Option (Nat × Operand × Operand × Comparison) :=
  match m.closing[i]? with
  | some (some j) =>
      match m.program.ops[j]? with
      | some ⟨.closeBlock a b c, _, _⟩ => some (j, a, b, c)
      | _ => none
  | _ => none

/-- Enters the block opened at position `i`, or goes on after it. -/
def branch (m : Machine) (l : OpLine) (i : Nat) (s : State) : Except Halt State :=
  match m.condition? i with
  | none => .error .stray
  | some (j, a, b, c) => do
      let x ← s.value m.program.names l a
      let y ← s.value m.program.names l b
      return if c.holds x y then s else { s with pc := j + 1 }

/-- Runs the operation of line `l` at position `i` in a state whose position is
already the next one. -/
def exec {σ : Type} [NumberSource σ] (m : Machine) (l : OpLine) (i : Nat) (s : State)
    (input : σ) : Step σ :=
  let names := m.program.names
  match l.op with
  | .define v => Step.ofState s input (s.define v)
  | .defineArray a => Step.ofState s input (s.defineArray a)
  | .undefine v => Step.ofState s input (s.undefine v)
  | .undefineArray a => Step.ofState s input (s.undefineArray a)
  | .read target =>
      match s.requirePlace target with
      | .error h => Step.stop s input h
      | .ok () =>
          match NumberSource.draw input with
          | (.error e, rest) => Step.stop s rest (.failure l.line l.text (.read e))
          | (.ok n, rest) => Step.ofState s rest (s.receive names l target n)
  | .print v => Step.writing s input renderNumber (s.value names l v)
  | .printChar v => Step.writing s input renderChar (s.value names l v)
  | .add v target =>
      let (s', h) := s.move names l id v target
      ⟨s', input, (h.map Halt.output).getD [], h⟩
  | .subtract v target =>
      let (s', h) := s.move names l (- ·) v target
      ⟨s', input, (h.map Halt.output).getD [], h⟩
  | .openBlock => Step.ofState s input (m.branch l i s)
  | .closeBlock _ _ _ => Step.next s input
  | .mark _ => Step.next s input
  | .unmark f => Step.ofState s input (s.unmark f)
  | .pin f => Step.ofState s input (s.pin f)
  | .goto => Step.ofState s input (s.jump m.marks)

/-- Runs the next operation.  At the end of the program nothing happens. -/
def step {σ : Type} [NumberSource σ] (m : Machine) (s : State) (input : σ) : Step σ :=
  match m.program.ops[s.pc]? with
  | none => Step.next s input
  | some l => m.exec l s.pc { s with pc := s.pc + 1 } input

end Machine
end Contrary
