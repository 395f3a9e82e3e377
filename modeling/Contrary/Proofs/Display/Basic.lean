import Contrary.Machine.Run
import Contrary.Proofs.Names

/-!
# The machine of shown values

A machine that stores no offset: its cells hold the values that a program shows.
An addition adds a number to every cell there is, and takes it off the target
and the operand again.

**Order of checks.**  That of the real machine.  The cell of the target is found
before anything moves; the cell of the operand is found again after every cell has
gained the number and the target has been taken back.

**Results.**
* `load_move`: what an addition does to the value of every cell.
* `value_var`: a variable that is an operand is found again where it was.
-/

namespace Contrary

/-- A state as a program shows it.  The cells hold values, dead ones included. -/
structure Display where
  vars : Array Cell
  arrays : Array Bank
  flags : Array Bool
  pinned : Option Nat
  pc : Nat
  deriving DecidableEq, Repr

namespace Display

section Access

variable (d : Display)

/-- The value at an address. -/
def load : Address → Int32
  | .var v => (d.vars.getD v ⟨0, false⟩).stored
  | .cell a i => (d.arrays.getD a ⟨#[], false⟩).cells.getD i 0

/-- Changes the value at an address. -/
def modify (f : Int32 → Int32) : Address → Display
  | .var v => { d with vars := d.vars.modify v fun c => { c with stored := f c.stored } }
  | .cell a i =>
      { d with arrays := d.arrays.modify a fun b => { b with cells := b.cells.modify i f } }

/-- Adds a number to every variable and to every cell of every array. -/
def raise (t : Int32) : Display :=
  { d with
    vars := d.vars.map fun c => { c with stored := c.stored + t }
    arrays := d.arrays.map fun b => { b with cells := b.cells.map (· + t) } }

/-- Adds a number to every cell but one. -/
def raiseBut (t : Int32) (q : Address) : Display :=
  (d.raise t).modify (· - t) q

/-- Requires a variable to be alive. -/
def requireVar (v : Nat) : Except Halt Unit :=
  match d.vars[v]? with
  | none => .error .stray
  | some c => if c.live then .ok () else .error (.abort .undefinedUse)

/-- Requires the variable of an index to be alive. -/
def requireIndex : Index → Except Halt Unit
  | .literal _ => .ok ()
  | .var v => d.requireVar v

/-- Requires a place to be alive. -/
def requirePlace : Place → Except Halt Unit
  | .var v => d.requireVar v
  | .element a i => do
      d.requireIndex i
      match d.arrays[a]? with
      | none => .error .stray
      | some b => if b.live then .ok () else .error (.abort .undefinedUse)

/-- The value of an index. -/
def indexValue : Index → Except Halt Int32
  | .literal n => .ok n
  | .var v =>
      match d.vars[v]? with
      | none => .error .stray
      | some c => .ok c.stored

/-- The cell of a place. -/
def address (names : Names) (l : OpLine) : Place → Except Halt Address
  | .var v => if v < d.vars.size then .ok (.var v) else .error .stray
  | .element a i => do
      let n ← d.indexValue i
      match d.arrays[a]? with
      | none => .error .stray
      | some b =>
          if 0 ≤ n.toInt ∧ n.toInt < b.cells.size then .ok (.cell a n.toInt.toNat)
          else .error (.failure l.line l.text (.outOfRange n (names.arrayDecl a).name b.cells.size))

/-- The value of an operand, which must be alive. -/
def value (names : Names) (l : OpLine) : Operand → Except Halt Int32
  | .literal n => .ok n
  | .stored p => do
      d.requirePlace p
      let q ← d.address names l p
      return d.load q

end Access

section Effects

variable (d : Display)

/-- Makes a variable alive, with value 0. -/
def define (v : Nat) : Except Halt Display :=
  if v < d.vars.size then .ok { d with vars := d.vars.setIfInBounds v ⟨0, true⟩ }
  else .error .stray

/-- Kills a variable. -/
def undefine (v : Nat) : Except Halt Display :=
  if v < d.vars.size then .ok { d with vars := d.vars.modify v fun c => { c with live := false } }
  else .error .stray

/-- Makes an array alive, with value 0 in every cell. -/
def defineArray (a : Nat) : Except Halt Display :=
  if a < d.arrays.size then
    .ok { d with arrays := d.arrays.modify a fun b => ⟨b.cells.map fun _ => 0, true⟩ }
  else .error .stray

/-- Kills an array. -/
def undefineArray (a : Nat) : Except Halt Display :=
  if a < d.arrays.size then
    .ok { d with arrays := d.arrays.modify a fun b => { b with live := false } }
  else .error .stray

/-- Kills a flag. -/
def unmark (f : Nat) : Except Halt Display :=
  if f < d.flags.size then .ok { d with flags := d.flags.setIfInBounds f false }
  else .error .stray

/-- Pins a flag, which must be alive. -/
def pin (f : Nat) : Except Halt Display :=
  match d.flags[f]? with
  | none => .error .stray
  | some true => .ok { d with pinned := some f }
  | some false => .error (.abort .undefinedUse)

/-- Goes on at the pinned flag. -/
def jump (marks : Array Nat) : Except Halt Display :=
  match d.pinned with
  | none => .error (.abort .nothingToPin)
  | some f =>
      match marks[f]? with
      | none => .error .stray
      | some i => .ok { d with pc := i }

/-- Sets the target to a number that has been drawn. -/
def receive (names : Names) (l : OpLine) (target : Place) (n : Int32) : Except Halt Display := do
  let q ← d.address names l target
  return d.modify (fun _ => n) q

/-- Adds the value of an operand, or its negation, to every cell; then takes it off
the target, whose cell was found before, and off the operand, whose cell is found
with the values as they are by then. -/
def move (names : Names) (l : OpLine) (direction : Int32 → Int32) (v : Operand) (target : Place) :
    Display × Option Halt :=
  let found : Except Halt (Int32 × Address) := do
    let n ← d.value names l v
    d.requirePlace target
    let q ← d.address names l target
    return (direction n, q)
  match found with
  | .error h => (d, some h)
  | .ok (t, q) =>
      match v with
      | .literal _ => (d.raiseBut t q, none)
      | .stored p =>
          match (d.raiseBut t q).address names l p with
          | .error h => (d.raiseBut t q, some h)
          | .ok r => ((d.raiseBut t q).modify (· - t) r, none)

/-- Enters the block opened at position `i`, or goes on after it. -/
def branch (m : Machine) (l : OpLine) (i : Nat) : Except Halt Display :=
  match m.condition? i with
  | none => .error .stray
  | some (j, a, b, c) => do
      let x ← d.value m.program.names l a
      let y ← d.value m.program.names l b
      return if c.holds x y then d else { d with pc := j + 1 }

end Effects

/-- The outcome of an operation. -/
structure Step (σ : Type) where
  display : Display
  input : σ
  output : Bytes
  halt : Option Halt

namespace Step

/-- The program stops. -/
def stop {σ : Type} (d : Display) (input : σ) (h : Halt) : Step σ :=
  ⟨d, input, h.output, some h⟩

/-- The program goes on in a new state, or stops in the old one. -/
def ofDisplay {σ : Type} (d : Display) (input : σ) : Except Halt Display → Step σ
  | .ok d' => ⟨d', input, [], none⟩
  | .error h => stop d input h

/-- The program writes a value, or stops. -/
def writing {σ : Type} (d : Display) (input : σ) (render : Int32 → Bytes) :
    Except Halt Int32 → Step σ
  | .ok n => ⟨d, input, render n, none⟩
  | .error h => stop d input h

end Step

/-- A run so far. -/
structure Run (σ : Type) where
  display : Display
  input : σ
  output : Array UInt8

section Run

variable {σ : Type} [NumberSource σ]

/-- Runs the operation of line `l` at position `i`. -/
def exec (m : Machine) (l : OpLine) (i : Nat) (d : Display) (input : σ) : Step σ :=
  let names := m.program.names
  match l.op with
  | .define v => .ofDisplay d input (d.define v)
  | .defineArray a => .ofDisplay d input (d.defineArray a)
  | .undefine v => .ofDisplay d input (d.undefine v)
  | .undefineArray a => .ofDisplay d input (d.undefineArray a)
  | .read target =>
      match d.requirePlace target with
      | .error h => .stop d input h
      | .ok () =>
          match NumberSource.draw input with
          | (.error e, rest) => .stop d rest (.failure l.line l.text (.read e))
          | (.ok n, rest) => .ofDisplay d rest (d.receive names l target n)
  | .print v => .writing d input Machine.renderNumber (d.value names l v)
  | .printChar v => .writing d input Machine.renderChar (d.value names l v)
  | .add v target =>
      let (d', h) := d.move names l id v target
      ⟨d', input, (h.map Halt.output).getD [], h⟩
  | .subtract v target =>
      let (d', h) := d.move names l (- ·) v target
      ⟨d', input, (h.map Halt.output).getD [], h⟩
  | .openBlock => .ofDisplay d input (d.branch m l i)
  | .closeBlock _ _ _ => ⟨d, input, [], none⟩
  | .mark _ => ⟨d, input, [], none⟩
  | .unmark f => .ofDisplay d input (d.unmark f)
  | .pin f => .ofDisplay d input (d.pin f)
  | .goto => .ofDisplay d input (d.jump m.marks)

/-- Runs the next operation. -/
def step (m : Machine) (d : Display) (input : σ) : Step σ :=
  match m.program.ops[d.pc]? with
  | none => ⟨d, input, [], none⟩
  | some l => exec m l d.pc { d with pc := d.pc + 1 } input

/-- The first name that is alive, among the variables, the arrays and the flags. -/
def leaked? (m : Machine) (d : Display) : Option Bytes :=
  let names := m.program.names
  let alive (entries : List (Bytes × Bool)) : Option Bytes := (entries.find? (·.2)).map (·.1)
  (alive (names.vars.toList.zip (d.vars.toList.map Cell.live))).or <|
    (alive ((names.arrays.toList.map ArrayDecl.name).zip (d.arrays.toList.map Bank.live))).or <|
      alive (names.flags.toList.zip d.flags.toList)

/-- Ends a run that has reached the end of the program. -/
def finish (m : Machine) (r : Run σ) : Run σ × Ending :=
  match leaked? m r.display with
  | none => (r, .finished)
  | some name =>
      ({ r with output := r.output ++ (Abort.leak name).message }, .halted (.abort (.leak name)))

/-- Goes on with a run for at most `limit` steps. -/
def runFor (m : Machine) : (limit : Nat) → Run σ → Run σ × Ending
  | 0, r => if m.program.ops.size ≤ r.display.pc then finish m r else (r, .stepLimit)
  | limit + 1, r =>
      if m.program.ops.size ≤ r.display.pc then finish m r
      else
        let t := step m r.display r.input
        match t.halt with
        | some h => (⟨t.display, t.input, r.output ++ t.output⟩, .halted h)
        | none => runFor m limit ⟨t.display, t.input, r.output ++ t.output⟩

/-- The state before the first operation. -/
def start (m : Machine) : Display where
  vars := m.program.names.vars.map fun _ => ⟨0, false⟩
  arrays := m.program.names.arrays.map fun a => ⟨Array.replicate a.size.toNat 0, false⟩
  flags := m.program.names.flags.map fun _ => true
  pinned := none
  pc := 0

/-- Runs a program from its start. -/
def run (m : Machine) (limit : Nat) (input : σ) : Run σ × Ending :=
  runFor m limit ⟨start m, input, #[]⟩

end Run

end Display

namespace Display

section Values

variable {d : Display}

/-- An address of a cell that there is. -/
def Has (d : Display) : Address → Prop
  | .var v => v < d.vars.size
  | .cell a i => ∃ b, d.arrays[a]? = some b ∧ i < b.cells.size

theorem has_of_address
    {names : Names} {l : OpLine} {p : Place} {q : Address}
    (h : d.address names l p = .ok q) :
    d.Has q := by
  cases p with
  | var v =>
      simp only [address] at h
      split_ifs at h with hv
      cases h
      exact hv
  | element a i =>
      simp only [address] at h
      obtain ⟨n, -, h⟩ := bind_eq_ok_iff.mp h
      split at h
      · cases h
      · rename_i b hb
        split_ifs at h with hn
        cases h
        exact ⟨b, hb, by omega⟩

theorem load_raise
    {q : Address}
    (h : d.Has q) (t : Int32) :
    (d.raise t).load q = d.load q + t := by
  cases q with
  | var v =>
      have hv : v < d.vars.size := h
      simp [load, raise, Array.getD_eq_getD_getElem?, Array.getElem?_eq_getElem hv]
  | cell a i =>
      obtain ⟨b, hb, hi⟩ := h
      simp [load, raise, Array.getD_eq_getD_getElem?, hb, Array.getElem?_eq_getElem hi]

theorem has_raise
    {q : Address}
    (h : d.Has q) (t : Int32) :
    (d.raise t).Has q := by
  cases q with
  | var v => simpa [Has, raise] using h
  | cell a i =>
      obtain ⟨b, hb, hi⟩ := h
      exact ⟨_, by simp [raise, hb]; rfl, by simpa using hi⟩

theorem has_modify
    {q : Address}
    (h : d.Has q) (f : Int32 → Int32) (r : Address) :
    (d.modify f r).Has q := by
  cases q with
  | var v => cases r <;> simpa [Has, modify] using h
  | cell a i =>
      obtain ⟨b, hb, hi⟩ := h
      cases r with
      | var w => exact ⟨b, hb, hi⟩
      | cell a' j =>
          by_cases ha : a' = a
          · exact ⟨{ b with cells := b.cells.modify j f },
              by simp [modify, Array.getElem?_modify, ha, hb], by simpa using hi⟩
          · exact ⟨b, by simp [modify, Array.getElem?_modify, ha, hb], hi⟩

theorem load_modify
    {q : Address}
    (h : d.Has q) (f : Int32 → Int32) (r : Address) :
    (d.modify f r).load q = if q = r then f (d.load q) else d.load q := by
  cases q with
  | var v =>
      have hv : v < d.vars.size := h
      cases r with
      | var w =>
          by_cases hw : w = v
          · simp [load, modify, Array.getD_eq_getD_getElem?, Array.getElem?_modify, hw,
              Array.getElem?_eq_getElem hv]
          · have hne : ¬ v = w := fun he => hw he.symm
            simp [load, modify, Array.getD_eq_getD_getElem?, Array.getElem?_modify, hw, hne]
      | cell a j => simp [load, modify]
  | cell a i =>
      obtain ⟨b, hb, hi⟩ := h
      cases r with
      | var w => simp [load, modify]
      | cell a' j =>
          by_cases ha : a' = a
          · subst ha
            by_cases hj : j = i
            · simp [load, modify, Array.getD_eq_getD_getElem?, Array.getElem?_modify, hb, hj,
                Array.getElem?_eq_getElem hi]
            · have hne : ¬ i = j := fun he => hj he.symm
              simp [load, modify, Array.getD_eq_getD_getElem?, Array.getElem?_modify, hb, hj, hne]
          · have hne : ¬ a = a' := fun he => ha he.symm
            simp [load, modify, Array.getD_eq_getD_getElem?, Array.getElem?_modify, ha, hne]

theorem has_raiseBut
    {q : Address}
    (h : d.Has q) (t : Int32) (r : Address) :
    (d.raiseBut t r).Has q :=
  has_modify (has_raise h t) _ r

theorem load_raiseBut
    {q : Address}
    (h : d.Has q) (t : Int32) (r : Address) :
    (d.raiseBut t r).load q = d.load q + t - (if q = r then t else 0) := by
  unfold raiseBut
  rw [load_modify (has_raise h t), load_raise h]
  split_ifs
  · rfl
  · grind

/-- What a successful addition has found and done. -/
theorem move_eq_none
    {d' : Display} {names : Names} {l : OpLine} {direction : Int32 → Int32} {v : Operand}
    {target : Place}
    (h : d.move names l direction v target = (d', none)) :
    ∃ n q, d.value names l v = .ok n ∧ d.address names l target = .ok q ∧
      ((∃ k, v = .literal k ∧ d' = d.raiseBut (direction n) q) ∨
      (∃ p r, v = .stored p ∧ (d.raiseBut (direction n) q).address names l p = .ok r ∧
        d' = (d.raiseBut (direction n) q).modify (· - direction n) r)) := by
  unfold move at h
  cases hn : d.value names l v with
  | error e => simp [hn, bind, Except.bind] at h
  | ok n =>
      cases hr : d.requirePlace target with
      | error e => simp [hn, hr, bind, Except.bind] at h
      | ok u =>
          cases hq : d.address names l target with
          | error e => simp [hn, hr, hq, bind, Except.bind] at h
          | ok q =>
              refine ⟨n, q, rfl, rfl, ?_⟩
              simp only [hn, hr, hq, bind, Except.bind, pure, Except.pure] at h
              cases v with
              | literal k =>
                  cases h
                  exact Or.inl ⟨k, rfl, rfl⟩
              | stored p =>
                  simp only at h
                  split at h
                  · cases h
                  · rename_i r hr'
                    cases h
                    exact Or.inr ⟨p, r, rfl, hr', rfl⟩

/-- The values after an addition: every cell has gained the number that was added,
and it has been taken off the target, and off the cell that the operand denotes by
then. -/
theorem load_move
    {d' : Display} {names : Names} {l : OpLine} {direction : Int32 → Int32} {v : Operand}
    {target : Place}
    (h : d.move names l direction v target = (d', none)) :
    ∃ n q, ∃ r : Option Address,
      d.value names l v = .ok n ∧ d.address names l target = .ok q ∧
      (∀ r', r = some r' ↔
        ∃ p, v = .stored p ∧ (d.raiseBut (direction n) q).address names l p = .ok r') ∧
      ∀ x, d.Has x →
        d'.load x = d.load x + direction n - (if x = q then direction n else 0) -
          (if some x = r then direction n else 0) := by
  obtain ⟨n, q, hn, hq, ⟨k, rfl, rfl⟩ | ⟨p, r, rfl, hr, rfl⟩⟩ := move_eq_none h
  · refine ⟨n, q, none, hn, hq, by simp, ?_⟩
    intro x hx
    rw [load_raiseBut hx]
    simp
  · refine ⟨n, q, some r, hn, hq, ?_, ?_⟩
    · intro r'
      constructor
      · intro he
        cases he
        exact ⟨p, rfl, hr⟩
      · rintro ⟨p', hp', hr'⟩
        cases hp'
        rw [hr] at hr'
        cases hr'
        rfl
    · intro x hx
      rw [load_modify (has_raiseBut hx _ _), load_raiseBut hx]
      by_cases hxr : x = r
      · simp [hxr]
      · simp [hxr]

/-- A variable that is an operand, with its value, and where it is found again. -/
theorem value_var
    {names : Names} {l : OpLine} {w : Nat} {n : Int32}
    (h : d.value names l (.stored (.var w)) = .ok n) :
    d.Has (.var w) ∧ d.load (.var w) = n ∧
      ∀ t q, (d.raiseBut t q).address names l (.var w) = .ok (.var w) := by
  unfold value at h
  obtain ⟨u, -, h⟩ := bind_eq_ok_iff.mp h
  obtain ⟨q, hq, h⟩ := bind_eq_ok_iff.mp h
  have hhas := has_of_address hq
  simp only [address] at hq
  split_ifs at hq with hw
  cases hq
  cases h
  refine ⟨hhas, rfl, ?_⟩
  intro t q
  have hsize : w < (d.raiseBut t q).vars.size := has_raiseBut hhas t q
  simp only [address]
  rw [if_pos hsize]

end Values

end Display

end Contrary
