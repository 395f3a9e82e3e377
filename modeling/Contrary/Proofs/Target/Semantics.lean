import Contrary.Machine.Input
import Contrary.Proofs.Target.File
import Mathlib.Tactic.SplitIfs

/-!
# What the generated C does

The meaning of a generated program, on its own terms: objects that are found by
their names, pointers, statements, conditional blocks and jumps.  Nothing here
refers to the machine that runs programs directly.

**Definitions.**  What `get` computes, what the macros write and which status they
return is up to the definitions of the file, which a process carries along.

**Memory.**  A name stands for a number, an array of numbers or a truth value.
Numbers are 32-bit integers and wrap around.  The variables `global`, `label`,
`temp` and `addr` are kept apart; no declaration may take their names.

**Undefined behaviour.**  The use of a name that is not declared, or is declared
as something else, of an index outside its array, or of a label that is not
placed has no meaning, and neither has a program that declares a name or places
a label twice.

**Control.**  A configuration is a process with the blocks that are left to run,
the innermost first.  A jump looks its label up in the whole body, inside blocks
too, and goes on there.
-/

namespace Contrary
namespace Target

inductive Object where
  | int (n : Int32)
  | array (cells : Array Int32)
  | bool (b : Bool)
  deriving DecidableEq, Repr

/-- The address of a number. -/
inductive Pointer where
  | scalar (x : Ident)
  | element (a : Ident) (i : Nat)
  deriving DecidableEq, Repr

/-- What the declared names stand for. -/
abbrev Memory := Ident → Option Object

namespace Memory

variable (m : Memory)

def put (x : Ident) (o : Object) : Memory :=
  fun y => if y = x then some o else m y

def int? (x : Ident) : Option Int32 :=
  match m x with
  | some (.int n) => some n
  | _ => none

def cells? (a : Ident) : Option (Array Int32) :=
  match m a with
  | some (.array cells) => some cells
  | _ => none

def bool? (x : Ident) : Option Bool :=
  match m x with
  | some (.bool b) => some b
  | _ => none

def load : Pointer → Option Int32
  | .scalar x => m.int? x
  | .element a i => (m.cells? a).bind (·[i]?)

def store (n : Int32) : Pointer → Option Memory
  | .scalar x => (m.int? x).map fun _ => m.put x (.int n)
  | .element a i =>
      (m.cells? a).bind fun cells =>
        if i < cells.size then some (m.put a (.array (cells.setIfInBounds i n))) else none

end Memory

/-- A running program: the definitions of its file, its memory, the variables that every
program has, and its input and output.  `temp` and `addr` have no value outside braces. -/
structure Process (σ : Type) where
  defs : Definitions
  memory : Memory
  global : Int32
  label : Option Ident
  temp : Option Int32
  addr : Option Pointer
  input : σ
  output : Array UInt8

namespace Process

variable {σ : Type} (c : Process σ)

def write (text : Bytes) : Process σ :=
  { c with output := c.output ++ text }

/-- Changes the number at a pointer. -/
def assign (f : Int32 → Int32) (p : Pointer) : Option (Process σ) := do
  let n ← c.memory.load p
  let memory ← c.memory.store (f n) p
  return { c with memory := memory }

/-- Stores a number that was read; one that could not be read leaves the cell as it
was. -/
def receive : Except ReadFailure Int32 × σ → Pointer → Option (Process σ)
  | (.error _, rest), _ => some { c with input := rest }
  | (.ok n, rest), p => { c with input := rest }.assign (fun _ => n) p

end Process

section Expressions

def Sign.apply : Sign → Int32 → Int32 → Int32
  | .plus, n, d => n + d
  | .minus, n, d => n - d

variable {σ : Type} (c : Process σ)

/-- What `get` returns. -/
def Process.get (n : Int32) : Int32 :=
  c.defs.get.apply n c.global

def Position.eval : Position → Option Int32
  | .literal n => some n
  | .shown x => (c.memory.int? x).map c.get

/-- The address of a cell; an index must be within its array. -/
def LValue.pointer : LValue → Option Pointer
  | .scalar x => (c.memory.int? x).map fun _ => .scalar x
  | .element a i => do
      let cells ← c.memory.cells? a
      let n ← i.eval c
      if 0 ≤ n.toInt ∧ n.toInt < cells.size then return .element a n.toInt.toNat else none

def Expr.eval : Expr → Option Int32
  | .literal n => some n
  | .shown cell => do
      let p ← cell.pointer c
      let n ← c.memory.load p
      return c.get n

end Expressions

section Statements

/-- What running statements leads to. -/
inductive Effect (σ : Type) where
  /-- The program goes on. -/
  | next (c : Process σ)
  /-- The program goes on at a label. -/
  | jump (c : Process σ) (name : Ident)
  /-- The program returns a status. -/
  | quit (c : Process σ) (status : Nat)
  | undefined

variable {σ : Type}

/-- The program goes on if there is a process to go on with. -/
def Effect.ofOption : Option (Process σ) → Effect σ
  | some c => .next c
  | none => .undefined

/-- The loop that stores a number in the first elements of an array. -/
def fill (n : Int32) : (count : Nat) → Array Int32 → Option (Array Int32)
  | 0, cells => some cells
  | i + 1, cells =>
      (fill n i cells).bind fun cells =>
        if i < cells.size then some (cells.setIfInBounds i n) else none

variable [NumberSource σ] (c : Process σ)

def Stmt.exec : Stmt → Effect σ
  | .assertLive live =>
      match c.memory.bool? live with
      | some true => .next c
      | some false => .quit (c.write c.defs.deadText) c.defs.deadStatus
      | none => .undefined
  | .setLive live value => .ofOption do
      let _ ← c.memory.bool? live
      return { c with memory := c.memory.put live (.bool value) }
  | .clear cell => .ofOption (c.assign (fun _ => -c.global) (.scalar cell))
  | .clearAll array size => .ofOption do
      let cells ← c.memory.cells? array
      let cells ← fill (-c.global) size.toNat cells
      return { c with memory := c.memory.put array (.array cells) }
  | .scan cell => .ofOption do
      let p ← cell.pointer c
      c.receive (NumberSource.draw c.input) p
  | .rebase cell => .ofOption do
      let p ← cell.pointer c
      c.assign (· - c.global) p
  | .printNumber e => .ofOption do
      let n ← e.eval c
      return c.write (Bytes.line (Bytes.decimal n.toInt))
  | .printChar e => .ofOption do
      let n ← e.eval c
      return c.write (Bytes.line [n.toInt8.toUInt8])
  | .saveValue e => .ofOption do
      let n ← e.eval c
      return { c with temp := some n }
  | .saveAddress cell => .ofOption do
      let p ← cell.pointer c
      return { c with addr := some p }
  | .moveOffset sign => .ofOption do
      let d ← c.temp
      return { c with global := sign.apply c.global d }
  | .moveSaved sign => .ofOption do
      let d ← c.temp
      let p ← c.addr
      c.assign (sign.apply · d) p
  | .moveCell cell sign => .ofOption do
      let d ← c.temp
      let p ← cell.pointer c
      c.assign (sign.apply · d) p
  | .place _ => .next c
  | .take name => .next { c with label := some name }
  | .goto =>
      match c.label with
      | some name => .jump c name
      | none => .quit (c.write c.defs.unpinnedText) c.defs.errStatus

/-- Statements one after another, until one of them does not go on. -/
def execAll (c : Process σ) : List Stmt → Effect σ
  | [] => .next c
  | s :: ss =>
      match s.exec c with
      | .next c' => execAll c' ss
      | e => e

/-- The end of the braces around statements: `temp` and `addr` are again what they
were before. -/
def Effect.leave : Effect σ → Effect σ
  | .next c' => .next { c' with temp := c.temp, addr := c.addr }
  | .jump c' name => .jump { c' with temp := c.temp, addr := c.addr } name
  | e => e

def Line.exec (l : Line) : Effect σ :=
  if l.braced then (execAll c l.body).leave c else execAll c l.body

end Statements

section Control

/-- The label that a statement places. -/
def Stmt.label? : Stmt → Option Ident
  | .place name => some name
  | _ => none

/-- The labels of a block, in their order. -/
def Block.labels : Block → List Ident
  | .done => []
  | .line l next => l.body.filterMap Stmt.label? ++ next.labels
  | .branch _ body next => body.labels ++ next.labels

/-- What is left to run from a label on, where `rest` is left after the block. -/
def Block.find? (name : Ident) : Block → (rest : List Block) → Option (List Block)
  | .done, _ => none
  | .line l next, rest =>
      if .place name ∈ l.body then
        some (.line { l with body := l.body.dropWhile (· ≠ .place name) } next :: rest)
      else next.find? name rest
  | .branch _ body next, rest => (body.find? name (next :: rest)).or (next.find? name rest)

/-- A process with the blocks that are left to run, innermost first. -/
structure Config (σ : Type) where
  process : Process σ
  rest : List Block

/-- A program that runs, or has ended. -/
inductive Outcome (σ : Type) where
  | running (k : Config σ)
  | exited (output : Array UInt8) (status : Nat)
  | undefined

variable {σ : Type}

/-- How a program in the given body goes on after statements that `rest` follows. -/
def Effect.resume (body : Block) (rest : List Block) : Effect σ → Outcome σ
  | .next c => .running ⟨c, rest⟩
  | .jump c name =>
      match body.find? name [] with
      | some rest' => .running ⟨c, rest'⟩
      | none => .undefined
  | .quit c status => .exited c.output status
  | .undefined => .undefined

/-- The checks at the end of a program, in order. -/
def checkLeaks (c : Process σ) : List LeakCheck → Outcome σ
  | [] => .exited c.output 0
  | k :: ks =>
      match c.memory.bool? k.live with
      | some true =>
          .exited (c.write (c.defs.leakFormat.fill k.name)).output c.defs.leakStatus
      | some false => checkLeaks c ks
      | none => .undefined

variable [NumberSource σ]

/-- The choice that the head of a block makes. -/
def Head.choose (h : Head) (c : Process σ) : Option Bool := do
  let x ← h.left.eval c
  let y ← h.right.eval c
  return h.comparison.holds x y

/-- One step of a program: a line, the head of a block or the end of one. -/
def Config.step (body : Block) (leaks : List LeakCheck) (k : Config σ) : Outcome σ :=
  match k.rest with
  | [] => checkLeaks k.process leaks
  | .done :: rest => .running ⟨k.process, rest⟩
  | .line l next :: rest => (l.exec k.process).resume body (next :: rest)
  | .branch h inner next :: rest =>
      match execAll k.process h.checks with
      | .next c =>
          match h.choose c with
          | some true => .running ⟨c, inner :: next :: rest⟩
          | some false => .running ⟨c, next :: rest⟩
          | none => .undefined
      | e => e.resume body (next :: rest)

section Steps

variable {body : Block} {leaks : List LeakCheck} {k : Config σ} {rest : List Block}

theorem Config.step_done
    (hrest : k.rest = .done :: rest) :
    k.step body leaks = .running ⟨k.process, rest⟩ := by
  rw [Config.step, hrest]

theorem Config.step_line
    {l : Line} {next : Block}
    (hrest : k.rest = .line l next :: rest) :
    k.step body leaks = (l.exec k.process).resume body (next :: rest) := by
  rw [Config.step, hrest]

/-- The head of a block that finds something dead. -/
theorem Config.step_quit
    {h : Head} {inner next : Block} {c : Process σ} {status : Nat}
    (hrest : k.rest = .branch h inner next :: rest)
    (hchecks : execAll k.process h.checks = .quit c status) :
    k.step body leaks = .exited c.output status := by
  simp only [Config.step, hrest, hchecks, Effect.resume]

/-- The head of a block that makes a choice. -/
theorem Config.step_choose
    {h : Head} {inner next : Block} {c : Process σ} {choice : Bool}
    (hrest : k.rest = .branch h inner next :: rest)
    (hchecks : execAll k.process h.checks = .next c)
    (hchoice : h.choose c = some choice) :
    k.step body leaks =
      .running ⟨c, if choice then inner :: next :: rest else next :: rest⟩ := by
  cases choice with
  | true => simp only [Config.step, hrest, hchecks, hchoice, if_true]
  | false => simp only [Config.step, hrest, hchecks, hchoice, Bool.false_eq_true, if_false]

end Steps

/-- A program after at most `limit` steps. -/
def Config.runFor (body : Block) (leaks : List LeakCheck) : (limit : Nat) → Config σ → Outcome σ
  | 0, k => .running k
  | limit + 1, k =>
      match k.step body leaks with
      | .running k' => k'.runFor body leaks limit
      | o => o

end Control

section Programs

/-- The names that a declaration would hide. -/
def hidden : List Ident :=
  ["global", "label", "temp", "addr", "i", "get", "err", "printf", "scanf"].map ascii

/-- What a declaration introduces. -/
def Decl.objects : Decl → List (Ident × Object)
  | .scalar cell live => [(cell, .int 0), (live, .bool false)]
  | .array cell live size =>
      [(cell, .array (Array.replicate size.toNat 0)), (live, .bool false)]
  | .flag live => [(live, .bool true)]

/-- An array must not have a negative size. -/
def Decl.isSized : Decl → Bool
  | .array _ _ size => 0 ≤ size
  | _ => true

/-- Declares names one after another; each of them must be new. -/
def Memory.declare (m : Memory) : List (Ident × Object) → Option Memory
  | [] => some m
  | (x, o) :: more =>
      if (m x).isSome ∨ x ∈ hidden then none else (m.put x o).declare more

/-- The memory of a program before it runs. -/
def Memory.ofDecls (decls : List Decl) : Option Memory :=
  if decls.all Decl.isSized then Memory.declare (fun _ => none) (decls.flatMap Decl.objects)
  else none

variable {σ : Type} [NumberSource σ]

namespace File

/-- A program after at most `limit` steps from its start. -/
def run (limit : Nat) (input : σ) : File → Outcome σ
  | .empty => .exited #[] 0
  | .main defs decls body leaks =>
      match Memory.ofDecls decls with
      | some memory =>
          if body.labels.Nodup then
            Config.runFor body leaks limit
              ⟨⟨defs, memory, defs.global, none, none, none, input, #[]⟩, [body]⟩
          else .undefined
      | none => .undefined

/-- The program ends with an output and a status. -/
def Exits (file : File) (input : σ) (output : Array UInt8) (status : Nat) : Prop :=
  ∃ limit, file.run limit input = .exited output status

end File

/-- An ending is reached under every larger limit. -/
theorem Config.runFor_add
    {body : Block} {leaks : List LeakCheck} {output : Array UInt8} {status : Nat}
    (limit more : Nat) :
    ∀ {k : Config σ},
      k.runFor body leaks limit = .exited output status →
      k.runFor body leaks (limit + more) = .exited output status := by
  induction limit with
  | zero =>
      intro k h
      cases h
  | succ limit ih =>
      intro k h
      rw [Nat.succ_add]
      unfold Config.runFor at h ⊢
      cases hstep : k.step body leaks with
      | running k' =>
          rw [hstep] at h
          exact ih h
      | exited output' status' =>
          rw [hstep] at h
          exact h
      | undefined =>
          rw [hstep] at h
          cases h

theorem File.run_add
    {file : File} {input : σ} {output : Array UInt8} {status limit : Nat}
    (more : Nat)
    (h : file.run limit input = .exited output status) :
    file.run (limit + more) input = .exited output status := by
  cases file with
  | empty => exact h
  | main defs decls body leaks =>
      simp only [File.run] at h ⊢
      cases hm : Memory.ofDecls decls with
      | none =>
          rw [hm] at h
          cases h
      | some memory =>
          simp only [hm] at h ⊢
          split_ifs at h ⊢ with hl
          exact Config.runFor_add limit more h

/-- A program ends in one way only. -/
theorem File.Exits.unique
    {file : File} {input : σ} {o o' : Array UInt8} {status status' : Nat}
    (h : file.Exits input o status)
    (h' : file.Exits input o' status') :
    o = o' ∧ status = status' := by
  obtain ⟨limit, hl⟩ := h
  obtain ⟨limit', hl'⟩ := h'
  have hsum := File.run_add limit' hl
  rw [Nat.add_comm, File.run_add limit hl'] at hsum
  cases hsum
  exact ⟨rfl, rfl⟩

theorem File.Exits.iff
    {file : File} {input : σ} {o : Array UInt8} {status : Nat}
    (h : file.Exits input o status)
    (o' : Array UInt8) (status' : Nat) :
    file.Exits input o' status' ↔ o' = o ∧ status' = status := by
  constructor
  · intro h'
    exact h'.unique h
  · rintro ⟨rfl, rfl⟩
    exact h

end Programs

end Target
end Contrary
