import Contrary.Program.Basic
import Contrary.Program.Nesting
import Contrary.Target.Printer
import Contrary.Text.Blank

/-!
# Generating C

The C program of a program: a line for each operation, and a conditional block
for each pair of operations that open and close one.

**Spelling.**  A variable `x` is the cell `__x`, an array `a` is `_a_a`, and a
flag `f` is the label `f`; the liveness variable of a cell has `_isOn` in front.

**Comments.**  Each line ends with its source line as a comment.  Backslashes at
the end of the comment are dropped, since one would join the next line to it.
-/

namespace Contrary
namespace Target

/-- The cell of a variable. -/
def varCell (name : Bytes) : Ident :=
  ascii "__" ++ name

/-- The cells of an array. -/
def arrayCell (name : Bytes) : Ident :=
  ascii "_a_" ++ name

/-- The stem of the liveness variable of a flag. -/
def flagCell (name : Bytes) : Ident :=
  ascii "_f_" ++ name

/-- The liveness variable of a cell. -/
def liveness (cell : Ident) : Ident :=
  ascii "_isOn" ++ cell

/-- A source line as a comment: trimmed, and without backslashes, spaces and tabs
at its end. -/
def annotation (text : Bytes) : Bytes :=
  Bytes.dropEndWhile (fun b => b == '\\'.toUInt8 || Bytes.isSpaceOrTab b) text.trim

section

variable (names : Names)

/-- The position that an index denotes. -/
def position : Index → Position
  | .literal n => .literal n
  | .var v => .shown (varCell (names.varName v))

/-- The cell that a place denotes. -/
def lvalue : Place → LValue
  | .var v => .scalar (varCell (names.varName v))
  | .element a i => .element (arrayCell (names.arrayDecl a).name) (position names i)

/-- The value that an operand denotes. -/
def expr : Operand → Expr
  | .literal n => .literal n
  | .stored p => .shown (lvalue names p)

/-- The check that a variable is alive. -/
def checkVar (v : Nat) : Stmt :=
  .assertLive (liveness (varCell (names.varName v)))

/-- The checks that a place is alive: its index variable, then its array. -/
def checkPlace : Place → List Stmt
  | .var v => [checkVar names v]
  | .element a i =>
      (match i with
        | .literal _ => []
        | .var v => [checkVar names v]) ++
        [.assertLive (liveness (arrayCell (names.arrayDecl a).name))]

/-- The checks that an operand is alive. -/
def check : Operand → List Stmt
  | .literal _ => []
  | .stored p => checkPlace names p

/-- The statements of an addition or subtraction.  The value and the address of
the target are kept before the offset moves; the cell of the operand is found
anew after it has moved. -/
def arithmetic (v : Operand) (target : Place) (shift compensate : Sign) : List Stmt :=
  check names v ++ checkPlace names target ++
    [ .saveValue (expr names v), .saveAddress (lvalue names target), .moveOffset shift,
      .moveSaved compensate ] ++
    (match v with
      | .literal _ => []
      | .stored p => [.moveCell (lvalue names p) compensate])

/-- The statements of an operation that is not a bound of a block. -/
def statements : Op → List Stmt
  | .define v =>
      [ .clear (varCell (names.varName v)), .setLive (liveness (varCell (names.varName v))) true ]
  | .defineArray a =>
      let d := names.arrayDecl a
      [ .clearAll (arrayCell d.name) d.size, .setLive (liveness (arrayCell d.name)) true ]
  | .undefine v => [.setLive (liveness (varCell (names.varName v))) false]
  | .undefineArray a => [.setLive (liveness (arrayCell (names.arrayDecl a).name)) false]
  | .read target =>
      checkPlace names target ++ [.scan (lvalue names target), .rebase (lvalue names target)]
  | .print v => check names v ++ [.printNumber (expr names v)]
  | .printChar v => check names v ++ [.printChar (expr names v)]
  | .add v target => arithmetic names v target .plus .minus
  | .subtract v target => arithmetic names v target .minus .plus
  | .mark f => [.place (names.flagName f)]
  | .unmark f => [.setLive (liveness (flagCell (names.flagName f))) false]
  | .pin f =>
      [.assertLive (liveness (flagCell (names.flagName f))), .take (names.flagName f)]
  | .goto => [.goto]
  | .openBlock => []
  | .closeBlock _ _ _ => []

/-- Whether the statements of an operation stand in braces. -/
def isBraced : Op → Bool
  | .add _ _ => true
  | .subtract _ _ => true
  | _ => false

/-- The line of an operation. -/
def line (l : OpLine) : Line :=
  ⟨isBraced l.op, statements names l.op, annotation l.text⟩

/-- The head of a block. -/
def head (a b : Operand) (c : Comparison) : Head :=
  ⟨check names a ++ check names b, expr names a, expr names b, c⟩

/-- The block of nested operations. -/
def block : Nesting → Block
  | .done => .done
  | .op l next => .line (line names l) (block next)
  | .block a b c body next => .branch (head names a b c) (block body) (block next)

/-- The declarations of a program: variables, arrays and flags. -/
def declarations : List Decl :=
  (names.vars.toList.map fun x => .scalar (varCell x) (liveness (varCell x))) ++
    (names.arrays.toList.map fun d =>
      .array (arrayCell d.name) (liveness (arrayCell d.name)) d.size) ++
    names.flags.toList.map fun f => .flag (liveness (flagCell f))

/-- The checks at the end of a program, in the order of the declarations. -/
def leakChecks : List LeakCheck :=
  (names.vars.toList.map fun x => ⟨liveness (varCell x), x⟩) ++
    (names.arrays.toList.map fun d => ⟨liveness (arrayCell d.name), d.name⟩) ++
    names.flags.toList.map fun f => ⟨liveness (flagCell f), f⟩

end

/-- The generated file of a program; its blocks must pair. -/
def Code.ofProgram (p : Program) : Except (Located Imbalance) Code :=
  if p.ops.isEmpty then .ok .empty
  else
    (Nesting.ofOps p.lineCount p.ops.toList).map fun nesting =>
      .main (declarations p.names) (block p.names nesting) (leakChecks p.names)

end Target

/-- The C text of a program. -/
def Program.toC (p : Program) : Except (Located Imbalance) Bytes :=
  (Target.Code.ofProgram p).map Target.Code.render

end Contrary
