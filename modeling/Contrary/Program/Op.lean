import Contrary.Program.Comparison
import Contrary.Text.Quoted

/-!
# Operations

What a program does, one operation for each source line that holds code.
Variables, arrays and flags are named by handles: positions in the three name
tables of the program.

The kinds of operands are nested: an index is a number or a variable, a place is
a variable or an array element, and an operand is a number or a place.
-/

namespace Contrary

/-- The index of an array element. -/
inductive Index where
  | literal (n : Int32)
  | var (v : Nat)
  deriving DecidableEq, Repr

/-- A place that holds a number: a variable or an element of an array. -/
inductive Place where
  | var (v : Nat)
  | element (a : Nat) (i : Index)
  deriving DecidableEq, Repr

/-- An operand that can be read. -/
inductive Operand where
  | literal (n : Int32)
  | stored (p : Place)
  deriving DecidableEq, Repr

/-- An operation. -/
inductive Op where
  /-- Makes a variable alive, with value 0. -/
  | define (v : Nat)
  /-- Makes an array alive, with value 0 in every cell. -/
  | defineArray (a : Nat)
  /-- Kills a variable. -/
  | undefine (v : Nat)
  /-- Kills an array. -/
  | undefineArray (a : Nat)
  /-- Stores the next number of the input. -/
  | read (target : Place)
  /-- Writes a value as a decimal number. -/
  | print (value : Operand)
  /-- Writes a value as a character. -/
  | printChar (value : Operand)
  /-- Moves every shown value up by a value, except those of the target and of
  the operand itself. -/
  | add (value : Operand) (target : Place)
  /-- Moves every shown value down, with the same exceptions. -/
  | subtract (value : Operand) (target : Place)
  /-- Opens a conditional block. -/
  | openBlock
  /-- Closes the innermost open block.  The block runs when the comparison
  holds. -/
  | closeBlock (a b : Operand) (c : Comparison)
  /-- Places a flag. -/
  | mark (f : Nat)
  /-- Kills a flag. -/
  | unmark (f : Nat)
  /-- Chooses the flag that jumps go to. -/
  | pin (f : Nat)
  /-- Jumps to the pinned flag. -/
  | goto
  deriving DecidableEq, Repr

/-- An operation with its source line. -/
structure OpLine where
  op : Op
  /-- The line number from the bottom; the last line is 1. -/
  line : Int
  /-- The line as it stands in the source. -/
  text : Bytes
  deriving DecidableEq, Repr

section Dump

/-- A constructor in a dump: a word and its parts in parentheses. -/
def dumpNode (label : String) (parts : List Bytes) : Bytes :=
  ascii label ++ ascii "(" ++ List.intercalate (ascii ", ") parts ++ ascii ")"

/-- The handle of a variable in a dump. -/
def dumpVar (v : Nat) : Bytes :=
  dumpNode "RValue" [Bytes.decimalNat v]

/-- The handle of an array in a dump. -/
def dumpArray (a : Nat) : Bytes :=
  dumpNode "ArrayRef" [Bytes.decimalNat a]

/-- The handle of a flag in a dump. -/
def dumpFlag (f : Nat) : Bytes :=
  dumpNode "FlagRef" [Bytes.decimalNat f]

/-- A number in a dump. -/
def dumpLiteral (n : Int32) : Bytes :=
  dumpNode "Literal" [Bytes.decimal n.toInt]

/-- An index in a dump. -/
def Index.dump : Index → Bytes
  | .literal n => dumpLiteral n
  | .var v => dumpVar v

/-- A place in a dump. -/
def Place.dump : Place → Bytes
  | .var v => dumpVar v
  | .element a i => dumpNode "ArrayElement" [dumpArray a ++ ascii "[" ++ i.dump ++ ascii "]"]

/-- An operand in a dump. -/
def Operand.dump : Operand → Bytes
  | .literal n => dumpLiteral n
  | .stored p => p.dump

/-- An operation in a dump. -/
def Op.dump : Op → Bytes
  | .define v => dumpNode "Define" [dumpVar v]
  | .defineArray a => dumpNode "DefineArray" [dumpArray a]
  | .undefine v => dumpNode "Undefine" [dumpVar v]
  | .undefineArray a => dumpNode "UndefineArray" [dumpArray a]
  | .read target => dumpNode "Read" [target.dump]
  | .print value => dumpNode "Print" [value.dump]
  | .printChar value => dumpNode "PrintASCII" [value.dump]
  | .add value target => dumpNode "Add" [value.dump, target.dump]
  | .subtract value target => dumpNode "Subtract" [value.dump, target.dump]
  | .openBlock => ascii "Fi"
  | .closeBlock a b c => dumpNode "If" [a.dump, b.dump, c.label]
  | .mark f => dumpNode "Mark" [dumpFlag f]
  | .unmark f => dumpNode "Unmark" [dumpFlag f]
  | .pin f => dumpNode "Pin" [dumpFlag f]
  | .goto => ascii "Goto"

/-- An operation with its source line in a dump. -/
def OpLine.dump (l : OpLine) : Bytes :=
  Bytes.line (ascii "[" ++ Bytes.decimal l.line ++ ascii "]" ++ l.text.quoted ++
    ascii " -> " ++ l.op.dump)

end Dump

end Contrary
