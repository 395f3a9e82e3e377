import Contrary.Program.Comparison

/-!
# The generated C

The part of C in which programs are generated.  A generated program keeps its
numbers as the machine does: every cell holds its value minus the variable
`global`, and `get` adds it again.

* A *statement* is one of the short statements that make up a line.
* A *line* is a sequence of statements, possibly in braces, with a comment.
* A *block* is a sequence of lines and of blocks under a condition.
* A *code* is a whole file: declarations, a block and the checks at its end.

Labels are first-class: `label=&&name;` takes the address of a label, and `GOTO;`
jumps to the one that was taken last.
-/

namespace Contrary
namespace Target

/-- An identifier, as it is spelled. -/
abbrev Ident := Bytes

/-- A position in an array: a number or the shown value of a variable. -/
inductive Position where
  | literal (n : Int32)
  | shown (x : Ident)
  deriving DecidableEq, Repr

/-- A variable or an element of an array. -/
inductive LValue where
  | scalar (x : Ident)
  | element (a : Ident) (i : Position)
  deriving DecidableEq, Repr

/-- A number or the shown value of a cell. -/
inductive Expr where
  | literal (n : Int32)
  | shown (cell : LValue)
  deriving DecidableEq, Repr

/-- The sign of an assignment `+=` or `-=`. -/
inductive Sign where
  | plus
  | minus
  deriving DecidableEq, Repr

/-- A short statement. -/
inductive Stmt where
  /-- Ends the program unless the given liveness variable is true. -/
  | assertLive (live : Ident)
  /-- Sets a liveness variable. -/
  | setLive (live : Ident) (value : Bool)
  /-- Gives a variable the shown value 0. -/
  | clear (cell : Ident)
  /-- Gives all elements of an array the shown value 0. -/
  | clearAll (array : Ident) (size : Int)
  /-- Reads a number into a cell. -/
  | scan (cell : LValue)
  /-- Takes the offset off a cell. -/
  | rebase (cell : LValue)
  /-- Writes a number. -/
  | printNumber (e : Expr)
  /-- Writes a character. -/
  | printChar (e : Expr)
  /-- Keeps a value in `temp`. -/
  | saveValue (e : Expr)
  /-- Keeps the address of a cell in `addr`. -/
  | saveAddress (cell : LValue)
  /-- Moves the offset by the kept value. -/
  | moveOffset (sign : Sign)
  /-- Moves the cell at the kept address by the kept value. -/
  | moveSaved (sign : Sign)
  /-- Moves a cell by the kept value. -/
  | moveCell (cell : LValue) (sign : Sign)
  /-- Places a label. -/
  | place (name : Ident)
  /-- Takes the address of a label. -/
  | take (name : Ident)
  /-- Jumps to the label that was taken last. -/
  | goto
  deriving DecidableEq, Repr

/-- A line of statements with a comment. -/
structure Line where
  /-- Whether the statements stand in braces, which hides `temp` and `addr`. -/
  braced : Bool
  body : List Stmt
  comment : Bytes
  deriving DecidableEq, Repr

/-- The head of a conditional block: liveness checks and a comparison. -/
structure Head where
  checks : List Stmt
  left : Expr
  right : Expr
  comparison : Comparison
  deriving DecidableEq, Repr

/-- A sequence of lines and conditional blocks. -/
inductive Block where
  | done
  | line (l : Line) (next : Block)
  | branch (head : Head) (body next : Block)
  deriving DecidableEq, Repr

/-- A declaration: a cell or an array with its liveness variable, or the liveness
variable of a flag. -/
inductive Decl where
  | scalar (cell live : Ident)
  | array (cell live : Ident) (size : Int)
  | flag (live : Ident)
  deriving DecidableEq, Repr

/-- A check at the end that something is dead. -/
structure LeakCheck where
  live : Ident
  name : Bytes
  deriving DecidableEq, Repr

/-- A generated file. -/
inductive Code where
  | empty
  | main (decls : List Decl) (body : Block) (leaks : List LeakCheck)
  deriving DecidableEq, Repr

end Target
end Contrary
