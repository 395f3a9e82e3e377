import Contrary.Target.Syntax

/-!
# Files of C

A file of the part of C in which programs are generated.  Before its main function it
defines what the statements there rely on: the variable `global`, the functions `get` and
`err`, and the macros that end a program early.  These definitions are part of the file, with
the texts that they write and the statuses that they return, so that a file means what its own
text says.

`Definitions.generated` is what generated files define, and `Code.file` is the file of a generated
program.
-/

namespace Contrary
namespace Target

/-- A format with one gap, for a text. -/
structure Format where
  before : Bytes
  after : Bytes
  deriving DecidableEq, Repr

def Format.fill (f : Format) (text : Bytes) : Bytes :=
  f.before ++ text ++ f.after

/-- What a file defines before its main function. -/
structure Definitions where
  /-- The first value of `global`. -/
  global : Int32
  /-- Whether `get` adds `global` to a number or takes it off. -/
  get : Sign
  /-- What `err` writes about a text, and the status that it returns. -/
  errFormat : Format
  errStatus : Nat
  /-- The text that `GOTO` hands to `err` if there is no label. -/
  unpinned : Bytes
  /-- What `LEAK_CHECK` writes about a name, and the status that it returns. -/
  leakFormat : Format
  leakStatus : Nat
  /-- What `ASSERT_ALIVE` writes, and the status that it returns. -/
  deadText : Bytes
  deadStatus : Nat
  deriving DecidableEq, Repr

/-- What `GOTO` writes if there is no label. -/
def Definitions.unpinnedText (d : Definitions) : Bytes :=
  d.errFormat.fill d.unpinned

inductive File where
  | empty
  | main (defs : Definitions) (decls : List Decl) (body : Block) (leaks : List LeakCheck)
  deriving DecidableEq, Repr

/-- What generated files define. -/
def Definitions.generated : Definitions where
  global := 0
  get := .plus
  errFormat := ⟨ascii "ABORTED\n:", []⟩
  errStatus := 1
  unpinned := ascii "nothing to pin"
  leakFormat :=
    ⟨ascii "ABORTED\nMemory leaked: ",
      ascii ". Everything should be undefined at the end using \"define\""⟩
  leakStatus := 1
  deadText := ascii "ABORTED\nTried to use already undefined variable/flag/array"
  deadStatus := 1

theorem unpinnedText_generated :
    Definitions.generated.unpinnedText = ascii "ABORTED\n:nothing to pin" := by
  decide

/-- The file of a generated program. -/
def Code.file : Code → File
  | .empty => .empty
  | .main decls body leaks => .main .generated decls body leaks

end Target
end Contrary
