import Contrary.Naming.Names
import Contrary.Program.Op

/-!
# Programs

A program is its name tables and its operations, in the order in which they
run: that of the source lines from the bottom up.
-/

namespace Contrary

/-- A program. -/
structure Program where
  names : Names
  ops : Array OpLine
  /-- How many lines the source has, lines without code included. -/
  lineCount : Int
  deriving DecidableEq, Repr

namespace Program

/-- A name table in a dump: a line for each entry, with its handle. -/
def dumpTable {α : Type} (kind : String) (shown : α → Bytes) (handle : Nat → Bytes)
    (entries : List α) : Bytes :=
  entries.zipIdx.flatMap fun (entry, i) =>
    Bytes.line (ascii "\x7b" ++ shown entry ++ ascii "\x7d " ++ ascii kind ++
      ascii " with " ++ handle i)

/-- The dump of a program: its name tables, an empty line and its operations. -/
def dump (p : Program) : Bytes :=
  dumpTable "var" id dumpVar p.names.vars.toList ++
    dumpTable "array" (fun d => d.name ++ ascii "[" ++ Bytes.decimal d.size ++ ascii "]") dumpArray
      p.names.arrays.toList ++
    dumpTable "flag" id dumpFlag p.names.flags.toList ++
    Bytes.line [] ++
    p.ops.toList.flatMap OpLine.dump

end Program
end Contrary
