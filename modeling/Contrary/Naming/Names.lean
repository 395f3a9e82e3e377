import Contrary.Text.Bytes

/-!
# Name tables

A program names variables, arrays and flags, and no name has two kinds.  Each
kind has a table; the position of a name in its table is its handle.
-/

namespace Contrary

/-- The kinds of names. -/
inductive NameKind where
  | variable
  | array
  | flag
  deriving DecidableEq, Repr

/-- An array with the size that its first definition gave it. -/
structure ArrayDecl where
  name : Bytes
  size : Int
  deriving DecidableEq, Repr

/-- The three name tables of a program. -/
structure Names where
  vars : Array Bytes
  arrays : Array ArrayDecl
  flags : Array Bytes
  deriving DecidableEq, Repr

/-- The word for a kind of names. -/
def NameKind.label : NameKind → Bytes
  | .variable => ascii "variable"
  | .array => ascii "array"
  | .flag => ascii "flag"

namespace Names

/-- Tables without names. -/
def empty : Names :=
  ⟨#[], #[], #[]⟩

/-- The handle of a variable. -/
def varHandle? (t : Names) (name : Bytes) : Option Nat :=
  t.vars.findIdx? (· == name)

/-- The handle of an array. -/
def arrayHandle? (t : Names) (name : Bytes) : Option Nat :=
  t.arrays.findIdx? (·.name == name)

/-- The handle of a flag. -/
def flagHandle? (t : Names) (name : Bytes) : Option Nat :=
  t.flags.findIdx? (· == name)

/-- The kind and handle of a name. -/
def find? (t : Names) (name : Bytes) : Option (NameKind × Nat) :=
  match t.varHandle? name with
  | some v => some (.variable, v)
  | none =>
      match t.arrayHandle? name with
      | some a => some (.array, a)
      | none => (t.flagHandle? name).map fun f => (.flag, f)

/-- The name of a variable; empty for a handle outside the table. -/
def varName (t : Names) (v : Nat) : Bytes :=
  t.vars.getD v []

/-- The declaration of an array; an unnamed array without cells for a handle
outside the table. -/
def arrayDecl (t : Names) (a : Nat) : ArrayDecl :=
  t.arrays.getD a ⟨[], 0⟩

/-- The name of a flag; empty for a handle outside the table. -/
def flagName (t : Names) (f : Nat) : Bytes :=
  t.flags.getD f []

end Names
end Contrary
