import Contrary.Program.Op

/-!
# Block pairing

A conditional block is opened by one operation and closed by a later one; blocks
nest.  `pairing` finds the closing operation of each block with one scan that
keeps the opening operations of the blocks that are still open.

**Faults.**  The first closing operation that has no open block is reported; if
there is none, the innermost block that is open at the end is.
-/

namespace Contrary

/-- What is wrong with the blocks of a program. -/
inductive Imbalance where
  | unmatchedIf
  | unmatchedFi
  deriving DecidableEq, Repr

/-- A block fault with the position of its operation. -/
structure BlockError where
  index : Nat
  cause : Imbalance
  deriving DecidableEq, Repr

/-- The wording of a block fault. -/
def Imbalance.message : Imbalance → Bytes
  | .unmatchedIf => ascii "if has no matching fi"
  | .unmatchedFi => ascii "fi has no matching if"

/-- The wording of a block fault, with its position. -/
def BlockError.message (e : BlockError) : Bytes :=
  ascii "op " ++ Bytes.decimalNat e.index ++ ascii ": " ++ e.cause.message

/-- Where the blocks end: the entry of an operation that opens a block is the
position of the operation that closes it. -/
abbrev Pairing := Array (Option Nat)

namespace Pairing

/-- Scans the operations from position `i` on.  The positions in `opened` are
those of the open blocks, innermost first. -/
def scan (i : Nat) (opened : List Nat) (table : Pairing) : List Op → Except BlockError Pairing
  | [] =>
      match opened with
      | [] => .ok table
      | o :: _ => .error ⟨o, .unmatchedFi⟩
  | .openBlock :: ops => scan (i + 1) (i :: opened) table ops
  | .closeBlock _ _ _ :: ops =>
      match opened with
      | [] => .error ⟨i, .unmatchedIf⟩
      | o :: outer => scan (i + 1) outer (table.setIfInBounds o (some i)) ops
  | _ :: ops => scan (i + 1) opened table ops

/-- Pairs the operations that open blocks with those that close them. -/
def ofOps (ops : List Op) : Except BlockError Pairing :=
  scan 0 [] (Array.replicate ops.length none) ops

/-- The pairs of opening and closing positions, in the order of the opening
ones. -/
def pairs (t : Pairing) : List (Nat × Nat) :=
  t.toList.zipIdx.filterMap fun (closing, i) => closing.map fun c => (i, c)

end Pairing
end Contrary
