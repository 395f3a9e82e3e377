import Contrary.Located
import Contrary.Program.Pairing

/-!
# Nested blocks

The operations of a program as a tree of blocks, read by descent: what follows
an opening operation is read up to the operation that closes it, and then what
follows that one.

**Faults.**  A closing operation that is reached outside every block is
reported, or else the innermost block that nothing closes.
-/

namespace Contrary

/-- A sequence of operations and blocks. -/
inductive Nesting where
  | done
  | op (l : OpLine) (next : Nesting)
  /-- A block that runs when `a` and `b` compare as `c`. -/
  | block (a b : Operand) (c : Comparison) (body next : Nesting)
  deriving DecidableEq, Repr

namespace Nesting

/-- The operation that closes a block, and the lines after it: fewer than
`bound` of them. -/
structure Closing (bound : Nat) where
  line : OpLine
  a : Operand
  b : Operand
  c : Comparison
  rest : List OpLine
  rest_lt : rest.length < bound

/-- The same closing operation under a larger bound. -/
def Closing.weaken {m n : Nat} (h : m ≤ n) (c : Closing m) : Closing n :=
  { c with rest_lt := Nat.lt_of_lt_of_le c.rest_lt h }

/-- Reads operations up to the one that closes the block they are in, or to the
end. -/
def read (lineCount : Int) :
    (ls : List OpLine) → Except (Located Imbalance) (Nesting × Option (Closing ls.length))
  | [] => .ok (.done, none)
  | l :: ls =>
      match l.op with
      | .closeBlock a b c => .ok (.done, some ⟨l, a, b, c, ls, Nat.lt_succ_self _⟩)
      | .openBlock =>
          match read lineCount ls with
          | .error e => .error e
          | .ok (_, none) => .error ⟨l.line, lineCount, l.text, .unmatchedFi⟩
          | .ok (body, some closing) =>
              match read lineCount closing.rest with
              | .error e => .error e
              | .ok (next, outer) =>
                  .ok (.block closing.a closing.b closing.c body next,
                    outer.map (Closing.weaken (Nat.le_succ_of_le (Nat.le_of_lt closing.rest_lt))))
      | _ =>
          match read lineCount ls with
          | .error e => .error e
          | .ok (next, outer) => .ok (.op l next, outer.map (Closing.weaken (by simp)))
termination_by ls => ls.length
decreasing_by
  · simp
  · have := closing.rest_lt
    simp only [List.length_cons]
    omega
  · simp

/-- The blocks of a whole program. -/
def ofOps (lineCount : Int) (ls : List OpLine) : Except (Located Imbalance) Nesting :=
  match read lineCount ls with
  | .error e => .error e
  | .ok (_, some closing) =>
      .error ⟨closing.line.line, lineCount, closing.line.text, .unmatchedIf⟩
  | .ok (nesting, none) => .ok nesting

end Nesting
end Contrary
