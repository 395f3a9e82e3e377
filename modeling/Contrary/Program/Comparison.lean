import Contrary.Text.Bytes

/-!
# Comparisons

The six comparisons of 32-bit integers.  A source line spells the opposite of
the comparison that its op stores, so each comparison has a negation.
-/

namespace Contrary

/-- A comparison of two numbers. -/
inductive Comparison where
  | equal
  | notEqual
  | less
  | greater
  | lessOrEqual
  | greaterOrEqual
  deriving DecidableEq, Repr

namespace Comparison

/-- Whether `a` and `b` compare so. -/
def holds : Comparison → Int32 → Int32 → Bool
  | .equal, a, b => a == b
  | .notEqual, a, b => a != b
  | .less, a, b => a < b
  | .greater, a, b => b < a
  | .lessOrEqual, a, b => a ≤ b
  | .greaterOrEqual, a, b => b ≤ a

/-- The comparison that holds exactly when this one does not. -/
def negate : Comparison → Comparison
  | .equal => .notEqual
  | .notEqual => .equal
  | .less => .greaterOrEqual
  | .greater => .lessOrEqual
  | .lessOrEqual => .greater
  | .greaterOrEqual => .less

/-- The operator in C. -/
def symbol : Comparison → Bytes
  | .equal => ascii "=="
  | .notEqual => ascii "!="
  | .less => ascii "<"
  | .greater => ascii ">"
  | .lessOrEqual => ascii "<="
  | .greaterOrEqual => ascii ">="

/-- The word that a dump uses. -/
def label : Comparison → Bytes
  | .equal => ascii "Equal"
  | .notEqual => ascii "NotEqual"
  | .less => ascii "Less"
  | .greater => ascii "Greater"
  | .lessOrEqual => ascii "LessOrEqual"
  | .greaterOrEqual => ascii "GreaterOrEqual"

/-- The words of a source line between the two numbers. -/
def words : Comparison → List String
  | .equal => ["equal", "to"]
  | .notEqual => ["not", "equal", "to"]
  | .less => ["lower", "than"]
  | .greater => ["greater", "than"]
  | .lessOrEqual => ["lower", "or", "equal", "than"]
  | .greaterOrEqual => ["greater", "or", "equal", "than"]

end Comparison
end Contrary
