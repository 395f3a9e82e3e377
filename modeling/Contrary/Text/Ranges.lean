/-!
# Tables of ranges

A property of code points is a list of ranges in ascending order, both ends
included.
-/

namespace Contrary

/-- Code point ranges in ascending order, both ends included. -/
abbrev Ranges := List (Nat × Nat)

namespace Ranges

/-- Whether a code point is in one of the ranges.  The search ends at the first
range that begins above it. -/
def contains : Ranges → Nat → Bool
  | [], _ => false
  | (low, high) :: rest, c => if c < low then false else c ≤ high || contains rest c

end Ranges
end Contrary
