import Contrary.Listing
import Contrary.Located
import Contrary.Token.Lexeme

/-!
# Token lines of a source

The lines of a source are read from the last one up, so the token lines of a
source are in the order in which its program runs.
-/

namespace Contrary
namespace TokenLine

/-- Reads the lines of a source of `total` lines from the bottom up, after the
`below` lines under them.  The first line with a fault ends the reading. -/
def ofLines (total : Nat) :
    (below : Nat) → List Bytes → Except (Located LiteralError) (List TokenLine)
  | _, [] => .ok []
  | below, raw :: above =>
      match Token.ofLine raw.trim with
      | .error e => .error ⟨below + 1, total, raw, e⟩
      | .ok tokens =>
          match ofLines total (below + 1) above with
          | .error e => .error e
          | .ok rest => .ok (⟨tokens, raw⟩ :: rest)

/-- The token lines of a source, bottom line first. -/
def ofSource (source : Bytes) : Except (Located LiteralError) (List TokenLine) :=
  let lines := Listing.lines source
  ofLines lines.length 0 lines.reverse

end TokenLine
end Contrary
