import Contrary.Token.Basic

/-!
# Words

A word is a unit of a phrase: a name, a number, or an array element with its
brackets.  Folding the brackets of a token list into words can fail; writing
words out as tokens is its inverse.
-/

namespace Contrary

/-- What stands between the brackets of an element. -/
inductive Subscript where
  | name (text : Bytes)
  | literal (value : Int32)
  deriving DecidableEq, Repr

/-- A unit of a phrase. -/
inductive Word where
  | name (text : Bytes)
  | literal (value : Int32)
  | element (array : Bytes) (index : Subscript)
  deriving DecidableEq, Repr

/-- The token of a subscript. -/
def Subscript.token : Subscript → Token
  | .name text => .name text
  | .literal value => .literal value

namespace Word

/-- The tokens of a word. -/
def tokens : Word → List Token
  | .name text => [.name text]
  | .literal value => [.literal value]
  | .element array index => [.name array, .bracket .left, index.token, .bracket .right]

/-- Folds tokens into words.  Brackets are allowed only around one name or
number after a name; comments and unknown tokens are not allowed. -/
def ofTokens? : List Token → Option (List Word)
  | [] => some []
  | .literal value :: ts => (ofTokens? ts).map (.literal value :: ·)
  | .name array :: .bracket .left :: .name index :: .bracket .right :: ts =>
      (ofTokens? ts).map (.element array (.name index) :: ·)
  | .name array :: .bracket .left :: .literal index :: .bracket .right :: ts =>
      (ofTokens? ts).map (.element array (.literal index) :: ·)
  | .name _ :: .bracket _ :: _ => none
  | .name text :: ts => (ofTokens? ts).map (.name text :: ·)
  | _ => none

end Word
end Contrary
