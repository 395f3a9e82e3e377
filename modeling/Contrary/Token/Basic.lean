import Contrary.Text.Quoted

/-!
# Tokens

A token is a name, a number, an array bracket or a comment.  Tokens of no known
class can be handed to the later stages as well; they are shown as `unknown` and
no command accepts them.
-/

namespace Contrary

/-- The side of an array bracket. -/
inductive Side where
  | left
  | right
  deriving DecidableEq, Repr

/-- The classes of tokens. -/
inductive TokenKind where
  | name
  | literal
  | bracket
  | comment
  deriving DecidableEq, Repr

/-- A token of a source line. -/
inductive Token where
  | name (text : Bytes)
  | literal (value : Int32)
  | bracket (side : Side)
  | comment (text : Bytes)
  | unknown
  deriving DecidableEq, Repr

/-- A source line as it stands in its file, with its tokens. -/
structure TokenLine where
  tokens : List Token
  raw : Bytes
  deriving DecidableEq, Repr

/-- The word that a dump uses for a side. -/
def Side.label : Side → Bytes
  | .left => ascii "Left"
  | .right => ascii "Right"

/-- The word that a dump uses for a class of tokens. -/
def TokenKind.label : TokenKind → Bytes
  | .name => ascii "Name"
  | .literal => ascii "Literal"
  | .bracket => ascii "ArrayBracket"
  | .comment => ascii "Comment"

namespace Token

/-- Whether a token is a comment. -/
def isComment : Token → Bool
  | .comment _ => true
  | _ => false

/-- A token in a dump: its class and, in parentheses, what it holds. -/
def labelled (kind : TokenKind) (content : Bytes) : Bytes :=
  kind.label ++ ascii "(" ++ content ++ ascii ")"

/-- The text of a token in a dump. -/
def dump : Token → Bytes
  | .name text => labelled .name text.quoted
  | .literal value => labelled .literal (Bytes.decimal value.toInt)
  | .bracket side => labelled .bracket side.label
  | .comment text => labelled .comment text.quoted
  | .unknown => ascii "unknown"

end Token

/-- A token line in a dump: the quoted line, then its tokens in brackets. -/
def TokenLine.dump (l : TokenLine) : Bytes :=
  Bytes.line (l.raw.quoted ++ ascii " [" ++
    List.intercalate (ascii " ") (l.tokens.map Token.dump) ++ ascii "]")

/-- The dump of a list of token lines, one line for each. -/
def TokenLine.dumpAll (ls : List TokenLine) : Bytes :=
  ls.flatMap TokenLine.dump

end Contrary
