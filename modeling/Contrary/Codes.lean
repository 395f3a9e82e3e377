import Contrary.Phrase.Error
import Contrary.Program.Comparison
import Contrary.Token.Basic

/-!
# Numeric codes

The enumerations of the library by number, for callers that store them as
numbers.  A number without a meaning is shown as `unknown`.
-/

namespace Contrary
namespace Codes

/-- The entry of a list at a number that may be negative. -/
def at? {α : Type} (entries : List α) (code : Int) : Option α :=
  if code < 0 then none else entries[code.toNat]?

/-- The classes of tokens by code. -/
def tokenKinds : List TokenKind :=
  [.name, .literal, .bracket, .comment]

/-- The comparisons by code. -/
def comparisons : List Comparison :=
  [.equal, .notEqual, .less, .greater, .lessOrEqual, .greaterOrEqual]

/-- The kinds of names by code. -/
def nameKinds : List NameKind :=
  [.variable, .array, .flag]

/-- The classes of phrase faults by code. -/
def phraseFaults : List PhraseError.Kind :=
  [.invalidStructure, .notDefined, .usedTwice, .doubleLabel, .invalidName]

/-- The word for an entry, or for a number without one. -/
def label {α : Type} (entries : List α) (word : α → Bytes) (code : Int) : Bytes :=
  ((at? entries code).map word).getD (ascii "unknown")

/-- The word for a side: every number but 0 is the right one. -/
def sideLabel (code : Int) : Bytes :=
  (if code = 0 then Side.left else Side.right).label

/-- The wording of a phrase fault that is given by its code and those of the
kinds of names. -/
def phraseMessage (code : Int) (name : Bytes) (known want : Int) : Bytes :=
  match at? phraseFaults code with
  | none => ascii "unknown parse error"
  | some k =>
      k.message name (label nameKinds NameKind.label known) (label nameKinds NameKind.label want)

/-- The wording for a number that is no comparison. -/
def comparisonMessage (code : Int) : Bytes :=
  ascii "ir: unknown condition " ++ Bytes.decimal code

end Codes
end Contrary
