import Contrary.Naming.Scope
import Contrary.Phrase.Command

/-!
# What a phrase means

The operation of a line of code, given the names that the lines below it have
introduced.  Names are looked up from left to right, an array before its index.
-/

namespace Contrary

namespace Names

/-- The index that a subscript denotes. -/
def index (t : Names) : Subscript → Except PhraseError Index
  | .literal n => .ok (.literal n)
  | .name x => (t.lookup x .variable).map .var

/-- The array element that a name and a subscript denote. -/
def element (t : Names) (array : Bytes) (i : Subscript) : Except PhraseError Place := do
  let a ← t.lookup array .array
  let i ← t.index i
  return .element a i

/-- The place that a word denotes. -/
def place (t : Names) : Word → Except PhraseError Place
  | .name x => (t.lookup x .variable).map .var
  | .element array i => t.element array i
  | .literal _ => .error .invalidStructure

/-- The operand that a word denotes. -/
def operand (t : Names) : Word → Except PhraseError Operand
  | .literal n => .ok (.literal n)
  | w => (t.place w).map .stored

end Names

namespace Command

/-- An operation that leaves the names as they are. -/
def keeping (t : Names) (op : Except PhraseError Op) : Except PhraseError (Op × Names) :=
  op.map fun o => (o, t)

/-- The operation of a command with the words in its slots. -/
def meaning (t : Names) : Command → List Word → Except PhraseError (Op × Names)
  | .defineArray, [.element array (.literal size)] =>
      (t.intern array .array size.toInt).map fun (t', a) => (.defineArray a, t')
  | .undefineArray, [.name x] => keeping t ((t.lookup x .array).map .undefineArray)
  | .define, [.name x] => (t.intern x .variable 0).map fun (t', v) => (.define v, t')
  | .undefine, [.name x] => keeping t ((t.lookup x .variable).map .undefine)
  | .read, [w] => keeping t ((t.place w).map .read)
  | .print, [w] => keeping t ((t.operand w).map .print)
  | .printChar, [w] => keeping t ((t.operand w).map .printChar)
  | .subtract, [v, w] => keeping t do
      let value ← t.operand v
      let target ← t.place w
      return .subtract value target
  | .add, [v, w] => keeping t do
      let value ← t.operand v
      let target ← t.place w
      return .add value target
  | .mark, [.name x] =>
      match t.find? x with
      | some (.flag, _) => .error (.doubleLabel x)
      | _ => (t.intern x .flag 0).map fun (t', f) => (.mark f, t')
  | .unmark, [.name x] => keeping t ((t.lookup x .flag).map .unmark)
  | .pin, [.name x] => keeping t ((t.lookup x .flag).map .pin)
  | .goto, [] => .ok (.goto, t)
  | .closeBlock c, [v, w] => keeping t do
      let a ← t.operand v
      let b ← t.operand w
      return .closeBlock a b c
  | .openBlock, [] => .ok (.openBlock, t)
  | _, _ => .error .invalidStructure

end Command

namespace Op

/-- The operation of a line of code, with commands tried in the given order. -/
def ofCodeWith (commands : List Command) (t : Names) (code : List Token) :
    Except PhraseError (Op × Names) :=
  match Word.ofTokens? code with
  | none => .error .invalidStructure
  | some words =>
      match Command.select? commands words with
      | none => .error .invalidStructure
      | some (c, args) => c.meaning t args

/-- The operation of a line of code. -/
def ofCode (t : Names) (code : List Token) : Except PhraseError (Op × Names) :=
  ofCodeWith Command.all t code

end Op
end Contrary
