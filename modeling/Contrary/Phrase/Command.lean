import Contrary.Phrase.Word
import Contrary.Program.Op

/-!
# Commands

A command is a kind of line.  Its template gives the words of the line: fixed
ones, and slots for names, places and values.

The language says the opposite of what it does: `undefine` defines and `define`
undefines, `print` reads and `read to` prints, `add` subtracts and `sub` adds,
`unmark` places a flag and `mark` removes it.  An `if` line closes the block that
a `fi` line below it opened, and the comparison that it spells is the negation of
the one under which the block runs.
-/

namespace Contrary

/-- A place in a template that a word fills. -/
inductive Slot where
  /-- A bare name. -/
  | name
  /-- A name or an element. -/
  | place
  /-- Any word. -/
  | value
  /-- An element. -/
  | element
  deriving DecidableEq, Repr

/-- Whether a word may fill a slot. -/
def Slot.accepts : Slot → Word → Bool
  | .name, .name _ => true
  | .place, .name _ => true
  | .place, .element _ _ => true
  | .value, _ => true
  | .element, .element _ _ => true
  | _, _ => false

/-- A piece of a template. -/
inductive Piece where
  | fixed (word : String)
  | slot (s : Slot)
  deriving DecidableEq, Repr

/-- The words that fill the slots of a template, if a list of words fits it. -/
def Piece.match? : List Piece → List Word → Option (List Word)
  | [], [] => some []
  | .fixed keyword :: ps, w :: ws => if w = .name (ascii keyword) then match? ps ws else none
  | .slot s :: ps, w :: ws => if s.accepts w then (match? ps ws).map (w :: ·) else none
  | _, _ => none

/-- The kinds of lines, named for what they do. -/
inductive Command where
  | defineArray
  | undefineArray
  | define
  | undefine
  | read
  | print
  | printChar
  | subtract
  | add
  | mark
  | unmark
  | pin
  | goto
  | closeBlock (c : Comparison)
  | openBlock
  deriving DecidableEq, Repr

namespace Command

/-- Every command, in the order in which lines are tried. -/
def all : List Command :=
  [ .defineArray, .undefineArray, .define, .undefine, .read, .print, .printChar, .subtract, .add,
    .mark, .unmark, .pin, .goto, .closeBlock .lessOrEqual, .closeBlock .equal,
    .closeBlock .greaterOrEqual, .closeBlock .notEqual, .closeBlock .greater, .closeBlock .less,
    .openBlock ]

/-- The template of a command. -/
def template : Command → List Piece
  | .defineArray => [.fixed "undefine", .fixed "single", .slot .element]
  | .undefineArray => [.fixed "define", .fixed "single", .slot .name]
  | .define => [.fixed "undefine", .slot .name]
  | .undefine => [.fixed "define", .slot .name]
  | .read => [.fixed "print", .slot .place]
  | .print => [.fixed "read", .fixed "to", .slot .place]
  | .printChar => [.fixed "read", .fixed "as", .fixed "number", .fixed "to", .slot .value]
  | .subtract => [.fixed "add", .slot .value, .fixed "to", .slot .place]
  | .add => [.fixed "sub", .slot .value, .fixed "from", .slot .place]
  | .mark => [.fixed "unmark", .slot .name]
  | .unmark => [.fixed "mark", .slot .name]
  | .pin => [.fixed "forget", .slot .name]
  | .goto => [.fixed "halt"]
  | .closeBlock c => .fixed "if" :: .slot .value :: c.negate.words.map .fixed ++ [.slot .value]
  | .openBlock => [.fixed "fi"]

/-- The first of the given commands whose template fits, with the words in its
slots. -/
def select? (commands : List Command) (words : List Word) : Option (Command × List Word) :=
  commands.findSome? fun c => (Piece.match? c.template words).map fun args => (c, args)

end Command
end Contrary
