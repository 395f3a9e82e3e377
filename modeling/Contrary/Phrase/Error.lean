import Contrary.Naming.Names
import Contrary.Text.Quoted

/-!
# Faults of a phrase

What can be wrong with a line of code.
-/

namespace Contrary

/-- What is wrong with a line of code. -/
inductive PhraseError where
  /-- The line fits no command. -/
  | invalidStructure
  /-- No line below gives the name a kind. -/
  | notDefined (name : Bytes) (want : NameKind)
  /-- The name has another kind. -/
  | usedTwice (name : Bytes) (known want : NameKind)
  /-- The flag is placed a second time. -/
  | doubleLabel (name : Bytes)
  /-- The program may not introduce the name. -/
  | invalidName (name : Bytes) (want : NameKind)
  deriving DecidableEq, Repr

namespace PhraseError

/-- The classes of faults, by name. -/
inductive Kind where
  | invalidStructure
  | notDefined
  | usedTwice
  | doubleLabel
  | invalidName
  deriving DecidableEq, Repr

/-- The word for a class of faults. -/
def Kind.label : Kind → Bytes
  | .invalidStructure => ascii "InvalidStructure"
  | .notDefined => ascii "NotDefinedVariable"
  | .usedTwice => ascii "NameUsedTwice"
  | .doubleLabel => ascii "DoubleLabel"
  | .invalidName => ascii "InvalidName"

/-- The wording of a class of faults for a name and two words for kinds. -/
def Kind.message (k : Kind) (name known want : Bytes) : Bytes :=
  match k with
  | .invalidStructure => ascii "the line does not match any command"
  | .notDefined => name.quoted ++ ascii " is not defined as " ++ want ++ ascii " at this point"
  | .usedTwice =>
      ascii "the name " ++ name.quoted ++ ascii " is used both for " ++ known ++
        ascii " and " ++ want
  | .doubleLabel => ascii "label " ++ name.quoted ++ ascii " was defined twice"
  | .invalidName => name.quoted ++ ascii " cannot be used as a " ++ want ++ ascii " name"

/-- The class of a fault. -/
def kind : PhraseError → Kind
  | .invalidStructure => .invalidStructure
  | .notDefined _ _ => .notDefined
  | .usedTwice _ _ _ => .usedTwice
  | .doubleLabel _ => .doubleLabel
  | .invalidName _ _ => .invalidName

/-- The wording of a fault. -/
def message : PhraseError → Bytes
  | .invalidStructure => Kind.invalidStructure.message [] [] []
  | .notDefined name want => Kind.notDefined.message name [] want.label
  | .usedTwice name known want => Kind.usedTwice.message name known.label want.label
  | .doubleLabel name => Kind.doubleLabel.message name [] []
  | .invalidName name want => Kind.invalidName.message name [] want.label

end PhraseError
end Contrary
