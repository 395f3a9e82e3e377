import Contrary.Naming.Spelling
import Contrary.Phrase.Error

/-!
# Looking names up

A line either uses a name, which must have the wanted kind already, or
introduces it.  A name that is introduced again keeps its handle and, if it is
an array, its size.
-/

namespace Contrary
namespace Names

/-- The handle of a name that must have the wanted kind. -/
def lookup (t : Names) (name : Bytes) (want : NameKind) : Except PhraseError Nat :=
  match t.find? name with
  | none => .error (.notDefined name want)
  | some (known, i) => if known = want then .ok i else .error (.usedTwice name known want)

/-- Enters a new variable, array of a size, or flag; the handle is the next of
its table. -/
def insert (t : Names) (name : Bytes) (size : Int) : NameKind → Names × Nat
  | .variable => (⟨t.vars.push name, t.arrays, t.flags⟩, t.vars.size)
  | .array => (⟨t.vars, t.arrays.push ⟨name, size⟩, t.flags⟩, t.arrays.size)
  | .flag => (⟨t.vars, t.arrays, t.flags.push name⟩, t.flags.size)

/-- The handle of a name that is entered if it is new.  The size is that of a
new array. -/
def intern (t : Names) (name : Bytes) (want : NameKind) (size : Int) :
    Except PhraseError (Names × Nat) :=
  match t.find? name with
  | some (known, i) => if known = want then .ok (t, i) else .error (.usedTwice name known want)
  | none => if Spelling.allowed name want then .ok (t.insert name size want)
      else .error (.invalidName name want)

end Names
end Contrary
