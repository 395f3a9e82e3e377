import Contrary.Text.Glyph

/-!
# Blanks

The white space of the language is that of Unicode, so a line may be indented
with a no-break space.  `trim` takes blanks off both ends of a text, the front
by reading forwards and the end by reading backwards.
-/

namespace Contrary

/-- The code points of white space. -/
def isBlank (c : Nat) : Bool :=
  (0x09 ≤ c && c ≤ 0x0D) || c == 0x20 || c == 0x85 || c == 0xA0 || c == 0x1680 ||
    (0x2000 ≤ c && c ≤ 0x200A) || c == 0x2028 || c == 0x2029 || c == 0x202F ||
    c == 0x205F || c == 0x3000

namespace Glyph

/-- A white space glyph. -/
def isBlank (g : Glyph) : Bool :=
  Contrary.isBlank g.code

end Glyph

namespace Bytes

/-- Drops the blanks at the front of a text. -/
def trimFront : Bytes → Bytes
  | [] => []
  | b :: rest =>
      let g := Glyph.first b rest
      if g.isBlank then trimFront (rest.drop (g.bytes.length - 1)) else b :: rest
termination_by s => s.length
decreasing_by
  simp only [List.length_drop, List.length_cons]
  omega

/-- Drops the blanks at the end of a text that is given backwards. -/
def trimReversed : Bytes → Bytes
  | [] => []
  | b :: before =>
      let g := Glyph.last b before
      if g.isBlank then trimReversed (before.drop (g.bytes.length - 1)) else b :: before
termination_by s => s.length
decreasing_by
  simp only [List.length_drop, List.length_cons]
  omega

/-- Drops the blanks at the end of a text. -/
def trimEnd (s : Bytes) : Bytes :=
  (trimReversed s.reverse).reverse

/-- Drops the blanks at both ends of a text. -/
def trim (s : Bytes) : Bytes :=
  trimEnd (trimFront s)

end Bytes
end Contrary
