import Contrary.Proofs.Trimming

/-!
# Sources on top of each other

A source that is cut after one of its line feeds is a source on top of another one.  It is
read from the bottom line up, so the lower part comes first and is numbered as if it stood
alone; the upper part is numbered after all of its lines.

**Lines.**  The text in front of a line feed is cut at its own line feeds, and none of its
pieces is dropped, whatever follows (`lines_append_newline`).  So a text with a line feed at
its end keeps its lines under other texts (`lines_append`).

**Numbers.**  Lines are read part by part (`TokenLine.ofLines_append`).  What is below them and
how many lines there are goes into the fault only (`TokenLine.ofLines_below`).

**Results.**
* `sources_compose`: the lines, the token lines and the fault of a source in two parts.
-/

namespace Contrary

namespace Listing

/-- The lines above a line feed come first, and those below it are read on their own. -/
theorem lines_append_newline
    (a b : Bytes) :
    lines (a ++ '\n'.toUInt8 :: b) =
      (Bytes.splitOn '\n'.toUInt8 a).map dropReturn ++ lines b := by
  have hne := splitOn_ne_nil '\n'.toUInt8 b
  unfold lines
  dsimp only
  rw [splitOn_append_sep, List.getLast?_append_of_ne_nil _ hne]
  split_ifs
  · rw [List.dropLast_append_of_ne_nil hne, List.map_append]
  · rw [List.map_append]

theorem lines_newline
    (a : Bytes) :
    lines (a ++ ['\n'.toUInt8]) = (Bytes.splitOn '\n'.toUInt8 a).map dropReturn := by
  have hempty : lines [] = [] := rfl
  rw [lines_append_newline, hempty, List.append_nil]

/-- The lines of a text in two parts, of which the first ends in a line feed. -/
theorem lines_append
    (a b : Bytes) :
    lines (a ++ '\n'.toUInt8 :: b) = lines (a ++ ['\n'.toUInt8]) ++ lines b := by
  rw [lines_append_newline, lines_newline]

end Listing

/-- The fault of a line that has more lines below it, in a source with another number of
lines. -/
def Located.raised {ε : Type} (more count : Int) (e : Located ε) : Located ε :=
  { e with line := e.line + more, lineCount := count }

namespace TokenLine

/-- Two parts of a listing are read one after the other. -/
theorem ofLines_append
    (total : Nat) (xs ys : List Bytes) :
    ∀ below : Nat,
      ofLines total below (xs ++ ys) =
        (ofLines total below xs).bind fun us =>
          (ofLines total (below + xs.length) ys).map (us ++ ·) := by
  induction xs with
  | nil =>
      intro below
      change ofLines total below ys = (ofLines total below ys).map ([] ++ ·)
      cases ofLines total below ys <;> rfl
  | cons raw xs ih =>
      intro below
      have hcount : below + (raw :: xs).length = below + 1 + xs.length := by
        rw [List.length_cons]
        omega
      rw [hcount, List.cons_append, ofLines, ofLines]
      cases Token.ofLine raw.trim with
      | error e => rfl
      | ok tokens =>
          dsimp only
          rw [ih (below + 1)]
          cases ofLines total (below + 1) xs with
          | error e => rfl
          | ok us => cases ofLines total (below + 1 + xs.length) ys <;> rfl

/-- Lines give the same tokens wherever they stand; a fault has another number there. -/
theorem ofLines_below
    (total total' more : Nat) (raws : List Bytes) :
    ∀ below : Nat,
      ofLines total' (more + below) raws =
        (ofLines total below raws).mapError (Located.raised more total') := by
  induction raws with
  | nil =>
      intro below
      rfl
  | cons raw above ih =>
      intro below
      rw [ofLines, ofLines]
      cases Token.ofLine raw.trim with
      | error e =>
          have hline : ((more + below : Nat) : Int) + 1 = (below : Int) + 1 + more := by omega
          simp only [Except.mapError, Located.raised, hline]
      | ok tokens =>
          dsimp only
          rw [Nat.add_assoc, ih (below + 1)]
          cases ofLines total (below + 1) above <;> rfl

/-- A source in two parts: the lower part is read as if it stood alone, apart from the number
of lines, and the upper part after it. -/
theorem ofSource_append
    (a b : Bytes) :
    ofSource (a ++ '\n'.toUInt8 :: b) =
      let upper := Listing.lines (a ++ ['\n'.toUInt8])
      let lower := Listing.lines b
      ((ofSource b).mapError (Located.raised 0 (upper.length + lower.length))).bind fun ys =>
        ((ofSource (a ++ ['\n'.toUInt8])).mapError
          (Located.raised lower.length (upper.length + lower.length))).map (ys ++ ·) := by
  have hlower := ofLines_below (Listing.lines b).length
    ((Listing.lines (a ++ ['\n'.toUInt8])).length + (Listing.lines b).length) 0
    (Listing.lines b).reverse 0
  have hupper := ofLines_below (Listing.lines (a ++ ['\n'.toUInt8])).length
    ((Listing.lines (a ++ ['\n'.toUInt8])).length + (Listing.lines b).length)
    (Listing.lines b).length (Listing.lines (a ++ ['\n'.toUInt8])).reverse 0
  unfold ofSource
  dsimp only
  rw [Listing.lines_append, List.reverse_append, List.length_append, ofLines_append,
    List.length_reverse, Nat.zero_add]
  rw [Nat.add_zero] at hlower hupper
  rw [hlower, hupper]
  simp only [Int.natCast_add, Int.natCast_zero]

end TokenLine

/-- **Sources compose.**  The lines of a source that is cut after a line feed are the lines of
its two parts.  It can be read if and only if both parts can, and its token lines are those of
the lower part and then those of the upper part.  A fault of the lower part is its fault,
with the same number; a fault of the upper part is its fault if the lower part has none, with
the number raised by the lines below.  Both count the lines of both parts. -/
theorem sources_compose
    (a b : Bytes) :
    Listing.lines (a ++ '\n'.toUInt8 :: b) =
      Listing.lines (a ++ ['\n'.toUInt8]) ++ Listing.lines b ∧
    (∀ tls, TokenLine.ofSource (a ++ '\n'.toUInt8 :: b) = .ok tls ↔
      ∃ ys xs, TokenLine.ofSource b = .ok ys ∧
        TokenLine.ofSource (a ++ ['\n'.toUInt8]) = .ok xs ∧ tls = ys ++ xs) ∧
    (∀ e, TokenLine.ofSource b = .error e →
      TokenLine.ofSource (a ++ '\n'.toUInt8 :: b) = .error
        { e with
          lineCount :=
            (Listing.lines (a ++ ['\n'.toUInt8])).length + (Listing.lines b).length }) ∧
    ∀ ys e, TokenLine.ofSource b = .ok ys → TokenLine.ofSource (a ++ ['\n'.toUInt8]) = .error e →
      TokenLine.ofSource (a ++ '\n'.toUInt8 :: b) = .error
        { e with
          line := e.line + (Listing.lines b).length
          lineCount :=
            (Listing.lines (a ++ ['\n'.toUInt8])).length + (Listing.lines b).length } := by
  have hsource := TokenLine.ofSource_append a b
  dsimp only at hsource
  refine ⟨Listing.lines_append a b, ?_, ?_, ?_⟩
  · intro tls
    rw [hsource]
    cases TokenLine.ofSource b with
    | error e => simp [Except.mapError, Except.bind]
    | ok ys =>
        cases TokenLine.ofSource (a ++ ['\n'.toUInt8]) with
        | error e => simp [Except.mapError, Except.bind, Except.map]
        | ok xs => simp [Except.mapError, Except.bind, Except.map, eq_comm]
  · intro e he
    rw [hsource, he]
    simp [Except.mapError, Except.bind, Located.raised]
  · intro ys e hys he
    rw [hsource, hys, he]
    rfl

/-- A number that is too large, in the upper of two lines. -/
def tooLarge : Bytes :=
  ascii "print 4294967296\r\ntop /"

/-- A line with code and an empty line. -/
def lineAndGap : Bytes :=
  ascii "undefine x\n\n"

/-- The fault keeps its number when lines are put above it, and moves up when they are put
below it. -/
theorem tooLarge_composed :
    TokenLine.ofSource (lineAndGap ++ '\n'.toUInt8 :: tooLarge) =
      .error ⟨2, 5, ascii "print 4294967296", ⟨ascii "4294967296"⟩⟩ ∧
    TokenLine.ofSource (tooLarge ++ '\n'.toUInt8 :: lineAndGap) =
      .error ⟨4, 4, ascii "print 4294967296", ⟨ascii "4294967296"⟩⟩ ∧
    TokenLine.ofSource (lineAndGap ++ '\n'.toUInt8 :: lineAndGap) =
      .ok ([⟨[], []⟩, ⟨[.name (ascii "undefine"), .name (ascii "x")], ascii "undefine x"⟩] ++
        [⟨[], []⟩, ⟨[], []⟩,
          ⟨[.name (ascii "undefine"), .name (ascii "x")], ascii "undefine x"⟩]) := by
  have hlines : (Listing.lines lineAndGap).length = 2 ∧
      (Listing.lines (lineAndGap ++ ['\n'.toUInt8])).length = 3 ∧
      (Listing.lines tooLarge).length = 2 ∧
      (Listing.lines (tooLarge ++ ['\n'.toUInt8])).length = 2 := by decide +kernel
  obtain ⟨hlower, hupper, hlarge, habove⟩ := hlines
  refine ⟨?_, ?_, ?_⟩
  · obtain ⟨-, -, hfault, -⟩ := sources_compose lineAndGap tooLarge
    rw [hfault ⟨2, 2, ascii "print 4294967296", ⟨ascii "4294967296"⟩⟩ (by decide +kernel),
      hupper, hlarge]
    rfl
  · obtain ⟨-, -, -, hfault⟩ := sources_compose tooLarge lineAndGap
    rw [hfault [⟨[], []⟩, ⟨[.name (ascii "undefine"), .name (ascii "x")], ascii "undefine x"⟩]
      ⟨2, 2, ascii "print 4294967296", ⟨ascii "4294967296"⟩⟩
      (by decide +kernel) (by decide +kernel), habove, hlower]
    rfl
  · obtain ⟨-, hread, -, -⟩ := sources_compose lineAndGap lineAndGap
    refine (hread _).mpr ⟨_, _, ?_, ?_, rfl⟩
    · decide +kernel
    · decide +kernel

end Contrary
