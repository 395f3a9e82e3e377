import Contrary.Proofs.Indented
import Contrary.Proofs.LineEnds
import Contrary.Proofs.Numerals

/-!
# The lexical grammar of a line

What a line consists of, said without the scanner: comments, each with its slash, and code
that is cut into segments.

**Segments.**  A segment is a run of blanks, a bracket, a run of digits or a run of other
glyphs, and each run is as long as it can be (`Segment.Splits`).  A text is cut in exactly
one way: the first glyph tells the kind of the first segment, and the kind tells its end
(`Segment.eq_ofGlyphs`).

**Bytes and glyphs.**  Blanks and words are runs of glyphs, digits and brackets are bytes.
Cutting a text between two of its glyphs keeps the glyphs on both sides
(`glyphs_of_append`), and no segment takes a byte from a glyph that goes on after it
(`Segment.glyphs_append`).

**Tokens.**  The lexemes that the scanner finds are the segments other than blanks
(`Segment.scan_of_splits`), and the first run of digits that is out of range is reported
(`Segment.mapM_token`).

**Results.**
* `LineParts.ofLine_text`: the tokens of a line, from its parts.
* `line_has_one_reading`: every line has exactly one list of parts, and which tokens or
  which fault it gives.
-/

namespace Contrary

/-- A part of the code of a line. -/
inductive Segment where
  | blanks (text : Bytes)
  | bracket (side : Side)
  | digits (text : Bytes)
  | word (text : Bytes)
  deriving DecidableEq, Repr

namespace Segment

/-- The text of a segment. -/
def text : Segment → Bytes
  | .blanks w => w
  | .bracket side => [side.byte]
  | .digits ds => ds
  | .word x => x

/-- A segment that is a run of its kind.  A word may hold digits, but not start with one. -/
def IsProper : Segment → Prop
  | .blanks w => w ≠ [] ∧ ∀ g ∈ glyphs w, g.isBlank = true
  | .bracket _ => True
  | .digits ds => ds ≠ [] ∧ ∀ b ∈ ds, Bytes.isDigit b = true
  | .word x => x ≠ [] ∧ x.head?.any Bytes.isDigit = false ∧ ∀ g ∈ glyphs x, g.inWord = true

/-- What comes next does not continue the run. -/
def EndsAt (rest : Bytes) : Segment → Prop
  | .blanks _ => (glyphs rest).head?.any Glyph.isBlank = false
  | .bracket _ => True
  | .digits _ => rest.head?.any Bytes.isDigit = false
  | .word _ => (glyphs rest).head?.any Glyph.inWord = false

/-- The text is cut into segments, each of them as long as it can be. -/
inductive Splits : Bytes → List Segment → Prop
  | nil : Splits [] []
  | cons {x : Segment} {rest : Bytes} {xs : List Segment} :
      x.IsProper →
      x.EndsAt rest →
      Splits rest xs →
      Splits (x.text ++ rest) (x :: xs)

end Segment

section Glyphs

open Glyph

theorem glyphs_ascii_append
    {s : Bytes}
    (hs : IsAscii s) (t : Bytes) :
    glyphs (s ++ t) = s.map Glyph.ofByte ++ glyphs t := by
  induction s with
  | nil => rfl
  | cons b s ih =>
      obtain ⟨hb, hs⟩ := List.forall_mem_cons.mp hs
      rw [List.cons_append, glyphs_cons, first_of_lt hb, List.map_cons, List.cons_append, ← ih hs]
      rfl

/-- A byte that is stray stays so if the text is cut after it. -/
theorem Glyph.first_of_stray
    {b : UInt8} {s t : Bytes}
    (h : first b (s ++ t) = .stray b) :
    first b s = .stray b := by
  rcases first_cases b s with ⟨more, rest, rfl, hg⟩ | hstray
  · rw [List.append_assoc, hg.first] at h
    exact h
  · exact hstray

/-- A text that is cut between two of its glyphs keeps the glyphs on both sides. -/
theorem glyphs_of_append
    (u : List Glyph) :
    ∀ {s : Bytes} {v : List Glyph},
      glyphs s = u ++ v →
      glyphs (Glyph.text u) = u ∧ glyphs (Glyph.text v) = v := by
  induction u with
  | nil =>
      intro s v h
      rw [List.nil_append] at h
      rw [← h, text_glyphs]
      exact ⟨glyphs_nil, rfl⟩
  | cons g u ih =>
      intro s v h
      cases s with
      | nil =>
          rw [glyphs_nil] at h
          cases h
      | cons b rest =>
          rw [glyphs_cons, List.cons_append] at h
          obtain ⟨rfl, hrest⟩ := List.cons.inj h
          obtain ⟨hu, hv⟩ := ih hrest
          refine ⟨?_, hv⟩
          have htext : Glyph.text (first b rest :: u) = (first b rest).bytes ++ Glyph.text u := rfl
          rw [htext]
          rcases first_cases b rest with ⟨more, rest', -, hg⟩ | hstray
          · rw [hg.glyphs_append, hu]
          · rw [hstray] at hrest ⊢
            have hsplit : rest = Glyph.text u ++ Glyph.text v := by
              have hbytes := congrArg Glyph.text hrest
              rw [text_glyphs] at hbytes
              simpa [Glyph.text, Glyph.bytes] using hbytes
            rw [hsplit] at hstray
            change glyphs (b :: Glyph.text u) = _
            rw [glyphs_cons, first_of_stray hstray]
            exact congrArg (Glyph.stray b :: ·) hu

/-- A text that starts a blank or a bracket starts a new glyph. -/
theorem Glyph.starts_of_not_inWord
    {t : Bytes}
    (h : (glyphs t).head?.any Glyph.inWord = false) :
    Starts t := by
  cases t with
  | nil => simp [Starts]
  | cons b rest =>
      intro x hx
      cases hx
      cases htail : isTail b with
      | false => rfl
      | true =>
          rw [glyphs_cons, first_of_isTail htail] at h
          have hword : (Glyph.stray b).inWord = true := by
            rw [inWord, isBlank_stray]
            rfl
          rw [List.head?_cons, Option.any_some, hword] at h
          cases h

/-- A glyph is a digit exactly if its first byte is. -/
theorem Glyph.isDigit_first
    (b : UInt8) (rest : Bytes) :
    (first b rest).isDigit = Bytes.isDigit b := by
  cases hdigit : (first b rest).isDigit with
  | true => exact (bytes_of_isDigit_code hdigit).2.symm
  | false =>
      cases hb : Bytes.isDigit b with
      | false => rfl
      | true =>
          have hrange := Numeral.toNat_of_isDigit hb
          have hlt : b < 0x80 := UInt8.lt_iff_toNat_lt.mpr (by
            change b.toNat < 128
            omega)
          rw [first_of_lt hlt, isDigit_ofByte, hb] at hdigit
          cases hdigit

theorem Glyph.head?_isDigit
    (s : Bytes) :
    (glyphs s).head?.any Glyph.isDigit = s.head?.any Bytes.isDigit := by
  cases s with
  | nil => rw [glyphs_nil]; rfl
  | cons b rest =>
      rw [glyphs_cons]
      exact isDigit_first b rest

theorem Glyph.inWord_iff
    {g : Glyph} :
    g.inWord = true ↔ g.isBlank = false ∧ g.side? = none := by
  rw [inWord, Bool.and_eq_true, Bool.not_eq_true', Option.isNone_iff_eq_none]

theorem glyphs_ne_nil
    {s : Bytes}
    (hs : s ≠ []) :
    glyphs s ≠ [] := by
  cases s with
  | nil => exact absurd rfl hs
  | cons b rest =>
      rw [glyphs_cons]
      exact List.cons_ne_nil _ _

end Glyphs

namespace Segment

section Cutting

theorem text_ne_nil
    {x : Segment}
    (hx : x.IsProper) :
    x.text ≠ [] := by
  cases x with
  | blanks w => exact hx.1
  | bracket side => exact List.cons_ne_nil _ _
  | digits ds => exact hx.1
  | word w => exact hx.1

theorem isAscii_of_isDigit
    {ds : Bytes}
    (hds : ∀ b ∈ ds, Bytes.isDigit b = true) :
    IsAscii ds := by
  intro b hb
  exact (isWordByte_spec b (by simp [isWordByte, isIdentifierByte_of_isDigit (hds b hb)])).1

theorem isAscii_bracket
    (side : Side) :
    IsAscii [side.byte] := by
  intro b hb
  rw [List.mem_singleton.mp hb]
  cases side <;> decide

/-- A segment does not share a glyph with what comes next. -/
theorem glyphs_append
    {x : Segment} {rest : Bytes}
    (hx : x.IsProper)
    (hend : x.EndsAt rest) :
    glyphs (x.text ++ rest) = glyphs x.text ++ glyphs rest := by
  cases x with
  | blanks w => exact glyphs_blank_append hx.2 rest
  | bracket side =>
      rw [text, glyphs_ascii_append (isAscii_bracket side), glyphs_of_isAscii (isAscii_bracket side)]
  | digits ds =>
      have hascii := isAscii_of_isDigit hx.2
      rw [text, glyphs_ascii_append hascii, glyphs_of_isAscii hascii]
  | word w => exact Contrary.glyphs_append (Glyph.starts_of_not_inWord hend) w

/-- The segment at the front of a text that starts with the glyph `g`. -/
def ofGlyphs (g : Glyph) (gs : List Glyph) : Segment :=
  if g.isBlank then .blanks (Glyph.text ((g :: gs).takeWhile Glyph.isBlank))
  else
    match g.side? with
    | some side => .bracket side
    | none =>
        if g.isDigit then .digits (Glyph.text ((g :: gs).takeWhile Glyph.isDigit))
        else .word (Glyph.text ((g :: gs).takeWhile Glyph.inWord))

theorem side?_ofByte
    (side : Side) :
    (Glyph.ofByte side.byte).side? = some side := by
  cases side <;> decide

theorem isDigit_glyphs
    {ds : Bytes}
    (hds : ∀ b ∈ ds, Bytes.isDigit b = true) :
    ∀ g ∈ glyphs ds, g.isDigit = true := by
  rw [glyphs_of_isAscii (isAscii_of_isDigit hds)]
  intro g hg
  obtain ⟨b, hb, rfl⟩ := List.mem_map.mp hg
  rw [Glyph.isDigit_ofByte]
  exact hds b hb

/-- The first segment can be told from the glyphs of the text. -/
theorem eq_ofGlyphs
    {x : Segment} {rest : Bytes}
    (hx : x.IsProper)
    (hend : x.EndsAt rest) :
    ∃ g gs, glyphs (x.text ++ rest) = g :: gs ∧ x = ofGlyphs g gs := by
  obtain ⟨g, run, hrun⟩ := List.exists_cons_of_ne_nil (glyphs_ne_nil (text_ne_nil hx))
  have hg : g ∈ glyphs x.text := by
    rw [hrun]
    exact List.mem_cons_self
  have hspan : ∀ p : Glyph → Bool, (∀ g ∈ glyphs x.text, p g = true) →
      (glyphs rest).head?.any p = false →
      Glyph.text ((g :: (run ++ glyphs rest)).takeWhile p) = x.text := by
    intro p hall hstop
    rw [← List.cons_append, ← hrun, (span_append hall hstop).1, text_glyphs]
  refine ⟨g, run ++ glyphs rest, by rw [glyphs_append hx hend, hrun, List.cons_append], ?_⟩
  unfold ofGlyphs
  cases x with
  | blanks w =>
      rw [if_pos (hx.2 g hg), hspan _ hx.2 hend]
      rfl
  | bracket side =>
      have hbyte : g = Glyph.ofByte side.byte := by
        rw [text, glyphs_of_isAscii (isAscii_bracket side)] at hg
        exact List.mem_singleton.mp hg
      have hside : g.side? = some side := by
        rw [hbyte]
        exact side?_ofByte side
      simp only [Glyph.isBlank_of_side? hside, hside, Bool.false_eq_true, if_false]
  | digits ds =>
      have hdigits := isDigit_glyphs hx.2
      obtain ⟨hblank, hside⟩ := Glyph.inWord_iff.mp (Glyph.inWord_of_isDigit (hdigits g hg))
      have hstop := Glyph.head?_isDigit rest
      rw [show rest.head?.any Bytes.isDigit = false from hend] at hstop
      simp only [hblank, hside, hdigits g hg, Bool.false_eq_true, if_false, if_true,
        hspan _ hdigits hstop]
      rfl
  | word w =>
      obtain ⟨-, hfirst, hword⟩ := hx
      obtain ⟨hblank, hside⟩ := Glyph.inWord_iff.mp (hword g hg)
      have hdigit : g.isDigit = false := by
        have hhead := Glyph.head?_isDigit w
        rw [hfirst, show glyphs w = g :: run from hrun] at hhead
        exact hhead
      simp only [hblank, hside, hdigit, Bool.false_eq_true, if_false, hspan _ hword hend]
      rfl

/-- A text is cut into segments in at most one way. -/
theorem Splits.unique
    {s : Bytes} {xs : List Segment}
    (h : Splits s xs) :
    ∀ {ys : List Segment}, Splits s ys → xs = ys := by
  induction h with
  | nil =>
      intro ys hys
      generalize hs : ([] : Bytes) = s at hys
      cases hys with
      | nil => rfl
      | cons hy hend hrest => exact absurd (List.append_eq_nil_iff.mp hs.symm).1 (text_ne_nil hy)
  | @cons x rest xs hx hend hrest ih =>
      intro ys hys
      generalize hs : x.text ++ rest = s at hys
      cases hys with
      | nil => exact absurd (List.append_eq_nil_iff.mp hs).1 (text_ne_nil hx)
      | @cons y rest' ys hy hend' hrest' =>
          obtain ⟨g, gs, hglyphs, hxg⟩ := eq_ofGlyphs hx hend
          obtain ⟨g', gs', hglyphs', hyg⟩ := eq_ofGlyphs hy hend'
          rw [hs, hglyphs'] at hglyphs
          obtain ⟨rfl, rfl⟩ := List.cons.inj hglyphs
          have hxy : x = y := hxg.trans hyg.symm
          subst hxy
          have hrests : rest = rest' := List.append_cancel_left hs
          subst hrests
          rw [ih hrest']

/-- A run of glyphs at the front of a text, and the text after it. -/
theorem exists_run
    {b : UInt8} {more : Bytes} {p : Glyph → Bool}
    (hp : p (Glyph.first b more) = true) :
    ∃ run rest, b :: more = run ++ rest ∧ run ≠ [] ∧ (∀ g ∈ glyphs run, p g = true) ∧
      (glyphs rest).head?.any p = false := by
  have hsplit := (List.takeWhile_append_dropWhile (p := p) (l := glyphs (b :: more))).symm
  obtain ⟨hrun, hrest⟩ := glyphs_of_append _ hsplit
  refine ⟨Glyph.text ((glyphs (b :: more)).takeWhile p),
    Glyph.text ((glyphs (b :: more)).dropWhile p), ?_, ?_, ?_, ?_⟩
  · rw [Glyph.text, Glyph.text, ← List.flatMap_append, ← hsplit]
    exact (text_glyphs _).symm
  · intro hnil
    rw [hnil, glyphs_nil, glyphs_cons, List.takeWhile_cons_of_pos hp] at hrun
    cases hrun
  · rw [hrun]
    exact List.all_eq_true.mp List.all_takeWhile
  · rw [hrest]
    exact head?_dropWhile p _

/-- A text that is not empty starts with a segment. -/
theorem exists_front
    (b : UInt8) (more : Bytes) :
    ∃ (x : Segment) (rest : Bytes), b :: more = x.text ++ rest ∧ x.IsProper ∧ x.EndsAt rest := by
  cases hblank : (Glyph.first b more).isBlank with
  | true =>
      obtain ⟨run, rest, hs, hne, hrun, hend⟩ := exists_run hblank
      exact ⟨.blanks run, rest, hs, ⟨hne, hrun⟩, hend⟩
  | false =>
      cases hside : (Glyph.first b more).side? with
      | some side =>
          refine ⟨.bracket side, more, ?_, trivial, trivial⟩
          rw [Glyph.byte_of_side? hside]
          rfl
      | none =>
          cases hdigit : Bytes.isDigit b with
          | true =>
              refine ⟨.digits ((b :: more).takeWhile Bytes.isDigit),
                (b :: more).dropWhile Bytes.isDigit, List.takeWhile_append_dropWhile.symm,
                ⟨?_, List.all_eq_true.mp List.all_takeWhile⟩, ?_⟩
              · rw [List.takeWhile_cons_of_pos hdigit]
                exact List.cons_ne_nil _ _
              · exact head?_dropWhile Bytes.isDigit (b :: more)
          | false =>
              have hword : (Glyph.first b more).inWord = true :=
                Glyph.inWord_iff.mpr ⟨hblank, hside⟩
              obtain ⟨run, rest, hs, hne, hrun, hend⟩ := exists_run hword
              refine ⟨.word run, rest, hs, ⟨hne, ?_, hrun⟩, hend⟩
              obtain ⟨c, run, rfl⟩ := List.exists_cons_of_ne_nil hne
              obtain ⟨rfl, -⟩ := List.cons.inj hs
              exact hdigit

/-- Every text can be cut into segments. -/
theorem exists_splits
    (s : Bytes) :
    ∃ xs, Splits s xs := by
  induction hn : s.length using Nat.strongRecOn generalizing s with
  | ind n ih =>
      cases s with
      | nil => exact ⟨[], .nil⟩
      | cons b more =>
          obtain ⟨x, rest, hs, hx, hend⟩ := exists_front b more
          have hlength : rest.length < n := by
            have hpos := List.length_pos_iff.mpr (text_ne_nil hx)
            rw [← hn, hs, List.length_append]
            omega
          obtain ⟨xs, hxs⟩ := ih rest.length hlength rest rfl
          rw [hs]
          exact ⟨x :: xs, .cons hx hend hxs⟩

end Cutting

section Tokens

/-- The lexeme of a segment that is not blank. -/
def lexeme? : Segment → Option Lexeme
  | .blanks _ => none
  | .bracket side => some (.bracket side)
  | .digits ds => some (.digits (glyphs ds))
  | .word x => some (.word (glyphs x))

/-- The token of a segment that is not blank. -/
def token? : Segment → Option Token
  | .blanks _ => none
  | .bracket side => some (.bracket side)
  | .digits ds => some (.literal (Int32.ofNat (Numeral.value 10 ds)))
  | .word x => some (.name x)

/-- Digits whose value is above the range of 32-bit integers. -/
def excess? : Segment → Option Bytes
  | .digits ds => if 2147483647 < Numeral.value 10 ds then some ds else none
  | _ => none

/-- The tokens of segments; the first number out of range is a fault. -/
def read (xs : List Segment) : Except LiteralError (List Token) :=
  match xs.findSome? excess? with
  | some ds => .error ⟨ds⟩
  | none => .ok (xs.filterMap token?)

/-- The lexemes of a text are its segments other than blanks. -/
theorem scan_of_splits
    {s : Bytes} {xs : List Segment}
    (h : Splits s xs) :
    Lexeme.scan (glyphs s) = xs.filterMap lexeme? := by
  induction h with
  | nil =>
      rw [glyphs_nil, Lexeme.scan.eq_def]
      rfl
  | @cons x rest xs hx hend hrest ih =>
      rw [glyphs_append hx hend]
      cases x with
      | blanks w =>
          rw [text, Lexeme.scan_blanks_append hx.2, ih]
          rfl
      | bracket side =>
          rw [text, glyphs_of_isAscii (isAscii_bracket side), List.map_singleton,
            List.singleton_append, Lexeme.scan_bracket (side?_ofByte side), ih]
          rfl
      | digits ds =>
          have hstop := Glyph.head?_isDigit rest
          rw [show rest.head?.any Bytes.isDigit = false from hend] at hstop
          rw [text, Lexeme.scan_digits (glyphs_ne_nil hx.1) (isDigit_glyphs hx.2) hstop, ih]
          rfl
      | word w =>
          obtain ⟨hne, hfirst, hword⟩ := hx
          rw [← Glyph.head?_isDigit] at hfirst
          rw [text, Lexeme.scan_word (glyphs_ne_nil hne) hfirst hword hend, ih]
          rfl

theorem fitsIn_iff
    (n : Nat) :
    Numeral.FitsIn 32 n ↔ n ≤ 2147483647 := by
  have hfits := Numeral.Mark.fitsIn_iff .none 32 n
  simp only [reduceCtorEq, if_false] at hfits
  exact hfits.trans Nat.lt_succ_iff

/-- Digits are read as their value, if it is in range. -/
theorem reads_digits
    {ds : Bytes}
    (hne : ds ≠ [])
    (hds : ∀ b ∈ ds, Bytes.isDigit b = true) :
    Numeral.Reads Int32.toInt 32 (Numeral.value 10 ds) (Numeral.readPlain32 ds) := by
  obtain ⟨b, s, rfl⟩ := List.exists_cons_of_ne_nil hne
  have hread : Numeral.Reads id 32 (Numeral.value 10 (b :: s)) (Numeral.read .plain 32 (b :: s)) :=
    Numeral.reads_of_magnitude .none (by decide) (hds b List.mem_cons_self)
      (Numeral.magnitude_plain hds)
  exact hread.ofInt

/-- Digits are a number of 32 bits, unless their value is too large. -/
theorem token_digits
    {ds : Bytes}
    (hne : ds ≠ [])
    (hds : ∀ b ∈ ds, Bytes.isDigit b = true) :
    (Lexeme.digits (glyphs ds)).token =
      if 2147483647 < Numeral.value 10 ds then .error ⟨ds⟩
      else .ok (.literal (Int32.ofNat (Numeral.value 10 ds))) := by
  have hread := reads_digits hne hds
  rw [Lexeme.token, text_glyphs]
  cases hresult : Numeral.readPlain32 ds with
  | ok n =>
      rw [hresult] at hread
      cases hread with
      | value hvalue hfits =>
          have hle := (fitsIn_iff _).mp hfits
          have hn : n = Int32.ofNat (Numeral.value 10 ds) := by
            rw [← Int32.toInt_inj, hvalue, Int32.toInt_ofNat_of_lt (by omega)]
          rw [if_neg (by omega), hn]
  | error e =>
      rw [hresult] at hread
      cases hread with
      | failure hout =>
          rw [fitsIn_iff] at hout
          rw [if_pos (by omega)]

theorem read_cons_blanks
    (w : Bytes) (xs : List Segment) :
    read (.blanks w :: xs) = read xs := rfl

/-- The segments after one that is in range are read next. -/
theorem read_cons
    {x : Segment} {t : Token}
    (hx : x.excess? = none)
    (ht : x.token? = some t) (xs : List Segment) :
    read (x :: xs) = (read xs).map (t :: ·) := by
  unfold read
  rw [List.findSome?_cons, hx, List.filterMap_cons, ht]
  cases xs.findSome? excess? <;> rfl

/-- The lexemes of segments are read as the segments are. -/
theorem mapM_token
    {xs : List Segment}
    (hxs : ∀ x ∈ xs, x.IsProper) :
    (xs.filterMap lexeme?).mapM Lexeme.token = read xs := by
  induction xs with
  | nil => rfl
  | cons x xs ih =>
      obtain ⟨hx, hall⟩ := List.forall_mem_cons.mp hxs
      have hnext : ∀ {lx : Lexeme} {t : Token}, x.lexeme? = some lx → lx.token = .ok t →
          x.excess? = none → x.token? = some t →
          ((x :: xs).filterMap lexeme?).mapM Lexeme.token = read (x :: xs) := by
        intro lx t hlexeme htoken hexcess ht
        rw [List.filterMap_cons, hlexeme, List.mapM_cons, htoken, ih hall, read_cons hexcess ht]
        cases read xs <;> rfl
      cases x with
      | blanks w => exact (ih hall).trans (read_cons_blanks w xs).symm
      | bracket side => exact hnext rfl rfl rfl rfl
      | word w => exact hnext rfl (by rw [Lexeme.token, text_glyphs]) rfl rfl
      | digits ds =>
          have htoken := token_digits hx.1 hx.2
          by_cases hlarge : 2147483647 < Numeral.value 10 ds
          · rw [if_pos hlarge] at htoken
            have hexcess : (Segment.digits ds).excess? = some ds := if_pos hlarge
            rw [List.filterMap_cons, lexeme?, List.mapM_cons, htoken, read, List.findSome?_cons,
              hexcess]
            rfl
          · rw [if_neg hlarge] at htoken
            exact hnext rfl htoken (if_neg hlarge) rfl

theorem Splits.isProper
    {s : Bytes} {xs : List Segment}
    (h : Splits s xs) :
    ∀ x ∈ xs, x.IsProper := by
  induction h with
  | nil => exact List.forall_mem_nil _
  | cons hx _ _ ih => exact List.forall_mem_cons.mpr ⟨hx, ih⟩

/-- Cutting loses nothing. -/
theorem Splits.flatMap_text
    {s : Bytes} {xs : List Segment}
    (h : Splits s xs) :
    xs.flatMap Segment.text = s := by
  induction h with
  | nil => rfl
  | cons _ _ _ ih => rw [List.flatMap_cons, ih]

/-- The tokens of a piece of code are those of its segments. -/
theorem ofCode_of_splits
    {s : Bytes} {xs : List Segment}
    (h : Splits s xs) :
    Token.ofCode s = read xs := by
  rw [Token.ofCode, scan_of_splits h, mapM_token h.isProper]

theorem excess?_eq_some_iff
    {x : Segment} {ds : Bytes} :
    x.excess? = some ds ↔ x = .digits ds ∧ 2147483647 < Numeral.value 10 ds := by
  cases x with
  | digits ds' =>
      simp only [excess?, Option.ite_none_right_eq_some, Option.some.injEq, Segment.digits.injEq]
      constructor
      · rintro ⟨hlarge, rfl⟩
        exact ⟨rfl, hlarge⟩
      · rintro ⟨rfl, hlarge⟩
        exact ⟨hlarge, rfl⟩
  | _ => simp [excess?]

theorem excess?_eq_none_iff
    {xs : List Segment} :
    (∀ x ∈ xs, x.excess? = none) ↔
      ∀ ds, .digits ds ∈ xs → Numeral.value 10 ds ≤ 2147483647 := by
  constructor
  · intro h ds hds
    have hnone := h _ hds
    by_contra hlarge
    rw [excess?_eq_some_iff.mpr ⟨rfl, Nat.not_le.mp hlarge⟩] at hnone
    cases hnone
  · intro h x hx
    cases hexcess : x.excess? with
    | none => rfl
    | some ds =>
        obtain ⟨rfl, hlarge⟩ := excess?_eq_some_iff.mp hexcess
        exact absurd (h ds hx) (Nat.not_le.mpr hlarge)

theorem read_eq_ok_iff
    {xs : List Segment} {ts : List Token} :
    read xs = .ok ts ↔
      (∀ ds, .digits ds ∈ xs → Numeral.value 10 ds ≤ 2147483647) ∧ ts = xs.filterMap token? := by
  rw [← excess?_eq_none_iff, ← List.findSome?_eq_none_iff, read]
  cases xs.findSome? excess? with
  | none => simp [eq_comm]
  | some ds => simp

/-- The leftmost run of digits that is out of range is reported. -/
theorem read_eq_error_iff
    {xs : List Segment} {e : LiteralError} :
    read xs = .error e ↔
      ∃ before ds after, xs = before ++ .digits ds :: after ∧
        2147483647 < Numeral.value 10 ds ∧
        (∀ ds', .digits ds' ∈ before → Numeral.value 10 ds' ≤ 2147483647) ∧
        e = ⟨ds⟩ := by
  have hread : read xs = .error e ↔ xs.findSome? excess? = some e.digits := by
    rw [read]
    cases xs.findSome? excess? with
    | none => simp
    | some ds =>
        simp only [Except.error.injEq, Option.some.injEq]
        exact ⟨fun h => by rw [← h], fun h => by rw [h]⟩
  rw [hread, List.findSome?_eq_some_iff]
  constructor
  · rintro ⟨before, x, after, hxs, hx, hbefore⟩
    obtain ⟨rfl, hlarge⟩ := excess?_eq_some_iff.mp hx
    exact ⟨before, e.digits, after, hxs, hlarge, excess?_eq_none_iff.mp hbefore, rfl⟩
  · rintro ⟨before, ds, after, hxs, hlarge, hbefore, rfl⟩
    exact ⟨before, .digits ds, after, hxs, excess?_eq_some_iff.mpr ⟨rfl, hlarge⟩,
      excess?_eq_none_iff.mpr hbefore⟩

/-- Segments are refused if and only if some run of digits is out of range. -/
theorem exists_read_error_iff
    {xs : List Segment} :
    (∃ e, read xs = .error e) ↔ ∃ ds, .digits ds ∈ xs ∧ 2147483647 < Numeral.value 10 ds := by
  constructor
  · rintro ⟨e, he⟩
    obtain ⟨before, ds, after, rfl, hlarge, -, -⟩ := read_eq_error_iff.mp he
    exact ⟨ds, List.mem_append_right _ List.mem_cons_self, hlarge⟩
  · rintro ⟨ds, hds, hlarge⟩
    cases hread : read xs with
    | error e => exact ⟨e, rfl⟩
    | ok ts => exact absurd ((read_eq_ok_iff.mp hread).1 ds hds) (Nat.not_le.mpr hlarge)

end Tokens

end Segment

section Lines

/-- The parts of a line: the texts of its comments, and the segments of its code. -/
structure LineParts where
  comments : List Bytes
  segments : List Segment
  deriving DecidableEq, Repr

namespace LineParts

/-- The code of a line, with nothing lost. -/
def code (p : LineParts) : Bytes :=
  p.segments.flatMap Segment.text

/-- The line: each comment with a slash after it, and then the code. -/
def text (p : LineParts) : Bytes :=
  p.comments.flatMap (· ++ ['/'.toUInt8]) ++ p.code

/-- Parts that a line is cut into: slashes only close comments, and the segments of the
code are as long as they can be. -/
structure IsProper (p : LineParts) : Prop where
  comments : ∀ c ∈ p.comments, '/'.toUInt8 ∉ c
  code : '/'.toUInt8 ∉ p.code
  segments : Segment.Splits p.code p.segments

variable {p q : LineParts}

/-- Cutting at the slashes undoes writing them. -/
theorem splitOn_comments
    {comments : List Bytes} {code : Bytes}
    (hcomments : ∀ c ∈ comments, '/'.toUInt8 ∉ c)
    (hcode : '/'.toUInt8 ∉ code) :
    Bytes.splitOn '/'.toUInt8 (comments.flatMap (· ++ ['/'.toUInt8]) ++ code) =
      comments ++ [code] := by
  induction comments with
  | nil => exact splitOn_of_notMem hcode
  | cons c comments ih =>
      obtain ⟨hc, hcomments⟩ := List.forall_mem_cons.mp hcomments
      rw [List.flatMap_cons, List.append_assoc, List.append_assoc, List.singleton_append,
        splitOn_append_cons _ hc, ih hcomments, List.cons_append]

/-- Every line is comments with their slashes, and code. -/
theorem exists_comments
    (line : Bytes) :
    ∃ (comments : List Bytes) (code : Bytes),
      line = comments.flatMap (· ++ ['/'.toUInt8]) ++ code ∧
      (∀ c ∈ comments, '/'.toUInt8 ∉ c) ∧ '/'.toUInt8 ∉ code := by
  induction line with
  | nil => exact ⟨[], [], rfl, List.forall_mem_nil _, List.not_mem_nil⟩
  | cons b line ih =>
      obtain ⟨comments, code, hline, hcomments, hcode⟩ := ih
      by_cases hb : b = '/'.toUInt8
      · refine ⟨[] :: comments, code, ?_, ?_, hcode⟩
        · rw [hline, hb]
          rfl
        · exact List.forall_mem_cons.mpr ⟨List.not_mem_nil, hcomments⟩
      · have hkeep : ∀ {c : Bytes}, '/'.toUInt8 ∉ c → '/'.toUInt8 ∉ b :: c := by
          intro c hc
          rw [List.mem_cons, not_or]
          exact ⟨Ne.symm hb, hc⟩
        -- the byte belongs to the first comment, or to the code if there is none
        cases comments with
        | nil => exact ⟨[], b :: code, congrArg (b :: ·) hline, hcomments, hkeep hcode⟩
        | cons c comments =>
            obtain ⟨hc, hcomments⟩ := List.forall_mem_cons.mp hcomments
            exact ⟨(b :: c) :: comments, code, congrArg (b :: ·) hline,
              List.forall_mem_cons.mpr ⟨hkeep hc, hcomments⟩, hcode⟩

theorem splitOn_text
    (hp : p.IsProper) :
    Bytes.splitOn '/'.toUInt8 p.text = p.comments ++ [p.code] :=
  splitOn_comments hp.comments hp.code

/-- The tokens of a line are its comments and the tokens of its segments. -/
theorem ofLine_text
    (hp : p.IsProper) :
    Token.ofLine p.text =
      (Segment.read p.segments).map (p.comments.map Token.comment ++ ·) := by
  simp only [Token.ofLine, splitOn_text hp, List.getLastD_concat, List.dropLast_concat,
    Segment.ofCode_of_splits hp.segments]

theorem exists_isProper
    (line : Bytes) :
    ∃ p : LineParts, p.IsProper ∧ p.text = line := by
  obtain ⟨comments, code, rfl, hcomments, hcode⟩ := exists_comments line
  obtain ⟨segments, hsegments⟩ := Segment.exists_splits code
  have htext : (LineParts.mk comments segments).code = code := hsegments.flatMap_text
  refine ⟨⟨comments, segments⟩, ⟨hcomments, by rwa [htext], by rwa [htext]⟩, ?_⟩
  rw [text, htext]

theorem eq_of_text_eq
    (hp : p.IsProper)
    (hq : q.IsProper)
    (h : p.text = q.text) :
    p = q := by
  have hpieces : p.comments ++ [p.code] = q.comments ++ [q.code] := by
    rw [← splitOn_text hp, h, splitOn_text hq]
  obtain ⟨hcomments, hcode⟩ := List.append_inj' hpieces rfl
  have hsegments : p.segments = q.segments := by
    refine hp.segments.unique ?_
    rw [(List.cons.inj hcode).1]
    exact hq.segments
  cases p
  cases q
  cases hcomments
  cases hsegments
  rfl

/-- There is a comment for each slash. -/
theorem length_comments
    (hp : p.IsProper) :
    p.comments.length = p.text.count '/'.toUInt8 := by
  have hcount : ∀ {comments : List Bytes}, (∀ c ∈ comments, '/'.toUInt8 ∉ c) →
      (comments.flatMap (· ++ ['/'.toUInt8])).count '/'.toUInt8 = comments.length := by
    intro comments hcomments
    induction comments with
    | nil => rfl
    | cons c comments ih =>
        obtain ⟨hc, hcomments⟩ := List.forall_mem_cons.mp hcomments
        rw [List.flatMap_cons, List.count_append, List.count_append, List.count_eq_zero.mpr hc,
          List.count_singleton_self, ih hcomments, List.length_cons]
        omega
  rw [text, List.count_append, hcount hp.comments, List.count_eq_zero.mpr hp.code, Nat.add_zero]

end LineParts

/-- **Every line has exactly one reading.**  A line is comments without slashes, each with a
slash after it, and code without slashes, which is cut into runs of blanks, brackets, runs
of digits and words, each as long as it can be; this can be done in one way.  There is a
comment for each slash.  The line is refused exactly if the value of some run of digits is
above the range of 32-bit integers, and the leftmost such run is reported; otherwise its
tokens are the comments and, in order, the brackets, numbers and words. -/
theorem line_has_one_reading
    (line : Bytes) :
    ∃ p : LineParts, p.IsProper ∧ p.text = line ∧
      (∀ q : LineParts, q.IsProper → q.text = line → q = p) ∧
      p.comments.length = line.count '/'.toUInt8 ∧
      ((∃ e, Token.ofLine line = .error e) ↔
        ∃ ds, .digits ds ∈ p.segments ∧ 2147483647 < Numeral.value 10 ds) ∧
      (∀ e, Token.ofLine line = .error e ↔
        ∃ before ds after, p.segments = before ++ .digits ds :: after ∧
          2147483647 < Numeral.value 10 ds ∧
          (∀ ds', .digits ds' ∈ before → Numeral.value 10 ds' ≤ 2147483647) ∧
          e = ⟨ds⟩) ∧
      ∀ ts, Token.ofLine line = .ok ts ↔
        (∀ ds, .digits ds ∈ p.segments → Numeral.value 10 ds ≤ 2147483647) ∧
          ts = p.comments.map Token.comment ++ p.segments.filterMap Segment.token? := by
  obtain ⟨p, hp, rfl⟩ := LineParts.exists_isProper line
  have herror : ∀ e, Token.ofLine p.text = .error e ↔ Segment.read p.segments = .error e := by
    intro e
    rw [LineParts.ofLine_text hp]
    cases Segment.read p.segments <;> simp [Except.map]
  refine ⟨p, hp, rfl, fun q hq => LineParts.eq_of_text_eq hq hp, LineParts.length_comments hp,
    ?_, ?_, ?_⟩
  · simp only [herror]
    exact Segment.exists_read_error_iff
  · intro e
    rw [herror]
    exact Segment.read_eq_error_iff
  · intro ts
    rw [LineParts.ofLine_text hp, map_eq_ok_iff]
    constructor
    · rintro ⟨code, hcode, rfl⟩
      obtain ⟨hfits, rfl⟩ := Segment.read_eq_ok_iff.mp hcode
      exact ⟨hfits, rfl⟩
    · rintro ⟨hfits, rfl⟩
      exact ⟨_, Segment.read_eq_ok_iff.mpr ⟨hfits, rfl⟩, rfl⟩

end Lines

end Contrary
