import Contrary.Phrase.Word
import Contrary.Proofs.Names
import Contrary.Proofs.Text
import Contrary.Token.Lexeme

/-!
# Reading lines that were written

Words that are written with a space between them are read back as their tokens.

**Conditions.**  A name has to be an identifier and a number must not be negative, for a
number has no sign in a source (`Word.IsWritable`).

**Lexemes.**  A name or a number is read back only if what comes after it cannot
continue it.  A digit can continue a name, so one condition does for both: the text after
a word does not start with a glyph of a word.

**Results.**
* `Token.ofLine_line`: the tokens of a line of words are the tokens of the words.
-/

namespace Contrary

section Text

/-- The text of a subscript. -/
def Subscript.text : Subscript → Bytes
  | .name x => x
  | .literal n => Bytes.decimal n.toInt

/-- The text of a word. -/
def Word.text : Word → Bytes
  | .name x => x
  | .literal n => Bytes.decimal n.toInt
  | .element a i => a ++ ascii "[" ++ i.text ++ ascii "]"

/-- The line of a phrase: its words with a space between them. -/
def Word.line (ws : List Word) : Bytes :=
  List.intercalate (ascii " ") (ws.map Word.text)

/-- A subscript that a source can spell. -/
def Subscript.IsWritable : Subscript → Prop
  | .name x => Spelling.isIdentifier x = true
  | .literal n => 0 ≤ n.toInt

/-- A word that a source can spell. -/
def Word.IsWritable : Word → Prop
  | .name x => Spelling.isIdentifier x = true
  | .literal n => 0 ≤ n.toInt
  | .element a i => Spelling.isIdentifier a = true ∧ i.IsWritable

theorem Word.line_cons_cons
    (w w' : Word) (ws : List Word) :
    Word.line (w :: w' :: ws) = w.text ++ ' '.toUInt8 :: Word.line (w' :: ws) := by
  simp [Word.line, List.intercalate, ascii]

theorem Word.line_singleton
    (w : Word) :
    Word.line [w] = w.text := by
  simp [Word.line, List.intercalate]

/-- The numeral of a number without a sign is a run of digits. -/
theorem decimal_digits
    {n : Int32}
    (hn : 0 ≤ n.toInt) :
    Bytes.decimal n.toInt ≠ [] ∧ ∀ b ∈ Bytes.decimal n.toInt, Bytes.isDigit b = true := by
  obtain ⟨k, hk⟩ := Int.eq_ofNat_of_zero_le hn
  obtain ⟨b, s, hs, -⟩ := decimalNat_eq_cons k
  rw [hk]
  change Bytes.decimalNat k ≠ [] ∧ ∀ b ∈ Bytes.decimalNat k, _
  exact ⟨by simp [hs], isDigit_decimalNat k⟩

end Text

section Classes

/-- The bytes of words: those of identifiers, and brackets. -/
def isWordByte (b : UInt8) : Bool :=
  Spelling.isIdentifierByte b || b == '['.toUInt8 || b == ']'.toUInt8

theorem forall_byte
    {P : UInt8 → Prop}
    (h : ∀ n < 256, P (UInt8.ofNat n)) (b : UInt8) :
    P b := by
  have hb := h b.toNat b.toNat_lt
  rwa [UInt8.ofNat_toNat] at hb

/-- The bytes of a word are ASCII, no blanks and no slashes. -/
theorem isWordByte_spec :
    ∀ b, isWordByte b = true → b < 0x80 ∧ isBlank b.toNat = false ∧ b ≠ '/'.toUInt8 :=
  forall_byte (by decide +kernel)

theorem Glyph.inWord_ofByte :
    ∀ b, Spelling.isIdentifierByte b = true → (Glyph.ofByte b).inWord = true :=
  forall_byte (by decide +kernel)

theorem Glyph.isDigit_ofByte :
    ∀ b, (Glyph.ofByte b).isDigit = Bytes.isDigit b :=
  forall_byte (by decide +kernel)

theorem isIdentifierByte_of_isDigit
    {b : UInt8}
    (hb : Bytes.isDigit b = true) :
    Spelling.isIdentifierByte b = true := by
  simp [Spelling.isIdentifierByte, hb]

/-- A digit may stand in a word. -/
theorem Glyph.inWord_of_isDigit
    {g : Glyph}
    (hg : g.isDigit = true) :
    g.inWord = true := by
  have hblank : ∀ c < 0x3A, 0x30 ≤ c → Contrary.isBlank c = false := by decide
  simp only [Glyph.isDigit, Bool.and_eq_true, decide_eq_true_eq] at hg
  have hleft : g.code ≠ 0x5B := by omega
  have hright : g.code ≠ 0x5D := by omega
  unfold Glyph.inWord Glyph.isBlank Glyph.side?
  rw [hblank g.code (by omega) hg.1, if_neg hleft, if_neg hright]
  rfl

theorem Glyph.isBlank_of_side?
    {g : Glyph} {side : Side}
    (hg : g.side? = some side) :
    g.isBlank = false := by
  unfold Glyph.side? at hg
  unfold Glyph.isBlank
  split_ifs at hg with hleft hright
  · rw [hleft]
    rfl
  · rw [hright]
    rfl

theorem Glyph.text_ofByte
    (s : Bytes) :
    Glyph.text (s.map Glyph.ofByte) = s := by
  induction s with
  | nil => rfl
  | cons b s ih => exact congrArg (b :: ·) ih

end Classes

namespace Lexeme

variable {g : Glyph} {run rest : List Glyph}

theorem scan_blank
    (hg : g.isBlank = true) :
    scan (g :: rest) = scan rest := by
  rw [scan.eq_def]
  simp only [hg, if_true]

theorem scan_bracket
    {side : Side}
    (hg : g.side? = some side) :
    scan (g :: rest) = .bracket side :: scan rest := by
  rw [scan.eq_def]
  simp only [Glyph.isBlank_of_side? hg, Bool.false_eq_true, if_false, hg]

/-- A run of digits is a lexeme if no digit comes next. -/
theorem scan_digits
    (hne : run ≠ [])
    (hrun : ∀ g ∈ run, g.isDigit = true)
    (hrest : rest.head?.any Glyph.isDigit = false) :
    scan (run ++ rest) = .digits run :: scan rest := by
  cases run with
  | nil => exact absurd rfl hne
  | cons g run =>
      obtain ⟨hg, hrun⟩ := List.forall_mem_cons.mp hrun
      obtain ⟨htake, hdrop⟩ := span_append hrun hrest
      have hword := Glyph.inWord_of_isDigit hg
      simp only [Glyph.inWord, Bool.and_eq_true, Bool.not_eq_true', Option.isNone_iff_eq_none]
        at hword
      rw [List.cons_append, scan.eq_def]
      simp only [hword, hg, Bool.false_eq_true, if_false, if_true, htake, hdrop]

/-- A run of other glyphs is a lexeme if none that can continue it comes next. -/
theorem scan_word
    (hne : run ≠ [])
    (hfirst : run.head?.any Glyph.isDigit = false)
    (hrun : ∀ g ∈ run, g.inWord = true)
    (hrest : rest.head?.any Glyph.inWord = false) :
    scan (run ++ rest) = .word run :: scan rest := by
  cases run with
  | nil => exact absurd rfl hne
  | cons g run =>
      obtain ⟨hword, hrun⟩ := List.forall_mem_cons.mp hrun
      obtain ⟨htake, hdrop⟩ := span_append hrun hrest
      have hdigit : g.isDigit = false := hfirst
      simp only [Glyph.inWord, Bool.and_eq_true, Bool.not_eq_true', Option.isNone_iff_eq_none]
        at hword
      rw [List.cons_append, scan.eq_def]
      simp only [hword, hdigit, Bool.false_eq_true, if_false, htake, hdrop]

end Lexeme

namespace Token

/-- The tokens of a run of glyphs. -/
def ofGlyphs (gs : List Glyph) : Except LiteralError (List Token) :=
  (Lexeme.scan gs).mapM Lexeme.token

variable {rest : List Glyph}

theorem ofGlyphs_of_scan
    {gs : List Glyph} {lx : Lexeme} {t : Token}
    (hscan : Lexeme.scan gs = lx :: Lexeme.scan rest)
    (ht : lx.token = .ok t) :
    ofGlyphs gs = (ofGlyphs rest).map (t :: ·) := by
  unfold ofGlyphs
  rw [hscan, List.mapM_cons, ht]
  cases (Lexeme.scan rest).mapM Lexeme.token <;> rfl

theorem ofGlyphs_bracket
    {g : Glyph} {side : Side}
    (hg : g.side? = some side) :
    ofGlyphs (g :: rest) = (ofGlyphs rest).map (.bracket side :: ·) :=
  ofGlyphs_of_scan (Lexeme.scan_bracket hg) rfl

theorem ofGlyphs_name
    {x : Bytes}
    (hx : Spelling.isIdentifier x = true)
    (hrest : rest.head?.any Glyph.inWord = false) :
    ofGlyphs (x.map Glyph.ofByte ++ rest) = (ofGlyphs rest).map (.name x :: ·) := by
  obtain ⟨hne, hfirst, hbytes⟩ := Spelling.isIdentifier_eq_true_iff.mp hx
  have hscan : Lexeme.scan (x.map Glyph.ofByte ++ rest) =
      .word (x.map Glyph.ofByte) :: Lexeme.scan rest := by
    refine Lexeme.scan_word (by simpa using hne) ?_ ?_ hrest
    · rw [List.head?_map, Option.any_map]
      simpa only [Function.comp_def, Glyph.isDigit_ofByte] using hfirst
    · intro g hg
      obtain ⟨b, hb, rfl⟩ := List.mem_map.mp hg
      exact Glyph.inWord_ofByte b (hbytes b hb)
  refine ofGlyphs_of_scan hscan ?_
  rw [Lexeme.token, Glyph.text_ofByte]

theorem ofGlyphs_literal
    {n : Int32}
    (hn : 0 ≤ n.toInt)
    (hrest : rest.head?.any Glyph.inWord = false) :
    ofGlyphs ((Bytes.decimal n.toInt).map Glyph.ofByte ++ rest) =
      (ofGlyphs rest).map (.literal n :: ·) := by
  obtain ⟨hne, hdigits⟩ := decimal_digits hn
  have hscan : Lexeme.scan ((Bytes.decimal n.toInt).map Glyph.ofByte ++ rest) =
      .digits ((Bytes.decimal n.toInt).map Glyph.ofByte) :: Lexeme.scan rest := by
    refine Lexeme.scan_digits (by simpa using hne) ?_ ?_
    · intro g hg
      obtain ⟨b, hb, rfl⟩ := List.mem_map.mp hg
      rw [Glyph.isDigit_ofByte]
      exact hdigits b hb
    · cases rest with
      | nil => rfl
      | cons g rest =>
          cases hg : g.isDigit with
          | false => exact hg
          | true => exact absurd (Glyph.inWord_of_isDigit hg) (by simpa using hrest)
  refine ofGlyphs_of_scan hscan ?_
  rw [Lexeme.token, Glyph.text_ofByte, Numeral.readPlain32_decimal hn]

theorem ofGlyphs_subscript
    {i : Subscript}
    (hi : i.IsWritable)
    (hrest : rest.head?.any Glyph.inWord = false) :
    ofGlyphs (i.text.map Glyph.ofByte ++ rest) = (ofGlyphs rest).map (i.token :: ·) := by
  cases i with
  | name x => exact ofGlyphs_name hi hrest
  | literal n => exact ofGlyphs_literal hi hrest

/-- A word is read back as its tokens. -/
theorem ofGlyphs_word
    {w : Word}
    (hw : w.IsWritable)
    (hrest : rest.head?.any Glyph.inWord = false) :
    ofGlyphs (w.text.map Glyph.ofByte ++ rest) = (ofGlyphs rest).map (w.tokens ++ ·) := by
  cases w with
  | name x => exact ofGlyphs_name hw hrest
  | literal n => exact ofGlyphs_literal hw hrest
  | element a i =>
      obtain ⟨ha, hi⟩ := hw
      have htext : (Word.element a i).text.map Glyph.ofByte ++ rest =
          a.map Glyph.ofByte ++ Glyph.ofByte '['.toUInt8 ::
            (i.text.map Glyph.ofByte ++ Glyph.ofByte ']'.toUInt8 :: rest) := by
        simp [Word.text, ascii]
      have hleft : (Glyph.ofByte '['.toUInt8).inWord = false := by decide
      have hright : (Glyph.ofByte ']'.toUInt8).inWord = false := by decide
      have hopen : (Glyph.ofByte '['.toUInt8).side? = some .left := by decide
      have hclose : (Glyph.ofByte ']'.toUInt8).side? = some .right := by decide
      rw [htext, ofGlyphs_name ha, ofGlyphs_bracket hopen, ofGlyphs_subscript hi,
        ofGlyphs_bracket hclose]
      · cases ofGlyphs rest <;> rfl
      · exact hright
      · exact hleft

theorem ofGlyphs_nil :
    ofGlyphs [] = .ok [] := by
  rw [ofGlyphs, Lexeme.scan.eq_def]
  rfl

/-- The words of a line are read back one after another. -/
theorem ofGlyphs_line
    {ws : List Word}
    (hws : ∀ w ∈ ws, w.IsWritable) :
    ofGlyphs ((Word.line ws).map Glyph.ofByte) = .ok (ws.flatMap Word.tokens) := by
  induction ws with
  | nil => exact ofGlyphs_nil
  | cons w ws ih =>
      obtain ⟨hw, hws⟩ := List.forall_mem_cons.mp hws
      cases ws with
      | nil =>
          have hword : ofGlyphs (w.text.map Glyph.ofByte ++ []) = (ofGlyphs []).map (w.tokens ++ ·) :=
            ofGlyphs_word hw rfl
          rw [List.append_nil, ofGlyphs_nil] at hword
          rw [Word.line_singleton, hword]
          rfl
      | cons w' ws =>
          have hspace : (Glyph.ofByte ' '.toUInt8).isBlank = true := by decide
          have hword : (Glyph.ofByte ' '.toUInt8).inWord = false := by decide
          have hblank : ofGlyphs (Glyph.ofByte ' '.toUInt8 ::
              (Word.line (w' :: ws)).map Glyph.ofByte) = .ok ((w' :: ws).flatMap Word.tokens) := by
            rw [← ih hws]
            exact congrArg (List.mapM Lexeme.token) (Lexeme.scan_blank hspace)
          rw [Word.line_cons_cons, List.map_append, List.map_cons, ofGlyphs_word hw, hblank]
          · rfl
          · exact hword

end Token

section Lines

theorem name_bytes
    {x : Bytes}
    (hx : Spelling.isIdentifier x = true) :
    x ≠ [] ∧ ∀ b ∈ x, isWordByte b = true := by
  obtain ⟨hne, -, hbytes⟩ := Spelling.isIdentifier_eq_true_iff.mp hx
  exact ⟨hne, fun b hb => by simp [isWordByte, hbytes b hb]⟩

theorem literal_bytes
    {n : Int32}
    (hn : 0 ≤ n.toInt) :
    Bytes.decimal n.toInt ≠ [] ∧ ∀ b ∈ Bytes.decimal n.toInt, isWordByte b = true := by
  obtain ⟨hne, hdigits⟩ := decimal_digits hn
  exact ⟨hne, fun b hb => by simp [isWordByte, isIdentifierByte_of_isDigit (hdigits b hb)]⟩

theorem Word.text_bytes
    {w : Word}
    (hw : w.IsWritable) :
    w.text ≠ [] ∧ ∀ b ∈ w.text, isWordByte b = true := by
  cases w with
  | name x => exact name_bytes hw
  | literal n => exact literal_bytes hw
  | element a i =>
      obtain ⟨ha, hi⟩ := hw
      have hindex : ∀ b ∈ i.text, isWordByte b = true := by
        cases i with
        | name x => exact (name_bytes hi).2
        | literal n => exact (literal_bytes hi).2
      refine ⟨by simp [Word.text, ascii], ?_⟩
      intro b hb
      simp only [Word.text, List.mem_append] at hb
      rcases hb with ((hb | hb) | hb) | hb
      · exact (name_bytes ha).2 b hb
      · rw [List.mem_singleton.mp hb]
        rfl
      · exact hindex b hb
      · rw [List.mem_singleton.mp hb]
        rfl

/-- What stands in a line of words: at its ends bytes of words, between them also spaces. -/
theorem Word.line_bytes
    {ws : List Word}
    (hne : ws ≠ [])
    (hws : ∀ w ∈ ws, w.IsWritable) :
    (∀ b ∈ Word.line ws, isWordByte b = true ∨ b = ' '.toUInt8) ∧
      (∃ b ∈ (Word.line ws).head?, isWordByte b = true) ∧
      ∃ b ∈ (Word.line ws).getLast?, isWordByte b = true := by
  induction ws with
  | nil => exact absurd rfl hne
  | cons w ws ih =>
      obtain ⟨hw, hws⟩ := List.forall_mem_cons.mp hws
      obtain ⟨htext, hbytes⟩ := Word.text_bytes hw
      have hfirst := List.head?_eq_some_head htext
      cases ws with
      | nil =>
          have hlast := List.getLast?_eq_some_getLast htext
          rw [Word.line_singleton]
          exact ⟨fun b hb => Or.inl (hbytes b hb),
            ⟨_, hfirst, hbytes _ (List.head_mem htext)⟩,
            ⟨_, hlast, hbytes _ (List.getLast_mem htext)⟩⟩
      | cons w' ws =>
          obtain ⟨hmore, -, last, hlast, hlastByte⟩ := ih (by simp) hws
          rw [Word.line_cons_cons]
          refine ⟨?_, ⟨_, ?_, hbytes _ (List.head_mem htext)⟩, last, ?_, hlastByte⟩
          · intro b hb
            rcases List.mem_append.mp hb with hb | hb
            · exact Or.inl (hbytes b hb)
            · rcases List.mem_cons.mp hb with rfl | hb
              · exact Or.inr rfl
              · exact hmore b hb
          · rw [List.head?_append, hfirst]
            rfl
          · rw [List.getLast?_append, List.getLast?_cons, hlast]
            rfl

/-- The tokens of a line of words are the tokens of the words. -/
theorem Token.ofLine_line
    {ws : List Word}
    (hne : ws ≠ [])
    (hws : ∀ w ∈ ws, w.IsWritable) :
    Token.ofLine (Word.line ws).trim = .ok (ws.flatMap Word.tokens) := by
  obtain ⟨hbytes, ⟨first, hfirst, hfirstByte⟩, ⟨last, hlast, hlastByte⟩⟩ := Word.line_bytes hne hws
  have hascii : IsAscii (Word.line ws) := by
    intro b hb
    rcases hbytes b hb with hb | rfl
    · exact (isWordByte_spec b hb).1
    · decide
  have hslash : '/'.toUInt8 ∉ Word.line ws := by
    intro hmem
    exact absurd (hbytes _ hmem) (by decide)
  have htrim : (Word.line ws).trim = Word.line ws := by
    refine trim_of_isAscii hascii ?_ ?_
    · intro b hb
      rw [Option.mem_unique hb hfirst]
      exact (isWordByte_spec first hfirstByte).2.1
    · intro b hb
      rw [Option.mem_unique hb hlast]
      exact (isWordByte_spec last hlastByte).2.1
  have hcode : Token.ofCode (Word.line ws) = .ok (ws.flatMap Word.tokens) := by
    unfold Token.ofCode
    rw [glyphs_of_isAscii hascii]
    exact Token.ofGlyphs_line hws
  unfold Token.ofLine
  rw [htrim, splitOn_of_notMem hslash]
  change (Token.ofCode (Word.line ws)).map _ = _
  rw [hcode]
  rfl

end Lines

end Contrary
