import Contrary.Proofs.Segments

/-!
# Tokens of trimmed lines

A build trims a line before it is read, a session reads the line as it was typed.  The two
readings differ in one place: the blanks at the front of the line are missing from the first
comment of the trimmed line.

**Leading blanks.**  `Bytes.indent` reads the blanks at the front of a text forwards, as the
code of a line is read.  What is left after them is what trimming leaves at the front
(`Bytes.indent_append_trimFront`).

**Comments.**  No slash stands among blanks, so blanks on the left of a line belong to its first
comment, and blanks on the right belong to its code (`Token.commentPieces_blanks`).

**Results.**
* `Token.commentPieces_trim`: the comments of a line, from those of the trimmed line.
* `trimming_drops_comment_blanks_only`: what trimming does to the tokens and the faults of a
  line.
-/

namespace Contrary

section Front

open Glyph

namespace Bytes

/-- The blanks at the front of a text. -/
def indent (s : Bytes) : Bytes :=
  Glyph.text ((glyphs s).takeWhile Glyph.isBlank)

/-- The blanks at the front of a text are what trimming its front takes away. -/
theorem indent_append_trimFront
    (s : Bytes) :
    s.indent ++ s.trimFront = s := by
  unfold indent
  fun_induction trimFront s with
  | case1 => rw [glyphs_nil, List.append_nil, List.takeWhile_nil, Glyph.text, List.flatMap_nil]
  | case2 b rest g hblank ih =>
      rw [glyphs_cons, List.takeWhile_cons_of_pos hblank, Glyph.text, List.flatMap_cons,
        ← Glyph.text, List.append_assoc, ih]
      exact drop_first b rest
  | case3 b rest g hblank =>
      rw [glyphs_cons, List.takeWhile_cons_of_neg hblank, Glyph.text, List.flatMap_nil,
        List.nil_append]

theorem isBlankText_indent
    (s : Bytes) :
    IsBlankText s.indent := by
  obtain ⟨w, hw, hs⟩ := exists_trimFront s
  have hindent : s.indent = w :=
    List.append_cancel_right ((indent_append_trimFront s).trans hs)
  rwa [hindent]

/-- A text is what is left of it after trimming, with its indentation before it and blanks
after it. -/
theorem exists_indent_trim
    (s : Bytes) :
    ∃ w, IsBlankText w ∧ s = s.indent ++ (s.trim ++ w) := by
  obtain ⟨w, hw, hend⟩ := exists_trimEnd s.trimFront
  refine ⟨w, hw, ?_⟩
  rw [trim, ← hend, indent_append_trimFront]

end Bytes

end Front

namespace Token

/-- The texts that the slashes of a line close. -/
def commentPieces (line : Bytes) : List Bytes :=
  (Bytes.splitOn '/'.toUInt8 line).dropLast

/-- The text of a comment. -/
def comment? : Token → Option Bytes
  | .comment text => some text
  | _ => none

/-- The texts of the comments among tokens. -/
def commentTexts (ts : List Token) : List Bytes :=
  ts.filterMap comment?

section Pieces

/-- Blanks on the left of a line are at the start of its first comment, and blanks on the
right are in no comment. -/
theorem commentPieces_blanks
    {w w' : Bytes}
    (hw : IsBlankText w)
    (hw' : IsBlankText w') (line : Bytes) :
    commentPieces (w ++ (line ++ w')) = (commentPieces line).modifyHead (w ++ ·) := by
  obtain ⟨comments, code, rfl, hcomments, hcode⟩ := LineParts.exists_comments line
  have hend : '/'.toUInt8 ∉ code ++ w' :=
    List.not_mem_append hcode hw'.slash_notMem
  unfold commentPieces
  rw [LineParts.splitOn_comments hcomments hcode, List.dropLast_concat]
  -- the blanks on the left go to the first comment, or to the code if there is none
  cases comments with
  | nil =>
      have hline : '/'.toUInt8 ∉ w ++ (code ++ w') :=
        List.not_mem_append hw.slash_notMem hend
      rw [List.flatMap_nil, List.nil_append, splitOn_of_notMem hline]
      rfl
  | cons c comments =>
      obtain ⟨hc, hcomments⟩ := List.forall_mem_cons.mp hcomments
      have hfirst : '/'.toUInt8 ∉ w ++ c :=
        List.not_mem_append hw.slash_notMem hc
      have hsplit : w ++ ((c :: comments).flatMap (· ++ ['/'.toUInt8]) ++ code ++ w') =
          ((w ++ c) :: comments).flatMap (· ++ ['/'.toUInt8]) ++ (code ++ w') := by
        simp only [List.flatMap_cons, List.append_assoc]
      rw [hsplit, LineParts.splitOn_comments (List.forall_mem_cons.mpr ⟨hfirst, hcomments⟩) hend,
        List.dropLast_concat, List.modifyHead_cons]

/-- The comments of a line are those of the trimmed line, with the indentation of the line in
front of the first. -/
theorem commentPieces_trim
    (line : Bytes) :
    commentPieces line = (commentPieces line.trim).modifyHead (line.indent ++ ·) := by
  obtain ⟨w, hw, hline⟩ := Bytes.exists_indent_trim line
  conv_lhs => rw [hline]
  exact commentPieces_blanks (Bytes.isBlankText_indent line) hw line.trim

/-- The comments of a line are the pieces that its slashes close. -/
theorem commentTexts_of_ofLine
    {line : Bytes} {ts : List Token}
    (h : ofLine line = .ok ts) :
    commentTexts ts = commentPieces line := by
  obtain ⟨code, hcode, rfl⟩ := map_eq_ok_iff.mp h
  have hnone : code.filterMap comment? = [] := by
    refine List.filterMap_eq_nil_iff.mpr ?_
    intro t ht
    have hkind := not_isComment_of_ofCode hcode t ht
    cases t with
    | comment text => cases hkind
    | _ => rfl
  have hpieces : ∀ pieces : List Bytes, (pieces.map comment).filterMap comment? = pieces := by
    intro pieces
    rw [List.filterMap_map]
    exact List.filterMap_some
  rw [commentTexts, List.filterMap_append, hpieces, hnone, List.append_nil, commentPieces]

/-- A line is refused for what is wrong with its code. -/
theorem ofLine_eq_error_iff
    {line : Bytes} {e : LiteralError} :
    ofLine line = .error e ↔ ofCode (codeText line) = .error e := by
  change (ofCode (codeText line)).map _ = _ ↔ _
  cases ofCode (codeText line) <;> simp [Except.map]

end Pieces

end Token

/-- **Trimming a line drops blanks of its first comment only.**  A line and the trimmed line
are refused together, for the same digits.  Otherwise they have the same number of comments
and the same tokens of code, and the comments are the same but for the first: there the
blanks at the front of the line are missing once the line is trimmed. -/
theorem trimming_drops_comment_blanks_only
    (line : Bytes) :
    (∀ e, Token.ofLine line = .error e ↔ Token.ofLine line.trim = .error e) ∧
    ∀ ts, Token.ofLine line = .ok ts →
      ∃ ts', Token.ofLine line.trim = .ok ts' ∧
        (Token.commentTexts ts').length = (Token.commentTexts ts).length ∧
        (ts'.filter fun t => !t.isComment) = (ts.filter fun t => !t.isComment) ∧
        Token.commentTexts ts = (Token.commentTexts ts').modifyHead (line.indent ++ ·) := by
  constructor
  · intro e
    rw [Token.ofLine_eq_error_iff, Token.ofLine_eq_error_iff, Token.ofCode_trim]
  · intro ts hts
    have hok : (Token.ofLine line.trim).isOk = true := by
      rw [Token.isOk_ofLine_trim, hts]
      rfl
    obtain ⟨ts', hts'⟩ := isOk_eq_true_iff.mp hok
    have hcomments : Token.commentTexts ts =
        (Token.commentTexts ts').modifyHead (line.indent ++ ·) := by
      rw [Token.commentTexts_of_ofLine hts, Token.commentTexts_of_ofLine hts']
      exact Token.commentPieces_trim line
    have hcode := Token.ofCode_of_ofLine hts'
    rw [Token.ofCode_trim, Token.ofCode_of_ofLine hts] at hcode
    refine ⟨ts', hts', ?_, (Except.ok.inj hcode).symm, hcomments⟩
    rw [hcomments, List.length_modifyHead]

/-- A space and a no-break space, a comment that is a stray tail byte, a comment of one space,
and code that ends in the start of an encoding and a next-line blank. -/
def strayEnds : Bytes :=
  [0x20, 0xC2, 0xA0] ++ [0xA0] ++ ascii "/ / x 7[" ++ [0xE2] ++ [0xC2, 0x85]

/-- Only whole blanks are taken off, and a number that is too large is refused with the blanks
and without them. -/
theorem strayEnds_trimmed :
    strayEnds.indent = [0x20, 0xC2, 0xA0] ∧
    strayEnds.trim = [0xA0] ++ ascii "/ / x 7[" ++ [0xE2] ∧
    (∃ ts ts', Token.ofLine strayEnds = .ok ts ∧ Token.ofLine strayEnds.trim = .ok ts' ∧
      Token.commentTexts ts = [[0x20, 0xC2, 0xA0, 0xA0], [0x20]] ∧
      Token.commentTexts ts = (Token.commentTexts ts').modifyHead ([0x20, 0xC2, 0xA0] ++ ·) ∧
      (ts'.filter fun t => !t.isComment) =
        [.name (ascii "x"), .literal 7, .bracket .left, .name [0xE2]]) ∧
    Token.ofLine (ascii "\tsee / x 2147483648 ").trim = .error ⟨ascii "2147483648"⟩ := by
  have hindent : strayEnds.indent = [0x20, 0xC2, 0xA0] := by decide +kernel
  have htokens : Token.ofLine strayEnds =
      .ok ([[0x20, 0xC2, 0xA0, 0xA0], [0x20]].map .comment ++
        [.name (ascii "x"), .literal 7, .bracket .left, .name [0xE2]]) := by
    decide +kernel
  have hlarge : Token.ofLine (ascii "\tsee / x 2147483648 ") = .error ⟨ascii "2147483648"⟩ := by
    decide +kernel
  obtain ⟨ts', hts', -, hcode, hcomments⟩ :=
    (trimming_drops_comment_blanks_only strayEnds).2 _ htokens
  rw [hindent] at hcomments
  refine ⟨hindent, by decide +kernel, ⟨_, ts', htokens, hts', by decide, hcomments, ?_⟩, ?_⟩
  · rw [hcode]
    decide
  · exact ((trimming_drops_comment_blanks_only _).1 _).mp hlarge

end Contrary
