import Contrary.Proofs.Layout

/-!
# Tokens of indented lines

A source is read from trimmed lines, a session from lines as they are typed.  The blanks
around a line make no difference to its code: it is read in the same way, and fails for the
same number.

**Blanks.**  A text is what is left of it after trimming, with blanks on both sides
(`Bytes.exists_trim`).  The blanks at its end are found backwards, glyph by glyph
(`Glyph.bytes_last`).

**Code.**  Blanks on the right of a line are at the end of its code.  Those on the left are at
the start of its first comment, or of its code if it has none.  Neither adds a lexeme
(`Lexeme.scan_blanks_append`, `Lexeme.scan_append_blanks`).

**Results.**
* `Token.ofCode_trim`: the code of a line and that of the trimmed line are the same tokens.
* `TokenLine.isOk_ofSource_iff`: a source can be read if each of its lines can be read alone.
-/

namespace Contrary

section Blanks

open Glyph

/-- The bytes of a blank are a text of blanks, and may be followed by more. -/
theorem IsBlankText.encoded_append
    {g : Glyph} {b : UInt8} {more w : Bytes}
    (hg : g.Encoded b more)
    (hblank : g.isBlank = true)
    (hw : IsBlankText w) :
    IsBlankText (g.bytes ++ w) := by
  rw [hg.bytes, List.cons_append, isBlankText_cons_iff, hg.first, hg.bytes, List.length_cons,
    Nat.add_sub_cancel, List.drop_left]
  exact ⟨hblank, hw⟩

theorem IsBlankText.append
    {w w' : Bytes}
    (hw : IsBlankText w)
    (hw' : IsBlankText w') :
    IsBlankText (w ++ w') := by
  intro g hg
  rw [glyphs_append hw'.starts] at hg
  rcases List.mem_append.mp hg with hg | hg
  · exact hw g hg
  · exact hw' g hg

theorem Glyph.Encoded.glyphs_append
    {g : Glyph} {b : UInt8} {more : Bytes}
    (hg : g.Encoded b more) (t : Bytes) :
    glyphs (g.bytes ++ t) = g :: glyphs t := by
  rw [hg.bytes, List.cons_append, glyphs_cons, hg.first, hg.bytes, List.length_cons,
    Nat.add_sub_cancel, List.drop_left]

/-- The glyphs of a text after blanks. -/
theorem glyphs_blank_append
    {w : Bytes}
    (hw : IsBlankText w) (s : Bytes) :
    glyphs (w ++ s) = glyphs w ++ glyphs s := by
  refine IsBlankText.induction (P := fun w => glyphs (w ++ s) = glyphs w ++ glyphs s) ?_ ?_ hw
  · rw [glyphs_nil, List.nil_append, List.nil_append]
  · intro g b more w hg _ _ ih
    rw [List.append_assoc, hg.glyphs_append, hg.glyphs_append, ih, List.cons_append]

/-- No slash stands among blanks. -/
theorem IsBlankText.slash_notMem
    {w : Bytes}
    (hw : IsBlankText w) :
    '/'.toUInt8 ∉ w := by
  refine IsBlankText.induction (P := fun w => '/'.toUInt8 ∉ w) List.not_mem_nil ?_ hw
  intro g b more w hg hblank _ ih
  rw [hg.bytes, List.mem_append, List.mem_cons, not_or, not_or]
  refine ⟨⟨?_, ?_⟩, ih⟩
  · rintro rfl
    have hslash := hg.first []
    rw [Glyph.first_of_lt (by decide)] at hslash
    rw [← hslash] at hblank
    exact absurd hblank (by decide)
  · intro hmem
    exact absurd (hg.tails _ hmem) (by decide)

/-- The glyph at the end of a text is read from the last bytes of the text. -/
theorem Glyph.bytes_last
    (b : UInt8) (before : Bytes) :
    (b :: before).reverse =
        (before.drop ((last b before).bytes.length - 1)).reverse ++ (last b before).bytes ∧
      ∃ c tail, last b before = first c tail := by
  rw [last_eq_findSome?]
  cases hfound : [1, 2, 3].findSome? (longer? b before) with
  | none =>
      have hbytes : (first b []).bytes = [b] := by
        have hdrop := drop_first b []
        rwa [List.drop_nil, List.append_nil] at hdrop
      rw [Option.getD_none, hbytes, List.reverse_cons]
      exact ⟨rfl, b, [], rfl⟩
  | some g =>
      obtain ⟨k, -, hlonger⟩ := List.exists_of_findSome?_eq_some hfound
      unfold longer? at hlonger
      split at hlonger
      · cases hlonger
      · rename_i c more hc
        dsimp only at hlonger
        split_ifs at hlonger with hlength
        cases hlonger
        -- the text that was looked at is not longer than the glyph, which is its start
        have hdrop := drop_first c (more ++ [b])
        have htake := congrArg List.length hc
        rw [List.length_reverse, List.length_take, List.length_cons] at htake
        rw [List.drop_eq_nil_of_le (by simp; omega), List.append_nil] at hdrop
        refine ⟨?_, c, _, rfl⟩
        rw [Option.getD_some, hlength, Nat.add_sub_cancel, hdrop, ← List.cons_append, ← hc,
          ← List.append_assoc, ← List.reverse_append, List.take_append_drop, List.reverse_cons]

namespace Bytes

theorem exists_trimFront
    (s : Bytes) :
    ∃ w, IsBlankText w ∧ s = w ++ s.trimFront := by
  fun_induction trimFront s with
  | case1 => exact ⟨[], isBlankText_nil, rfl⟩
  | case2 b rest g hblank ih =>
      obtain ⟨w, hw, hrest⟩ := ih
      obtain ⟨more, -, -, hg⟩ := encoded_of_isBlank hblank
      refine ⟨g.bytes ++ w, hw.encoded_append hg hblank, ?_⟩
      rw [List.append_assoc, ← hrest]
      exact (drop_first b rest).symm
  | case3 b rest g hblank => exact ⟨[], isBlankText_nil, rfl⟩

theorem exists_trimReversed
    (s : Bytes) :
    ∃ w, IsBlankText w ∧ s.reverse = (trimReversed s).reverse ++ w := by
  fun_induction trimReversed s with
  | case1 => exact ⟨[], isBlankText_nil, rfl⟩
  | case2 b before g hblank ih =>
      obtain ⟨w, hw, hrest⟩ := ih
      obtain ⟨hsplit, c, tail, hlast⟩ := Glyph.bytes_last b before
      have hend : IsBlankText g.bytes := by
        change (last b before).isBlank = true at hblank
        change IsBlankText (last b before).bytes
        rw [hlast] at hblank ⊢
        obtain ⟨more, -, -, hg⟩ := encoded_of_isBlank hblank
        have hwhole := isBlankText_nil.encoded_append hg hblank
        rwa [List.append_nil] at hwhole
      exact ⟨w ++ g.bytes, hw.append hend, by rw [hsplit, hrest, List.append_assoc]⟩
  | case3 b before g hblank => exact ⟨[], isBlankText_nil, (List.append_nil _).symm⟩

/-- Trimming the end of a text takes blanks away. -/
theorem exists_trimEnd
    (s : Bytes) :
    ∃ w, IsBlankText w ∧ s = s.trimEnd ++ w := by
  obtain ⟨w, hw, hend⟩ := exists_trimReversed s.reverse
  rw [List.reverse_reverse] at hend
  exact ⟨w, hw, hend⟩

/-- A text is what is left of it after trimming, with blanks on both sides. -/
theorem exists_trim
    (s : Bytes) :
    ∃ w w', IsBlankText w ∧ IsBlankText w' ∧ s = w ++ (s.trim ++ w') := by
  obtain ⟨w, hw, hfront⟩ := exists_trimFront s
  obtain ⟨w', hw', hend⟩ := exists_trimEnd s.trimFront
  refine ⟨w, w', hw, hw', ?_⟩
  rw [trim, ← hend]
  exact hfront

end Bytes

end Blanks

section Code

namespace Lexeme

theorem scan_blanks_append
    {ws : List Glyph}
    (hws : ∀ g ∈ ws, g.isBlank = true) (gs : List Glyph) :
    scan (ws ++ gs) = scan gs := by
  induction ws with
  | nil => rfl
  | cons g ws ih =>
      obtain ⟨hg, hws⟩ := List.forall_mem_cons.mp hws
      rw [List.cons_append, scan_blank hg, ih hws]

/-- A run that stops before blanks stops where it did. -/
theorem span_blanks
    {p : Glyph → Bool}
    (hp : ∀ g, g.isBlank = true → p g = false)
    {ws : List Glyph}
    (hws : ∀ g ∈ ws, g.isBlank = true) (gs : List Glyph) :
    (gs ++ ws).takeWhile p = gs.takeWhile p ∧ (gs ++ ws).dropWhile p = gs.dropWhile p ++ ws := by
  have hrest : (gs.dropWhile p ++ ws).head?.any p = false := by
    cases hdrop : gs.dropWhile p with
    | nil =>
        cases ws with
        | nil => rfl
        | cons g ws => exact hp g (hws g List.mem_cons_self)
    | cons g rest =>
        have hstop := head?_dropWhile p gs
        rw [hdrop] at hstop
        exact hstop
  have hrun : ∀ g ∈ gs.takeWhile p, p g = true := List.all_eq_true.mp List.all_takeWhile
  have hspan := span_append hrun hrest
  rwa [← List.append_assoc, List.takeWhile_append_dropWhile] at hspan

theorem isDigit_of_isBlank
    {g : Glyph}
    (h : g.isBlank = true) :
    g.isDigit = false := by
  cases hdigit : g.isDigit with
  | false => rfl
  | true =>
      have hword := Glyph.inWord_of_isDigit hdigit
      rw [Glyph.inWord, h] at hword
      cases hword

theorem scan_append_blanks
    {ws : List Glyph}
    (hws : ∀ g ∈ ws, g.isBlank = true) (gs : List Glyph) :
    scan (gs ++ ws) = scan gs := by
  have hword : ∀ g : Glyph, g.isBlank = true → g.inWord = false := by
    intro g hg
    rw [Glyph.inWord, hg]
    rfl
  fun_induction scan gs with
  | case1 => rw [List.nil_append, scan_of_isBlank hws]
  | case2 g rest hblank ih => rw [List.cons_append, scan_blank hblank, ih]
  | case3 g rest hblank side hside ih => rw [List.cons_append, scan_bracket hside, ih]
  | case4 g rest hblank hside hdigit ih =>
      obtain ⟨htake, hdrop⟩ := span_blanks (fun _ => isDigit_of_isBlank) hws rest
      rw [List.cons_append, scan.eq_def]
      simp only [hblank, hside, hdigit, Bool.false_eq_true, if_false, if_true, htake, hdrop, ih]
  | case5 g rest hblank hside hdigit ih =>
      obtain ⟨htake, hdrop⟩ := span_blanks hword hws rest
      rw [List.cons_append, scan.eq_def]
      simp only [hblank, hside, hdigit, Bool.false_eq_true, if_false, htake, hdrop, ih]

end Lexeme

namespace Token

/-- Blanks around a piece of code make no difference. -/
theorem ofCode_blanks
    {w w' : Bytes}
    (hw : IsBlankText w)
    (hw' : IsBlankText w') (code : Bytes) :
    ofCode (w ++ (code ++ w')) = ofCode code := by
  unfold ofCode
  rw [glyphs_blank_append hw, glyphs_append hw'.starts, Lexeme.scan_blanks_append hw,
    Lexeme.scan_append_blanks hw']

/-- The code of a line with blanks around it. -/
theorem codeText_blanks
    {w w' : Bytes}
    (hw : IsBlankText w)
    (hw' : IsBlankText w') (line : Bytes) :
    (codeText (w ++ (line ++ w')) = w ++ (codeText line ++ w')) ∨
      codeText (w ++ (line ++ w')) = codeText line ++ w' := by
  have hend : '/'.toUInt8 ∉ codeText line := by
    refine notMem_splitOn _ line _ ?_
    rw [codeText, List.getLastD_eq_getLast?, List.getLast?_eq_some_getLast (splitOn_ne_nil _ _)]
    exact List.getLast_mem _
  rcases eq_append_codeText line with hline | ⟨comments, hline⟩
  · left
    rw [← hline] at hend ⊢
    refine codeText_of_notMem ?_
    simp only [List.mem_append, not_or]
    exact ⟨hw.slash_notMem, hend, hw'.slash_notMem⟩
  · right
    have hsplit : w ++ (line ++ w') = (w ++ comments) ++ '/'.toUInt8 :: (codeText line ++ w') := by
      conv_lhs => rw [hline]
      simp
    rw [hsplit]
    refine codeText_append_slash _ ?_
    rw [List.mem_append, not_or]
    exact ⟨hend, hw'.slash_notMem⟩

/-- The code of a line and that of the trimmed line are the same tokens, or fail for the
same number. -/
theorem ofCode_trim
    (line : Bytes) :
    ofCode (codeText line.trim) = ofCode (codeText line) := by
  obtain ⟨w, w', hw, hw', hline⟩ := Bytes.exists_trim line
  conv_rhs => rw [hline]
  rcases codeText_blanks hw hw' line.trim with hcode | hcode
  · rw [hcode, ofCode_blanks hw hw']
  · rw [hcode]
    exact (ofCode_blanks isBlankText_nil hw' _).symm

/-- A line can be read if and only if its code can. -/
theorem isOk_ofLine
    (line : Bytes) :
    (ofLine line).isOk = (ofCode (codeText line)).isOk := by
  change ((ofCode (codeText line)).map _).isOk = _
  cases ofCode (codeText line) <;> rfl

theorem isOk_ofLine_trim
    (line : Bytes) :
    (ofLine line.trim).isOk = (ofLine line).isOk := by
  rw [isOk_ofLine, isOk_ofLine, ofCode_trim]

end Token

/-- The lines of a listing can be read together if each of them can be read. -/
theorem TokenLine.isOk_ofLines_iff
    (total : Nat) (raws : List Bytes) :
    ∀ below : Nat, (TokenLine.ofLines total below raws).isOk = true ↔
      ∀ l ∈ raws, (Token.ofLine l).isOk = true := by
  induction raws with
  | nil =>
      intro below
      exact ⟨fun _ l hl => absurd hl List.not_mem_nil, fun _ => rfl⟩
  | cons raw above ih =>
      intro below
      rw [TokenLine.ofLines, List.forall_mem_cons, ← Token.isOk_ofLine_trim raw,
        ← ih (below + 1)]
      cases Token.ofLine raw.trim with
      | error e => simp [Except.isOk, Except.toBool]
      | ok tokens =>
          cases TokenLine.ofLines total (below + 1) above <;> simp [Except.isOk, Except.toBool]

theorem TokenLine.isOk_ofSource_iff
    {source : Bytes} :
    (TokenLine.ofSource source).isOk = true ↔
      ∀ l ∈ Listing.lines source, (Token.ofLine l).isOk = true := by
  refine (TokenLine.isOk_ofLines_iff _ _ 0).trans ?_
  simp only [List.mem_reverse]

end Code

end Contrary
