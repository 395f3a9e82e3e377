import Contrary.Program.OfTokens
import Contrary.Proofs.Names
import Contrary.Proofs.WellFormed

/-!
# Programs of a source text

What holds of a program beyond its token lines, because they come from a text.

**Numbers.**  A number in a source is a run of digits, without a sign.  So it is not
negative, and neither is the size of an array, which is such a number.

**Lines.**  The text of an operation is a line of the source, so it has no line feed.

**Results.**
* `Program.readFrom_ofSource`: both, together with what holds of its token lines.
-/

namespace Contrary

/-- The bytes of a digit do not start with a minus sign. -/
theorem Glyph.bytes_of_isDigit
    {b : UInt8} {rest : Bytes}
    (h : (Glyph.first b rest).isDigit = true) :
    ∃ more, (Glyph.first b rest).bytes = b :: more ∧ b ≠ '-'.toUInt8 := by
  unfold Glyph.first at h ⊢
  by_cases hb : b < 0x80
  · rw [if_pos hb] at h ⊢
    refine ⟨[], rfl, ?_⟩
    rintro rfl
    revert h
    decide
  · rw [if_neg hb]
    have hne : b ≠ '-'.toUInt8 := by
      rintro rfl
      exact hb (by decide)
    cases Glyph.lead? b with
    | none => exact ⟨[], rfl, hne⟩
    | some l =>
        dsimp only
        split_ifs
        · exact ⟨_, rfl, hne⟩
        · exact ⟨[], rfl, hne⟩

theorem mem_glyphs
    (s : Bytes) :
    ∀ g ∈ glyphs s, ∃ b rest, g = Glyph.first b rest := by
  fun_induction glyphs s with
  | case1 => simp
  | case2 b rest g ih =>
      intro g' hg'
      rcases List.mem_cons.mp hg' with rfl | hg'
      · exact ⟨b, rest, rfl⟩
      · exact ih g' hg'

/-- A run of digits starts with a digit. -/
theorem Lexeme.mem_scan
    (gs : List Glyph) :
    ∀ run, .digits run ∈ Lexeme.scan gs →
      ∃ g more, run = g :: more ∧ g ∈ gs ∧ g.isDigit = true := by
  fun_induction Lexeme.scan gs with
  | case1 => simp
  | case2 g rest hblank ih =>
      intro run hrun
      obtain ⟨g', more, hrun', hg', hdigit⟩ := ih run hrun
      exact ⟨g', more, hrun', List.mem_cons_of_mem _ hg', hdigit⟩
  | case3 g rest hblank side hside ih =>
      intro run hrun
      rcases List.mem_cons.mp hrun with heq | hrun
      · cases heq
      · obtain ⟨g', more, hrun', hg', hdigit⟩ := ih run hrun
        exact ⟨g', more, hrun', List.mem_cons_of_mem _ hg', hdigit⟩
  | case4 g rest hblank hside hdigit ih =>
      intro run hrun
      rcases List.mem_cons.mp hrun with heq | hrun
      · cases heq
        exact ⟨g, _, rfl, by simp, hdigit⟩
      · obtain ⟨g', more, hrun', hg', hdigit'⟩ := ih run hrun
        have hsuffix := (List.dropWhile_suffix Glyph.isDigit (l := rest)).subset hg'
        exact ⟨g', more, hrun', List.mem_cons_of_mem _ hsuffix, hdigit'⟩
  | case5 g rest hblank hside hdigit ih =>
      intro run hrun
      rcases List.mem_cons.mp hrun with heq | hrun
      · cases heq
      · obtain ⟨g', more, hrun', hg', hdigit'⟩ := ih run hrun
        have hsuffix := (List.dropWhile_suffix Glyph.inWord (l := rest)).subset hg'
        exact ⟨g', more, hrun', List.mem_cons_of_mem _ hsuffix, hdigit'⟩

/-- A numeral without a minus sign is not negative. -/
theorem Numeral.readPlain32_nonneg
    {b : UInt8} {s : Bytes} {n : Int32}
    (hb : b ≠ '-'.toUInt8)
    (h : Numeral.readPlain32 (b :: s) = .ok n) :
    0 ≤ n.toInt := by
  unfold Numeral.readPlain32 Numeral.read at h
  obtain ⟨k, hk, rfl⟩ := map_eq_ok_iff.mp h
  have hsign : (Numeral.splitSign (b :: s)).1 = false := by
    simp only [Numeral.splitSign]
    split_ifs with hminus
    · exact absurd (by simpa using hminus) hb
    · rfl
    · rfl
  simp only [hsign] at hk
  split at hk
  · cases hk
  · rename_i magnitude _
    simp only [Bool.false_eq_true, if_false] at hk
    split_ifs at hk with hlt
    cases hk
    rw [Int32.toInt_ofInt_of_le (by omega) (by omega)]
    omega

theorem Lexeme.token_nonneg
    {code : Bytes} {lx : Lexeme} {n : Int32}
    (hlx : lx ∈ Lexeme.scan (glyphs code))
    (h : lx.token = .ok (.literal n)) :
    0 ≤ n.toInt := by
  cases lx with
  | bracket side => cases h
  | word run => cases h
  | digits run =>
      obtain ⟨g, more, rfl, hg, hdigit⟩ := Lexeme.mem_scan _ run hlx
      obtain ⟨b, rest, rfl⟩ := mem_glyphs code g hg
      obtain ⟨tail, hbytes, hb⟩ := Glyph.bytes_of_isDigit hdigit
      have htext : Glyph.text (Glyph.first b rest :: more) = b :: (tail ++ Glyph.text more) := by
        simp [Glyph.text, hbytes]
      simp only [Lexeme.token, htext] at h
      split at h
      · rename_i value hvalue
        cases h
        exact Numeral.readPlain32_nonneg hb hvalue
      · cases h

theorem mem_mapM
    {ε α β : Type} {f : α → Except ε β} (xs : List α) :
    ∀ {ys : List β}, xs.mapM f = .ok ys → ∀ y ∈ ys, ∃ x ∈ xs, f x = .ok y := by
  induction xs with
  | nil =>
      intro ys h y hy
      cases h
      cases hy
  | cons x xs ih =>
      intro ys h y hy
      rw [List.mapM_cons] at h
      obtain ⟨z, hz, h⟩ := bind_eq_ok_iff.mp h
      obtain ⟨zs, hzs, h⟩ := bind_eq_ok_iff.mp h
      cases h
      rcases List.mem_cons.mp hy with rfl | hy
      · exact ⟨x, by simp, hz⟩
      · obtain ⟨x', hx', hfx'⟩ := ih hzs y hy
        exact ⟨x', List.mem_cons_of_mem _ hx', hfx'⟩

/-- The numbers in a source line are not negative. -/
theorem Token.ofLine_nonneg
    {line : Bytes} {ts : List Token} {n : Int32}
    (h : Token.ofLine line = .ok ts)
    (hn : .literal n ∈ ts) :
    0 ≤ n.toInt := by
  obtain ⟨code, hcode, rfl⟩ := map_eq_ok_iff.mp h
  rcases List.mem_append.mp hn with hn | hn
  · obtain ⟨piece, -, heq⟩ := List.mem_map.mp hn
    cases heq
  · obtain ⟨lx, hlx, htoken⟩ := mem_mapM _ hcode _ hn
    exact Lexeme.token_nonneg hlx htoken

/-- A token line comes from one of the lines that were read. -/
theorem TokenLine.mem_ofLines
    {total : Nat} (raws : List Bytes) :
    ∀ {below : Nat} {lines : List TokenLine},
      TokenLine.ofLines total below raws = .ok lines →
      ∀ tl ∈ lines, tl.raw ∈ raws ∧ Token.ofLine tl.raw.trim = .ok tl.tokens := by
  induction raws with
  | nil =>
      intro below lines h tl htl
      cases h
      cases htl
  | cons raw above ih =>
      intro below lines h tl htl
      unfold TokenLine.ofLines at h
      split at h
      · cases h
      · rename_i tokens htokens
        split at h
        · cases h
        · rename_i rest hrest
          cases h
          rcases List.mem_cons.mp htl with rfl | htl
          · exact ⟨by simp, htokens⟩
          · obtain ⟨hraw, htokens⟩ := ih hrest tl htl
            exact ⟨List.mem_cons_of_mem _ hraw, htokens⟩

theorem notMem_splitOn
    (sep : UInt8) (s : Bytes) :
    ∀ piece ∈ Bytes.splitOn sep s, sep ∉ piece := by
  induction s with
  | nil => simp [Bytes.splitOn]
  | cons b s ih =>
      rw [Bytes.splitOn]
      split_ifs with hb
      · rw [List.forall_mem_cons]
        exact ⟨List.not_mem_nil, ih⟩
      · have hne : sep ≠ b := fun h => hb h.symm
        split
        · simpa using hne
        · rename_i first more hsplit
          rw [hsplit, List.forall_mem_cons] at ih
          rw [List.forall_mem_cons]
          refine ⟨?_, ih.2⟩
          rw [List.mem_cons, not_or]
          exact ⟨hne, ih.1⟩

theorem Listing.newline_notMem_lines
    {source l : Bytes}
    (hl : l ∈ Listing.lines source) :
    '\n'.toUInt8 ∉ l := by
  obtain ⟨piece, hpiece, rfl⟩ := List.mem_map.mp hl
  have hmem : piece ∈ Bytes.splitOn '\n'.toUInt8 source := by
    split_ifs at hpiece
    · exact (List.dropLast_sublist _).subset hpiece
    · exact hpiece
  intro hnewline
  refine notMem_splitOn _ _ piece hmem ?_
  unfold Listing.dropReturn at hnewline
  split_ifs at hnewline
  · exact (List.dropLast_sublist _).subset hnewline
  · exact hnewline

namespace Program

theorem ofSource_eq_ok
    {source : Bytes} {p : Program}
    (h : ofSource source = .ok p) :
    ∃ tls, TokenLine.ofSource source = .ok tls ∧ ofTokenLines tls = .ok p := by
  unfold ofSource at h
  split at h
  · cases h
  · rename_i tls htls
    split at h
    · cases h
    · rename_i p' hp'
      cases h
      exact ⟨tls, htls, hp'⟩

/-- The numbers in the code of a source are not negative. -/
theorem literal_nonneg
    {source : Bytes} {lines : List TokenLine}
    (hlines : TokenLine.ofSource source = .ok lines)
    {tl : TokenLine}
    (htl : tl ∈ lines)
    {n : Int32}
    (hn : .literal n ∈ code tl) :
    0 ≤ n.toInt := by
  obtain ⟨-, htokens⟩ := TokenLine.mem_ofLines _ hlines tl htl
  exact Token.ofLine_nonneg htokens (List.mem_of_mem_filter hn)

/-- What holds of a program that was read from a source: it was read from token
lines, none of its arrays has a negative size, and no text of an operation has a line
feed. -/
theorem readFrom_ofSource
    {source : Bytes} {p : Program}
    (h : ofSource source = .ok p) :
    ∃ lines, ReadFrom lines lines.length p ∧ (∀ d ∈ p.names.arrays.toList, 0 ≤ d.size) ∧
      ∀ l ∈ p.ops.toList, '\n'.toUInt8 ∉ l.text := by
  obtain ⟨lines, hlines, hp⟩ := ofSource_eq_ok h
  obtain ⟨hread, -⟩ := readFrom_ofTokenLines hp
  refine ⟨lines, hread, ?_, ?_⟩
  · intro d hd
    obtain ⟨a, ha⟩ := List.mem_iff_getElem?.mp hd
    obtain ⟨-, l, tl, n, -, -, htl, hsize, hcode⟩ := hread.sized a d ha
    have hmem : Token.literal n ∈ code tl := by
      rw [hcode]
      simp
    rw [hsize]
    exact literal_nonneg hlines (List.mem_of_getElem? htl) hmem
  · intro l hl
    obtain ⟨-, -, tl, htl, htext⟩ := hread.located l hl
    obtain ⟨hraw, -⟩ := TokenLine.mem_ofLines _ hlines tl (List.mem_of_getElem? htl)
    rw [htext]
    exact Listing.newline_notMem_lines (List.mem_reverse.mp hraw)

end Program
end Contrary
