import Contrary.Proofs.Trimming
import Contrary.Proofs.Written

/-!
# How the lines of a program end

A line may hold any bytes in its comments, but comments stand on the left of the code.  So
the end of a line is in the grip of the grammar: the last byte of a line with a meaning,
when it is trimmed, is a letter, a digit, an underscore or a closing bracket.

**Glyphs.**  There are no overlong encodings, so a glyph below U+0080 is a single byte
(`Glyph.first_of_code_lt`).

**Lexemes.**  The last glyph of a piece of code is the end of its last lexeme, unless it is
blank (`Lexeme.scan_getLast`); the last glyph of a trimmed line never is.

**Words.**  The last token of a line with a meaning is a name that the program may use or a
keyword, a number, or a closing bracket (`Op.ofCode_getLast`).

**Results.**
* `Program.getLast_trim`: the last byte of the line of an operation.
-/

namespace Contrary

namespace Glyph

/-- What the parts of a lead byte and its first tail byte say about the code point. -/
theorem lead?_bits
    {b : UInt8} {l : Lead}
    (h : lead? b = some l) :
    (l.tail = 1 ∧ 2 ≤ l.bits) ∨ (2 ≤ l.tail ∧ (1 ≤ l.bits ∨ 0x90 ≤ l.low)) := by
  have hall : ∀ b, (lead? b).all (fun l =>
      (l.tail = 1 ∧ 2 ≤ l.bits) ∨ (2 ≤ l.tail ∧ (1 ≤ l.bits ∨ 0x90 ≤ l.low))) = true :=
    forall_byte (by decide +kernel)
  have hb := hall b
  rw [h, Option.all_some, decide_eq_true_eq] at hb
  exact hb

theorem le_foldl_bits
    (more : Bytes) :
    ∀ n : Nat, n ≤ more.foldl (fun n b => 64 * n + b.toNat % 64) n := by
  induction more with
  | nil =>
      intro n
      exact Nat.le_refl n
  | cons b more ih =>
      intro n
      rw [List.foldl_cons]
      exact Nat.le_trans (by omega) (ih (64 * n + b.toNat % 64))

/-- Encodings of more than one byte are not overlong. -/
theorem le_value
    {b : UInt8} {l : Lead} {more : Bytes}
    (hl : lead? b = some l)
    (h : l.accepts more = true) :
    0x80 ≤ l.value more := by
  have hlow : ∀ x : UInt8, 0x90 ≤ x → x ≤ 0xBF → 16 ≤ x.toNat % 64 :=
    forall_byte (by decide +kernel)
  obtain ⟨-, -, hlow80, hhigh⟩ := lead?_spec hl
  obtain ⟨hlength, -⟩ := Lead.accepts_spec hlow80 hhigh h
  simp only [Lead.accepts, Bool.and_eq_true, List.all_eq_true, decide_eq_true_eq] at h
  rcases more with _ | ⟨x, _ | ⟨y, more⟩⟩
  · rcases lead?_bits hl with ⟨htail, -⟩ | ⟨htail, -⟩ <;> simp at hlength <;> omega
  · rcases lead?_bits hl with ⟨-, hbits⟩ | ⟨htail, -⟩
    · simp only [Lead.value, List.foldl_cons, List.foldl_nil]
      omega
    · simp at hlength
      omega
  · obtain ⟨hx, hx'⟩ := h.1.2 x (by simp)
    have hfirst : 2 ≤ 64 * l.bits + x.toNat % 64 := by
      rcases lead?_bits hl with ⟨htail, -⟩ | ⟨-, hbits | hbits⟩
      · simp at hlength
        omega
      · omega
      · have := hlow x (UInt8.le_trans hbits hx) (UInt8.le_trans hx' hhigh)
        omega
    simp only [Lead.value, List.foldl_cons]
    exact Nat.le_trans (by omega) (le_foldl_bits more _)

/-- A glyph below U+0080 is one byte. -/
theorem first_of_code_lt
    {b : UInt8} {rest : Bytes}
    (h : (first b rest).code < 0x80) :
    first b rest = ofByte b := by
  by_cases hb : b < 0x80
  · exact first_of_lt hb rest
  · exfalso
    unfold first at h
    rw [if_neg hb] at h
    cases hl : lead? b with
    | none => simp [hl, code] at h
    | some l =>
        simp only [hl] at h
        split_ifs at h with haccepts
        · have hle := le_value hl haccepts
          simp only [code] at h
          omega
        · simp [code] at h

end Glyph

section Lexemes

/-- The glyph that a lexeme ends in. -/
def Lexeme.EndsIn (g : Glyph) : Lexeme → Prop
  | .bracket side => g.side? = some side
  | .digits run => run.getLast? = some g ∧ g.isDigit = true
  | .word run => run.getLast? = some g

theorem getLast?_cons_of_some
    {α : Type} {x y : α} {xs : List α}
    (h : xs.getLast? = some y) :
    (x :: xs).getLast? = some y := by
  rw [List.getLast?_cons, h]
  rfl

/-- A run at the front of a list reaches its end, or the last entry comes after it. -/
theorem getLast?_run
    {α : Type} (p : α → Bool) {x y : α} {rest : List α}
    (h : (x :: rest).getLast? = some y) :
    ((x :: rest.takeWhile p).getLast? = some y ∧ rest.dropWhile p = []) ∨
      (rest.dropWhile p).getLast? = some y := by
  rw [← List.takeWhile_append_dropWhile (p := p) (l := rest)] at h
  cases hdrop : rest.dropWhile p with
  | nil =>
      rw [hdrop, List.append_nil] at h
      exact Or.inl ⟨h, rfl⟩
  | cons z more =>
      rw [hdrop, ← List.cons_append,
        List.getLast?_append_of_ne_nil _ (List.cons_ne_nil z more)] at h
      exact Or.inr h

/-- The last glyph of a piece of code, if it is no blank, is the end of its last lexeme. -/
theorem Lexeme.scan_getLast
    {g : Glyph} (hblank : g.isBlank = false) (gs : List Glyph) :
    gs.getLast? = some g → ∃ lx, (Lexeme.scan gs).getLast? = some lx ∧ lx.EndsIn g := by
  fun_induction Lexeme.scan gs with
  | case1 =>
      intro h
      cases h
  | case2 g' rest hblank' ih =>
      intro h
      cases rest with
      | nil =>
          have hg : g' = g := Option.some.inj h
          rw [hg, hblank] at hblank'
          cases hblank'
      | cons g'' rest => exact ih h
  | case3 g' rest hblank' side hside ih =>
      intro h
      cases rest with
      | nil =>
          have hg : g' = g := Option.some.inj h
          rw [Lexeme.scan.eq_def]
          exact ⟨_, rfl, hg ▸ hside⟩
      | cons g'' rest =>
          obtain ⟨lx, hlx, hends⟩ := ih h
          exact ⟨lx, getLast?_cons_of_some hlx, hends⟩
  | case4 g' rest hblank' hside hdigit ih =>
      intro h
      rcases getLast?_run Glyph.isDigit h with ⟨hrun, hrest⟩ | hrest
      · rw [hrest, Lexeme.scan.eq_def]
        refine ⟨_, rfl, hrun, ?_⟩
        rcases List.mem_cons.mp (List.mem_of_getLast? hrun) with rfl | hmem
        · exact hdigit
        · exact List.all_eq_true.mp List.all_takeWhile g hmem
      · obtain ⟨lx, hlx, hends⟩ := ih hrest
        exact ⟨lx, getLast?_cons_of_some hlx, hends⟩
  | case5 g' rest hblank' hside hdigit ih =>
      intro h
      rcases getLast?_run Glyph.inWord h with ⟨hrun, hrest⟩ | hrest
      · rw [hrest, Lexeme.scan.eq_def]
        exact ⟨_, rfl, hrun⟩
      · obtain ⟨lx, hlx, hends⟩ := ih hrest
        exact ⟨lx, getLast?_cons_of_some hlx, hends⟩

theorem getLast?_mapM
    {ε α β : Type} {f : α → Except ε β} {x : α} (xs : List α) :
    ∀ {ys : List β}, xs.mapM f = .ok ys → xs.getLast? = some x →
      ∃ y, ys.getLast? = some y ∧ f x = .ok y := by
  induction xs with
  | nil =>
      intro ys h hx
      cases hx
  | cons x' xs ih =>
      intro ys h hx
      rw [List.mapM_cons] at h
      obtain ⟨y, hy, h⟩ := bind_eq_ok_iff.mp h
      obtain ⟨ys', hys, h⟩ := bind_eq_ok_iff.mp h
      cases h
      cases xs with
      | nil =>
          cases hx
          cases hys
          exact ⟨y, rfl, hy⟩
      | cons x'' xs =>
          obtain ⟨z, hz, hfx⟩ := ih hys hx
          exact ⟨z, getLast?_cons_of_some hz, hfx⟩

end Lexemes

/-- A byte that a line with a meaning can end in. -/
def isEndByte (b : UInt8) : Bool :=
  Spelling.isIdentifierByte b || b == ']'.toUInt8

/-- The byte of a bracket. -/
def Side.byte : Side → UInt8
  | .left => '['.toUInt8
  | .right => ']'.toUInt8

/-- A token that a line with a meaning can end in. -/
def Token.EndsCode : Token → Prop
  | .name x => Spelling.isIdentifier x = true
  | .literal _ => True
  | .bracket side => side = .right
  | _ => False

section Tokens

/-- A bracket glyph is the byte of the bracket. -/
theorem Glyph.byte_of_side?
    {b : UInt8} {rest : Bytes} {side : Side}
    (h : (Glyph.first b rest).side? = some side) :
    b = side.byte := by
  have hcode : (Glyph.first b rest).code = side.byte.toNat := by
    unfold Glyph.side? at h
    split_ifs at h with hleft hright
    · cases h
      exact hleft
    · cases h
      exact hright
  have hlt : side.byte.toNat < 0x80 := by
    cases side <;> decide
  rw [Glyph.first_of_code_lt (by omega)] at hcode
  exact UInt8.toNat_inj.mp hcode

theorem Glyph.bytes_of_isDigit_code
    {b : UInt8} {rest : Bytes}
    (h : (Glyph.first b rest).isDigit = true) :
    (Glyph.first b rest).bytes = [b] ∧ Bytes.isDigit b = true := by
  have hcode : (Glyph.first b rest).code < 0x80 := by
    simp only [Glyph.isDigit, Bool.and_eq_true, decide_eq_true_eq] at h
    omega
  rw [Glyph.first_of_code_lt hcode] at h ⊢
  exact ⟨rfl, (Glyph.isDigit_ofByte b).symm.trans h⟩

/-- A lexeme whose token can end a line ends in a byte that can. -/
theorem Lexeme.getLast_of_endsIn
    {lx : Lexeme} {t : Token} {s : Bytes} {g : Glyph}
    (hg : g ∈ glyphs s)
    (hlx : lx.EndsIn g)
    (htoken : lx.token = .ok t)
    (ht : t.EndsCode) :
    ∃ b, g.bytes.getLast? = some b ∧ isEndByte b = true := by
  obtain ⟨b, rest, rfl⟩ := mem_glyphs s g hg
  cases lx with
  | bracket side =>
      cases htoken
      cases ht
      rw [Glyph.byte_of_side? hlx]
      exact ⟨Side.right.byte, rfl, rfl⟩
  | digits run =>
      obtain ⟨hbytes, hdigit⟩ := Glyph.bytes_of_isDigit_code hlx.2
      refine ⟨b, by rw [hbytes]; rfl, ?_⟩
      simp [isEndByte, isIdentifierByte_of_isDigit hdigit]
  | word run =>
      cases htoken
      obtain ⟨-, -, hall⟩ := Spelling.isIdentifier_eq_true_iff.mp ht
      have hne : (Glyph.first b rest).bytes ≠ [] := by
        rcases Glyph.first_cases b rest with ⟨more, _, -, hencoded⟩ | hstray
        · rw [hencoded.bytes]
          exact List.cons_ne_nil _ _
        · rw [hstray]
          exact List.cons_ne_nil _ _
      refine ⟨_, List.getLast?_eq_some_getLast hne, ?_⟩
      have hmem : (Glyph.first b rest).bytes.getLast hne ∈ Glyph.text run :=
        List.mem_flatMap.mpr ⟨_, List.mem_of_getLast? hlx, List.getLast_mem hne⟩
      simp [isEndByte, hall _ hmem]

/-- The last glyph of a line with code is the last glyph of its code. -/
theorem getLast?_glyphs_codeText
    {line : Bytes} {g : Glyph}
    (hcode : (glyphs (Token.codeText line)).getLast? = some g) :
    (glyphs line).getLast? = some g := by
  rcases eq_append_codeText line with hline | ⟨comments, hline⟩
  · rw [hline]
    exact hcode
  · rw [hline, glyphs_append_slash, List.getLast?_append_of_ne_nil _ (List.cons_ne_nil _ _)]
    exact getLast?_cons_of_some hcode

/-- A trimmed line ends in a byte that a line with a meaning can end in, if its last token
can end such a line. -/
theorem Token.getLast_of_ofLine
    {raw : Bytes} {ts : List Token} {t : Token}
    (h : Token.ofLine raw.trim = .ok ts)
    (ht : (ts.filter fun t => !t.isComment).getLast? = some t)
    (hends : t.EndsCode) :
    ∃ b, raw.trim.getLast? = some b ∧ isEndByte b = true := by
  have hcode := Token.ofCode_of_ofLine h
  cases hglyph : (glyphs (Token.codeText raw.trim)).getLast? with
  | none =>
      rw [Token.ofCode, List.getLast?_eq_none_iff.mp hglyph, Lexeme.scan.eq_def] at hcode
      rw [← Except.ok.inj hcode] at ht
      cases ht
  | some g =>
      have hlast := getLast?_glyphs_codeText hglyph
      obtain ⟨lx, hlx, hlexeme⟩ :=
        Lexeme.scan_getLast (Bytes.isBlank_getLast_trim hlast) _ hglyph
      obtain ⟨t', ht', htoken⟩ := getLast?_mapM _ hcode hlx
      rw [ht] at ht'
      cases ht'
      obtain ⟨b, hb, hbyte⟩ :=
        Lexeme.getLast_of_endsIn (List.mem_of_getLast? hlast) hlexeme htoken hends
      refine ⟨b, ?_, hbyte⟩
      obtain ⟨init, hinit⟩ := List.getLast?_eq_some_iff.mp hlast
      rw [← text_glyphs raw.trim, hinit, Glyph.text, List.flatMap_append,
        List.flatMap_singleton]
      rw [List.getLast?_append, hb]
      rfl

end Tokens

section Words

/-- The last token of a word that can be written. -/
theorem Word.getLast_tokens
    {w : Word}
    (hw : w.IsWritable) :
    ∃ t, w.tokens.getLast? = some t ∧ t.EndsCode := by
  cases w with
  | name x => exact ⟨_, rfl, hw⟩
  | literal n => exact ⟨_, rfl, trivial⟩
  | element a i => exact ⟨_, rfl, rfl⟩

/-- The last token of a line with a meaning. -/
theorem Op.ofCode_getLast
    {t t' : Names} {code : List Token} {op : Op}
    (h : Op.ofCode t code = .ok (op, t'))
    (hwords : ∀ w ∈ op.words t', w.IsWritable) :
    ∃ last, code.getLast? = some last ∧ last.EndsCode := by
  obtain ⟨c, ws, args, rfl, hargs, hmeaning⟩ := Op.ofCode_eq_ok h
  have hfill := Piece.fill_of_match? hargs
  rcases Op.phrase_of_meaning hmeaning with hphrase | ⟨x, a, n, rfl, rfl, -⟩
  · have heq : op.words t' = ws := by
      rw [Op.words, hphrase, ← hfill]
    rw [heq] at hwords
    rcases List.eq_nil_or_concat' ws with hnil | ⟨init, w, rfl⟩
    · exact absurd (heq.trans hnil) (Op.words_ne_nil t' op)
    · obtain ⟨last, hlast, hends⟩ := Word.getLast_tokens (hwords w (by simp))
      refine ⟨last, ?_, hends⟩
      rw [List.flatMap_append, List.flatMap_singleton, List.getLast?_append, hlast]
      rfl
  · -- a known array may be defined with any size
    rw [hfill]
    exact ⟨.bracket .right, rfl, rfl⟩

end Words

namespace Program

/-- The line from which an operation was read, and the names at that time. -/
theorem mem_ops_of_readLines
    {total : Nat} (above : List TokenLine) :
    ∀ {below : Nat} {p p' : Program},
      readLines total below p above = .ok p' →
      p.names.Grows p'.names ∧
        ∀ l ∈ p'.ops.toList, l ∈ p.ops.toList ∨
          ∃ tl ∈ above, ∃ t t', l.text = tl.raw ∧ Op.ofCode t (code tl) = .ok (l.op, t') ∧
            t'.Grows p'.names := by
  induction above with
  | nil =>
      intro below p p' h
      cases h
      exact ⟨.refl _, fun l hl => Or.inl hl⟩
  | cons tl above ih =>
      intro below p p' h
      unfold readLines at h
      split_ifs at h with hcode
      · obtain ⟨hgrows, hops⟩ := ih h
        refine ⟨hgrows, ?_⟩
        intro l hl
        rcases hops l hl with hold | ⟨tl', htl', hread⟩
        · exact Or.inl hold
        · exact Or.inr ⟨tl', List.mem_cons_of_mem _ htl', hread⟩
      · split at h
        · cases h
        · rename_i op names hop
          obtain ⟨hgrows, hops⟩ := ih h
          refine ⟨(Op.ofCode_extension hop).grows.trans hgrows, ?_⟩
          intro l hl
          rcases hops l hl with hold | ⟨tl', htl', hread⟩
          · rw [Array.toList_push, List.mem_append, List.mem_singleton] at hold
            rcases hold with hold | rfl
            · exact Or.inl hold
            · exact Or.inr ⟨tl, List.mem_cons_self, p.names, names, rfl, hop, hgrows⟩
          · exact Or.inr ⟨tl', List.mem_cons_of_mem _ htl', hread⟩

/-- The line of an operation, when it is trimmed, ends in a letter, a digit, an underscore
or a closing bracket. -/
theorem getLast_trim
    {source : Bytes} {p : Program}
    (h : ofSource source = .ok p)
    {l : OpLine}
    (hl : l ∈ p.ops.toList) :
    ∃ b, l.text.trim.getLast? = some b ∧ isEndByte b = true := by
  obtain ⟨tls, htls, hp⟩ := ofSource_eq_ok h
  obtain ⟨-, hops⟩ := mem_ops_of_readLines tls hp
  rcases hops l hl with hnone | ⟨tl, htl, t, t', htext, hop, hgrows⟩
  · cases hnone
  · obtain ⟨-, htokens⟩ := TokenLine.mem_ofLines _ htls tl htl
    have hwords : ∀ w ∈ l.op.words t', w.IsWritable := by
      rw [← Op.words_of_grows hgrows (Op.ofCode_extension hop).covers]
      exact (written_of_ofSource h l hl).2
    obtain ⟨last, hlast, hends⟩ := Op.ofCode_getLast hop hwords
    rw [htext]
    exact Token.getLast_of_ofLine htokens hlast hends

end Program

end Contrary
