import Contrary.Proofs.Lexing
import Contrary.Proofs.Phrasing
import Contrary.Proofs.Source

/-!
# Programs that are written out

A program can be written out as a source again, one line for each operation and the first
operation at the bottom.  Comments, blank lines and the layout of the first source are
lost, but the program is not: the new source gives the same operations and the same name
tables.

**Texts.**  `Op.written` spells every operation as a line, without regard to the templates
by which lines are read.  `Op.written_eq_line` shows that the line consists of the words of
the operation.

**Conditions.**  The line can be read back because the names of a program are identifiers
and its numbers, array sizes included, are not negative (`Names.IsWritable`).

**Results.**
* `Program.ofSource_written`: the program of a source is the program of its written form.
-/

namespace Contrary

section Written

/-- An index as a source spells it. -/
def Index.written (t : Names) : Index → Bytes
  | .literal n => Bytes.decimal n.toInt
  | .var v => t.varName v

/-- A place as a source spells it. -/
def Place.written (t : Names) : Place → Bytes
  | .var v => t.varName v
  | .element a i => (t.arrayDecl a).name ++ ascii "[" ++ i.written t ++ ascii "]"

/-- An operand as a source spells it. -/
def Operand.written (t : Names) : Operand → Bytes
  | .literal n => Bytes.decimal n.toInt
  | .stored p => p.written t

/-- The spelling of the comparison under which a block is skipped. -/
def Comparison.written : Comparison → Bytes
  | .equal => ascii "not equal to"
  | .notEqual => ascii "equal to"
  | .less => ascii "greater or equal than"
  | .greater => ascii "lower or equal than"
  | .lessOrEqual => ascii "greater than"
  | .greaterOrEqual => ascii "lower than"

/-- An operation as a source spells it. -/
def Op.written (t : Names) : Op → Bytes
  | .define v => ascii "undefine " ++ t.varName v
  | .defineArray a =>
      ascii "undefine single " ++ (t.arrayDecl a).name ++ ascii "[" ++
        Bytes.decimal (t.arrayDecl a).size ++ ascii "]"
  | .undefine v => ascii "define " ++ t.varName v
  | .undefineArray a => ascii "define single " ++ (t.arrayDecl a).name
  | .read p => ascii "print " ++ p.written t
  | .print v => ascii "read to " ++ v.written t
  | .printChar v => ascii "read as number to " ++ v.written t
  | .subtract v p => ascii "add " ++ v.written t ++ ascii " to " ++ p.written t
  | .add v p => ascii "sub " ++ v.written t ++ ascii " from " ++ p.written t
  | .mark f => ascii "unmark " ++ t.flagName f
  | .unmark f => ascii "mark " ++ t.flagName f
  | .pin f => ascii "forget " ++ t.flagName f
  | .goto => ascii "halt"
  | .closeBlock a b c =>
      ascii "if " ++ a.written t ++ ascii " " ++ c.written ++ ascii " " ++ b.written t
  | .openBlock => ascii "fi"

/-- A program as a source, with the first operation on the bottom line. -/
def Program.written (p : Program) : Bytes :=
  Listing.join (p.ops.toList.map fun l => l.op.written p.names).reverse

end Written

/-- Names that can be read back: they are identifiers, and the sizes of arrays are numbers
that a source can hold. -/
structure Names.IsWritable (t : Names) : Prop where
  spelled : ∀ k, ∀ x ∈ t.table k, Spelling.isIdentifier x = true
  sized : ∀ d ∈ t.arrays.toList, ∃ n : Int32, d.size = n.toInt ∧ 0 ≤ n.toInt

namespace Names.IsWritable

variable {t : Names}

theorem varName
    (ht : t.IsWritable)
    {v : Nat}
    (hv : v < (t.table .variable).length) :
    Spelling.isIdentifier (t.varName v) = true := by
  have htable := table_varName (t := t) (by simpa [table] using hv)
  exact ht.spelled .variable _ (List.mem_of_getElem? htable)

theorem arrayName
    (ht : t.IsWritable)
    {a : Nat}
    (ha : a < (t.table .array).length) :
    Spelling.isIdentifier (t.arrayDecl a).name = true := by
  have htable := table_arrayDecl (t := t) (by simpa [table] using ha)
  exact ht.spelled .array _ (List.mem_of_getElem? htable)

theorem flagName
    (ht : t.IsWritable)
    {f : Nat}
    (hf : f < (t.table .flag).length) :
    Spelling.isIdentifier (t.flagName f) = true := by
  have htable := table_flagName (t := t) (by simpa [table] using hf)
  exact ht.spelled .flag _ (List.mem_of_getElem? htable)

/-- The size of an array fits a number of 32 bits. -/
theorem arraySize
    (ht : t.IsWritable)
    {a : Nat}
    (ha : a < (t.table .array).length) :
    (Int32.ofInt (t.arrayDecl a).size).toInt = (t.arrayDecl a).size ∧
      0 ≤ (t.arrayDecl a).size := by
  have hlt : a < t.arrays.size := by simpa [table] using ha
  have hmem : t.arrayDecl a ∈ t.arrays.toList := by simp [Names.arrayDecl, hlt]
  obtain ⟨n, hn, hnonneg⟩ := ht.sized _ hmem
  rw [hn, Int32.ofInt_toInt]
  exact ⟨rfl, hnonneg⟩

end Names.IsWritable

section Lines

variable {t : Names}

theorem Index.written_eq_text
    (t : Names) (i : Index) :
    i.written t = (i.subscript t).text := by
  cases i <;> rfl

theorem Place.written_eq_text
    (t : Names) (p : Place) :
    p.written t = (p.word t).text := by
  cases p with
  | var v => rfl
  | element a i => rw [Place.written, Index.written_eq_text, Place.word, Word.text]

theorem Operand.written_eq_text
    (t : Names) (v : Operand) :
    v.written t = (v.word t).text := by
  cases v with
  | literal n => rfl
  | stored p => exact Place.written_eq_text t p

/-- The line of an operation consists of its words. -/
theorem Op.written_eq_line
    (ht : t.IsWritable)
    {op : Op}
    (hcov : t.Covers op.mentions) :
    op.written t = Word.line (op.words t) := by
  cases op with
  | defineArray a =>
      have ha : a < (t.table .array).length := Names.lt_of_covers_only hcov
      simp [Op.written, Op.words, Op.phrase, Command.template, Piece.fill, Word.line,
        List.intercalate, Word.text, Subscript.text, (ht.arraySize ha).1, ascii]
  | closeBlock a b c =>
      cases c <;>
        simp [Op.written, Op.words, Op.phrase, Command.template, Piece.fill, Word.line,
          List.intercalate, Operand.written_eq_text, Comparison.written, Comparison.negate,
          Comparison.words, Word.text, ascii]
  | _ =>
      simp [Op.written, Op.words, Op.phrase, Command.template, Piece.fill, Word.line,
        List.intercalate, Operand.written_eq_text, Place.written_eq_text, Word.text, ascii]

theorem Index.isWritable_subscript
    (ht : t.IsWritable)
    {i : Index}
    (hcov : t.Covers i.mentions)
    (hnum : ∀ n ∈ i.literals, 0 ≤ n.toInt) :
    (i.subscript t).IsWritable := by
  cases i with
  | literal n => exact hnum n (List.mem_singleton_self n)
  | var v => exact ht.varName (Names.lt_of_covers_only hcov)

theorem Place.isWritable_word
    (ht : t.IsWritable)
    {p : Place}
    (hcov : t.Covers p.mentions)
    (hnum : ∀ n ∈ p.literals, 0 ≤ n.toInt) :
    (p.word t).IsWritable := by
  cases p with
  | var v => exact ht.varName (Names.lt_of_covers_only hcov)
  | element a i =>
      obtain ⟨harray, hindex⟩ := Names.covers_append.mp hcov
      exact ⟨ht.arrayName (Names.lt_of_covers_only harray),
        Index.isWritable_subscript ht hindex hnum⟩

theorem Operand.isWritable_word
    (ht : t.IsWritable)
    {v : Operand}
    (hcov : t.Covers v.mentions)
    (hnum : ∀ n ∈ v.literals, 0 ≤ n.toInt) :
    (v.word t).IsWritable := by
  cases v with
  | literal n => exact hnum n (List.mem_singleton_self n)
  | stored p => exact Place.isWritable_word ht hcov hnum

/-- The words in the slots of an operation can be read back. -/
theorem Op.isWritable_phrase
    (ht : t.IsWritable)
    {op : Op}
    (hcov : t.Covers op.mentions)
    (hnum : ∀ n ∈ op.literals, 0 ≤ n.toInt) :
    ∀ w ∈ (op.phrase t).2, w.IsWritable := by
  cases op with
  | define v | undefine v =>
      exact List.forall_mem_singleton.mpr (ht.varName (Names.lt_of_covers_only hcov))
  | undefineArray a =>
      exact List.forall_mem_singleton.mpr (ht.arrayName (Names.lt_of_covers_only hcov))
  | defineArray a =>
      have ha : a < (t.table .array).length := Names.lt_of_covers_only hcov
      obtain ⟨hsize, hnonneg⟩ := ht.arraySize ha
      refine List.forall_mem_singleton.mpr ⟨ht.arrayName ha, ?_⟩
      exact Int.le_trans hnonneg (Int.le_of_eq hsize.symm)
  | mark f | unmark f | pin f =>
      exact List.forall_mem_singleton.mpr (ht.flagName (Names.lt_of_covers_only hcov))
  | read p => exact List.forall_mem_singleton.mpr (Place.isWritable_word ht hcov hnum)
  | print v | printChar v =>
      exact List.forall_mem_singleton.mpr (Operand.isWritable_word ht hcov hnum)
  | add v p | subtract v p =>
      obtain ⟨hv, hp⟩ := Names.covers_append.mp hcov
      obtain ⟨hnv, hnp⟩ := List.forall_mem_append.mp hnum
      rw [Op.phrase, List.forall_mem_cons, List.forall_mem_singleton]
      exact ⟨Operand.isWritable_word ht hv hnv, Place.isWritable_word ht hp hnp⟩
  | closeBlock a b c =>
      obtain ⟨ha, hb⟩ := Names.covers_append.mp hcov
      obtain ⟨hna, hnb⟩ := List.forall_mem_append.mp hnum
      rw [Op.phrase, List.forall_mem_cons, List.forall_mem_singleton]
      exact ⟨Operand.isWritable_word ht ha hna, Operand.isWritable_word ht hb hnb⟩
  | openBlock | goto =>
      rintro w hw
      cases hw

/-- The keyword of a piece. -/
def Piece.keyword? : Piece → Option String
  | .fixed keyword => some keyword
  | .slot _ => none

/-- The words of a filled template are its keywords and what fills its slots. -/
theorem Piece.mem_fill
    {ps : List Piece} {args : List Word} :
    ∀ w ∈ Piece.fill ps args,
      (∃ keyword ∈ ps.filterMap Piece.keyword?, w = .name (ascii keyword)) ∨ w ∈ args := by
  fun_induction Piece.fill ps args with
  | case1 => simp
  | case2 keyword ps args ih =>
      intro w hw
      rcases List.mem_cons.mp hw with rfl | hw
      · exact Or.inl ⟨keyword, List.mem_cons_self, rfl⟩
      · rcases ih w hw with ⟨keyword', hmem, hword⟩ | hmem
        · exact Or.inl ⟨keyword', List.mem_cons_of_mem _ hmem, hword⟩
        · exact Or.inr hmem
  | case3 s ps w args ih =>
      intro w' hw'
      rcases List.mem_cons.mp hw' with rfl | hw'
      · exact Or.inr List.mem_cons_self
      · rcases ih w' hw' with hkeyword | hmem
        · exact Or.inl hkeyword
        · exact Or.inr (List.mem_cons_of_mem _ hmem)
  | case4 => simp

/-- The keywords of commands are identifiers. -/
theorem Command.isIdentifier_keyword
    {c : Command} :
    ∀ keyword ∈ c.template.filterMap Piece.keyword?,
      Spelling.isIdentifier (ascii keyword) = true := by
  have hall : ∀ c ∈ Command.all, ∀ keyword ∈ c.template.filterMap Piece.keyword?,
      Spelling.isIdentifier (ascii keyword) = true := by
    decide +kernel
  exact hall c c.mem_all

/-- The words of an operation can be read back. -/
theorem Op.isWritable_words
    (ht : t.IsWritable)
    {op : Op}
    (hcov : t.Covers op.mentions)
    (hnum : ∀ n ∈ op.literals, 0 ≤ n.toInt) :
    ∀ w ∈ op.words t, w.IsWritable := by
  intro w hw
  rcases Piece.mem_fill w hw with ⟨keyword, hkeyword, rfl⟩ | hw
  · exact Command.isIdentifier_keyword keyword hkeyword
  · exact Op.isWritable_phrase ht hcov hnum w hw

theorem Op.words_ne_nil
    (t : Names) (op : Op) :
    op.words t ≠ [] := by
  cases op <;> simp [Op.words, Op.phrase, Command.template, Piece.fill]

end Lines

section Source

/-- Lines that can be read give token lines. -/
theorem TokenLine.ofLines_eq_ok
    {α : Type} {raw : α → Bytes} {tokens : α → List Token} {total : Nat} {xs : List α}
    (hxs : ∀ x ∈ xs, Token.ofLine (raw x).trim = .ok (tokens x)) :
    ∀ below, TokenLine.ofLines total below (xs.map raw) =
      .ok (xs.map fun x => ⟨tokens x, raw x⟩) := by
  induction xs with
  | nil =>
      intro below
      rfl
  | cons x xs ih =>
      intro below
      obtain ⟨hx, hxs⟩ := List.forall_mem_cons.mp hxs
      rw [List.map_cons, TokenLine.ofLines]
      simp only [hx, ih hxs (below + 1)]
      rfl

theorem Word.not_isComment
    {ws : List Word} :
    ∀ t ∈ ws.flatMap Word.tokens, t.isComment = false := by
  intro t ht
  obtain ⟨w, -, hw⟩ := List.mem_flatMap.mp ht
  cases w with
  | name x | literal n =>
      rw [List.mem_singleton.mp hw]
      rfl
  | element a i =>
      simp only [Word.tokens, List.mem_cons, List.not_mem_nil, or_false] at hw
      rcases hw with rfl | rfl | rfl | rfl
      · rfl
      · rfl
      · cases i <;> rfl
      · rfl

namespace Program

/-- The names of a program that was read can be read back. -/
theorem isWritable_names
    {source : Bytes} {p : Program}
    (h : ofSource source = .ok p) :
    p.names.IsWritable := by
  obtain ⟨lines, hread, hsizes, -⟩ := readFrom_ofSource h
  refine ⟨?_, ?_⟩
  · intro k x hx
    exact Spelling.isIdentifier_of_allowed (hread.allowed k x hx)
  · intro d hd
    obtain ⟨a, ha⟩ := List.mem_iff_getElem?.mp hd
    obtain ⟨-, -, -, n, -, -, -, hsize, -⟩ := hread.sized a d ha
    exact ⟨n, hsize, hsize ▸ hsizes d hd⟩

/-- The numbers of a program that was read are not negative. -/
theorem literals_nonneg
    {source : Bytes} {p : Program}
    (h : ofSource source = .ok p) :
    ∀ l ∈ p.ops.toList, ∀ n ∈ l.op.literals, 0 ≤ n.toInt := by
  obtain ⟨tls, htls, hp⟩ := ofSource_eq_ok h
  have hcodes := ofTokenLines_eq_ok_iff.mp ⟨p, hp, rfl⟩
  intro l hl n hn
  obtain ⟨c, hc, t₁, t₂, hop⟩ := Op.mem_ofCodes hcodes l.op (List.mem_map_of_mem hl)
  obtain ⟨tl, htl, rfl⟩ := List.mem_map.mp (List.mem_of_mem_filter hc)
  exact literal_nonneg htls htl (Op.literal_mem_of_ofCode hop hn)

/-- The lines of a program that was read consist of words that can be read back. -/
theorem written_of_ofSource
    {source : Bytes} {p : Program}
    (h : ofSource source = .ok p) :
    ∀ l ∈ p.ops.toList, l.op.written p.names = Word.line (l.op.words p.names) ∧
      ∀ w ∈ l.op.words p.names, w.IsWritable := by
  obtain ⟨lines, hread, -⟩ := readFrom_ofSource h
  intro l hl
  have hnames := isWritable_names h
  have hcov := hread.covered l hl
  exact ⟨Op.written_eq_line hnames hcov,
    Op.isWritable_words hnames hcov (literals_nonneg h l hl)⟩

/-- The lines of a program that is written out, from the bottom. -/
theorem lines_written
    {source : Bytes} {p : Program}
    (h : ofSource source = .ok p) :
    (Listing.lines p.written).reverse = p.ops.toList.map fun l => l.op.written p.names := by
  have hbytes : ∀ x ∈ p.ops.toList.map (fun l => l.op.written p.names),
      x ≠ [] ∧ ∀ b ∈ x, isWordByte b = true ∨ b = ' '.toUInt8 := by
    intro x hx
    obtain ⟨l, hl, rfl⟩ := List.mem_map.mp hx
    obtain ⟨hline, hwords⟩ := written_of_ofSource h l hl
    obtain ⟨hall, ⟨b, hb, -⟩, -⟩ := Word.line_bytes (Op.words_ne_nil p.names l.op) hwords
    rw [hline]
    refine ⟨?_, hall⟩
    intro hnil
    rw [hnil] at hb
    cases hb
  have hbreak : ∀ b, b = '\n'.toUInt8 ∨ b = '\r'.toUInt8 →
      ¬ (isWordByte b = true ∨ b = ' '.toUInt8) := by
    rintro b (rfl | rfl) <;> decide
  rw [Program.written, Listing.lines_join, List.reverse_reverse]
  · intro x hx
    have hx := (hbytes x (List.mem_reverse.mp hx)).2
    exact ⟨fun hb => hbreak _ (Or.inl rfl) (hx _ hb), fun hb => hbreak _ (Or.inr rfl) (hx _ hb)⟩
  · intro hlast
    exact (hbytes [] (List.mem_reverse.mp (List.mem_of_getLast? hlast))).1 rfl

/-- The token lines of a program that is written out. -/
def tokenLines (p : Program) : List TokenLine :=
  p.ops.toList.map fun l =>
    ⟨(l.op.words p.names).flatMap Word.tokens, l.op.written p.names⟩

theorem codes_tokenLines
    (p : Program) :
    codes (tokenLines p) =
      (p.ops.toList.map OpLine.op).map fun op => (op.words p.names).flatMap Word.tokens := by
  have hcode : (tokenLines p).map code =
      (p.ops.toList.map OpLine.op).map fun op => (op.words p.names).flatMap Word.tokens := by
    rw [tokenLines, List.map_map, List.map_map]
    refine List.map_congr_left fun l _ => ?_
    exact List.filter_eq_self.mpr fun t ht => by rw [Word.not_isComment t ht]; rfl
  unfold codes
  rw [hcode]
  refine List.filter_eq_self.mpr fun c hc => ?_
  obtain ⟨op, -, rfl⟩ := List.mem_map.mp hc
  obtain ⟨w, ws, hws⟩ := List.exists_cons_of_ne_nil (Op.words_ne_nil p.names op)
  rw [hws]
  cases w <;> rfl

theorem tokenLines_written
    {source : Bytes} {p : Program}
    (h : ofSource source = .ok p) :
    TokenLine.ofSource p.written = .ok (tokenLines p) := by
  unfold TokenLine.ofSource
  dsimp only
  rw [lines_written h]
  refine TokenLine.ofLines_eq_ok ?_ 0
  intro l hl
  obtain ⟨hline, hwords⟩ := written_of_ofSource h l hl
  rw [hline]
  exact Token.ofLine_line (Op.words_ne_nil p.names l.op) hwords

/-- **Writing a program out loses nothing.**  The program of a source, written out line by
line, is read again as a program with the same variables, arrays with their sizes, flags and
operations. -/
theorem ofSource_written
    {source : Bytes} {p : Program}
    (h : ofSource source = .ok p) :
    ∃ p', ofSource p.written = .ok p' ∧ p'.names = p.names ∧
      p'.ops.toList.map OpLine.op = p.ops.toList.map OpLine.op := by
  obtain ⟨tls, -, hp⟩ := ofSource_eq_ok h
  have hcodes : Op.ofCodes Names.empty (codes tls) = .ok p.content :=
    ofTokenLines_eq_ok_iff.mp ⟨p, hp, rfl⟩
  have hread : Op.ofCodes Names.empty (codes (tokenLines p)) = .ok p.content := by
    rw [codes_tokenLines]
    exact (Op.ofCodes_words hcodes).2
  obtain ⟨p', hp', hcontent⟩ := ofTokenLines_eq_ok_iff.mpr hread
  refine ⟨p', ?_, congrArg Prod.snd hcontent, congrArg Prod.fst hcontent⟩
  unfold ofSource
  simp only [tokenLines_written h, hp']

/-- Names that are keywords as well, an array that is defined again with another size,
comments and blank lines. -/
def keywordNames : Bytes :=
  ascii "sub  to from from [ to ]\r\n\n\tundefine single from[70]\n" ++
    ascii "undefine single from[2]\nundefine /undefine to\n"

/-- The program is written out with the size of the first definition and read again. -/
theorem keywordNames_written :
    ∃ p p', ofSource keywordNames = .ok p ∧
      p.written =
        ascii "sub to from from[to]\nundefine single from[2]\nundefine single from[2]\n" ++
          ascii "undefine to" ∧
      ofSource p.written = .ok p' ∧ p'.names = p.names ∧
      p'.ops.toList.map OpLine.op = p.ops.toList.map OpLine.op := by
  have htext : (ofSource keywordNames).map Program.written =
      .ok (ascii "sub to from from[to]\nundefine single from[2]\nundefine single from[2]\n" ++
        ascii "undefine to") := by
    decide +kernel
  obtain ⟨p, hp, hwritten⟩ := map_eq_ok_iff.mp htext
  obtain ⟨p', hp', hnames, hops⟩ := ofSource_written hp
  exact ⟨p, p', hp, hwritten, hp', hnames, hops⟩

end Program

end Source

end Contrary
