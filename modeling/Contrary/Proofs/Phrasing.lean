import Contrary.Proofs.Reading
import Contrary.Proofs.Template

/-!
# The words of an operation

An operation can be put into words again: its command, with the names of its handles and
its numbers in the slots.  These are the words of the line that it was read from, except
that an array is always given the size of its first definition.

**Lines.**  `Op.phrase_of_meaning` shows that the words are those of the line, with the one
exception, and `Op.ofCode_words` that they have the same meaning.  This holds with the names
that the line leaves.  More names do not change the words (`Op.words_of_grows`), so all
lines can be spelled with the names of the whole program.

**Results.**
* `Op.ofCodes_words`: operations that were read and are put into words are read again, with
  the same names.
* `Op.literal_mem_of_ofCode`: the numbers of an operation stand in its line.
-/

namespace Contrary

section Words

/-- The subscript that denotes an index. -/
def Index.subscript (t : Names) : Index → Subscript
  | .literal n => .literal n
  | .var v => .name (t.varName v)

/-- The word that denotes a place. -/
def Place.word (t : Names) : Place → Word
  | .var v => .name (t.varName v)
  | .element a i => .element (t.arrayDecl a).name (i.subscript t)

/-- The word that denotes an operand. -/
def Operand.word (t : Names) : Operand → Word
  | .literal n => .literal n
  | .stored p => p.word t

/-- The command of an operation, with the words in its slots. -/
def Op.phrase (t : Names) : Op → Command × List Word
  | .define v => (.define, [.name (t.varName v)])
  | .defineArray a =>
      (.defineArray,
        [.element (t.arrayDecl a).name (.literal (Int32.ofInt (t.arrayDecl a).size))])
  | .undefine v => (.undefine, [.name (t.varName v)])
  | .undefineArray a => (.undefineArray, [.name (t.arrayDecl a).name])
  | .read p => (.read, [p.word t])
  | .print v => (.print, [v.word t])
  | .printChar v => (.printChar, [v.word t])
  | .add v p => (.add, [v.word t, p.word t])
  | .subtract v p => (.subtract, [v.word t, p.word t])
  | .openBlock => (.openBlock, [])
  | .closeBlock a b c => (.closeBlock c, [a.word t, b.word t])
  | .mark f => (.mark, [.name (t.flagName f)])
  | .unmark f => (.unmark, [.name (t.flagName f)])
  | .pin f => (.pin, [.name (t.flagName f)])
  | .goto => (.goto, [])

/-- The words of an operation. -/
def Op.words (t : Names) (op : Op) : List Word :=
  Piece.fill (op.phrase t).1.template (op.phrase t).2

end Words

namespace Names

section Denoted

variable {t : Names}

theorem varName_of_table
    {v : Nat} {x : Bytes}
    (h : (t.table .variable)[v]? = some x) :
    t.varName v = x := by
  have hlt : v < t.vars.size := by simpa [table] using (List.getElem?_eq_some_iff.mp h).1
  exact Option.some.inj ((table_varName hlt).symm.trans h)

theorem arrayDecl_of_table
    {a : Nat} {x : Bytes}
    (h : (t.table .array)[a]? = some x) :
    (t.arrayDecl a).name = x := by
  have hlt : a < t.arrays.size := by simpa [table] using (List.getElem?_eq_some_iff.mp h).1
  exact Option.some.inj ((table_arrayDecl hlt).symm.trans h)

theorem flagName_of_table
    {f : Nat} {x : Bytes}
    (h : (t.table .flag)[f]? = some x) :
    t.flagName f = x := by
  have hlt : f < t.flags.size := by simpa [table] using (List.getElem?_eq_some_iff.mp h).1
  exact Option.some.inj ((table_flagName hlt).symm.trans h)

theorem subscript_of_index
    {s : Subscript} {i : Index}
    (h : t.index s = .ok i) :
    i.subscript t = s := by
  cases s with
  | literal n =>
      cases h
      rfl
  | name x =>
      obtain ⟨v, hv, rfl⟩ := map_eq_ok_iff.mp h
      exact congrArg Subscript.name (varName_of_table (lookup_eq_ok hv))

/-- A place is denoted by the word that it was read from. -/
theorem word_of_place
    {w : Word} {p : Place}
    (h : t.place w = .ok p) :
    p.word t = w := by
  cases w with
  | literal n => cases h
  | name x =>
      obtain ⟨v, hv, rfl⟩ := map_eq_ok_iff.mp h
      exact congrArg Word.name (varName_of_table (lookup_eq_ok hv))
  | element x s =>
      obtain ⟨a, ha, h⟩ := bind_eq_ok_iff.mp h
      obtain ⟨i, hi, h⟩ := bind_eq_ok_iff.mp h
      cases h
      rw [Place.word, arrayDecl_of_table (lookup_eq_ok ha), subscript_of_index hi]

/-- An operand is denoted by the word that it was read from. -/
theorem word_of_operand
    {w : Word} {v : Operand}
    (h : t.operand w = .ok v) :
    v.word t = w := by
  cases w with
  | literal n =>
      cases h
      rfl
  | name x =>
      obtain ⟨p, hp, rfl⟩ := map_eq_ok_iff.mp h
      exact word_of_place hp
  | element x s =>
      obtain ⟨p, hp, rfl⟩ := map_eq_ok_iff.mp h
      exact word_of_place hp

/-- A name that was introduced stands in its table. -/
theorem table_of_intern
    {t' : Names} {name : Bytes} {want : NameKind} {size : Int} {i : Nat}
    (h : t.intern name want size = .ok (t', i)) :
    (t'.table want)[i]? = some name := by
  rcases intern_eq_ok h with ⟨rfl, hi, -⟩ | ⟨-, -, rfl, rfl⟩
  · exact hi
  · rw [table_insert_self]
    simp

end Denoted

end Names

section Meaning

variable {t t' : Names} {op : Op}

/-- The words of an operation that keeps the names. -/
theorem phrase_of_keeping
    {α : Type} {x : Except PhraseError α} {f : α → Op} {r : Command × List Word}
    (h : Command.keeping t (x.map f) = .ok (op, t'))
    (hx : ∀ a, x = .ok a → (f a).phrase t = r) :
    op.phrase t' = r := by
  obtain ⟨hop, rfl⟩ := Names.keeping_eq_ok h
  obtain ⟨a, ha, rfl⟩ := map_eq_ok_iff.mp hop
  exact hx a ha

/-- The words of an operation are those of its line.  The one exception is a definition of
an array that has been defined before. -/
theorem Op.phrase_of_meaning
    {c : Command} {args : List Word}
    (h : c.meaning t args = .ok (op, t')) :
    op.phrase t' = (c, args) ∨
    ∃ x a, ∃ n : Int32, c = .defineArray ∧ args = [.element x (.literal n)] ∧ op = .defineArray a ∧
      t' = t ∧ (t.table .array)[a]? = some x ∧ t.find? x = some (.array, a) := by
  unfold Command.meaning at h
  split at h
  · rename_i x n
    obtain ⟨⟨t'', a⟩, hintern, heq⟩ := map_eq_ok_iff.mp h
    cases heq
    rcases Names.intern_eq_ok hintern with ⟨rfl, hx, hfind⟩ | ⟨-, -, rfl, rfl⟩
    · exact Or.inr ⟨x, a, n, rfl, rfl, rfl, rfl, hx, hfind⟩
    · refine Or.inl ?_
      simp [Op.phrase, Names.arrayDecl, Names.insert, Names.table]
  · exact Or.inl (phrase_of_keeping h fun a ha => by
      rw [Op.phrase, Names.arrayDecl_of_table (Names.lookup_eq_ok ha)])
  · obtain ⟨⟨t'', v⟩, hintern, heq⟩ := map_eq_ok_iff.mp h
    cases heq
    refine Or.inl ?_
    rw [Op.phrase, Names.varName_of_table (Names.table_of_intern hintern)]
  · exact Or.inl (phrase_of_keeping h fun v hv => by
      rw [Op.phrase, Names.varName_of_table (Names.lookup_eq_ok hv)])
  · exact Or.inl (phrase_of_keeping h fun p hp => by rw [Op.phrase, Names.word_of_place hp])
  · exact Or.inl (phrase_of_keeping h fun v hv => by rw [Op.phrase, Names.word_of_operand hv])
  · exact Or.inl (phrase_of_keeping h fun v hv => by rw [Op.phrase, Names.word_of_operand hv])
  · obtain ⟨h, rfl⟩ := Names.keeping_eq_ok h
    obtain ⟨v, hv, h⟩ := bind_eq_ok_iff.mp h
    obtain ⟨p, hp, h⟩ := bind_eq_ok_iff.mp h
    cases h
    refine Or.inl ?_
    rw [Op.phrase, Names.word_of_operand hv, Names.word_of_place hp]
  · obtain ⟨h, rfl⟩ := Names.keeping_eq_ok h
    obtain ⟨v, hv, h⟩ := bind_eq_ok_iff.mp h
    obtain ⟨p, hp, h⟩ := bind_eq_ok_iff.mp h
    cases h
    refine Or.inl ?_
    rw [Op.phrase, Names.word_of_operand hv, Names.word_of_place hp]
  · split at h
    · cases h
    · obtain ⟨⟨t'', f⟩, hintern, heq⟩ := map_eq_ok_iff.mp h
      cases heq
      refine Or.inl ?_
      rw [Op.phrase, Names.flagName_of_table (Names.table_of_intern hintern)]
  · exact Or.inl (phrase_of_keeping h fun f hf => by
      rw [Op.phrase, Names.flagName_of_table (Names.lookup_eq_ok hf)])
  · exact Or.inl (phrase_of_keeping h fun f hf => by
      rw [Op.phrase, Names.flagName_of_table (Names.lookup_eq_ok hf)])
  · cases h
    exact Or.inl rfl
  · obtain ⟨h, rfl⟩ := Names.keeping_eq_ok h
    obtain ⟨a, ha, h⟩ := bind_eq_ok_iff.mp h
    obtain ⟨b, hb, h⟩ := bind_eq_ok_iff.mp h
    cases h
    refine Or.inl ?_
    rw [Op.phrase, Names.word_of_operand ha, Names.word_of_operand hb]
  · cases h
    exact Or.inl rfl
  · cases h

/-- The words of an operation mean this operation again. -/
theorem Op.ofCode_words
    {code : List Token}
    (h : Op.ofCode t code = .ok (op, t')) :
    Op.ofCode t ((op.words t').flatMap Word.tokens) = .ok (op, t') := by
  obtain ⟨c, ws, args, -, hargs, hmeaning⟩ := Op.ofCode_eq_ok h
  rcases Op.phrase_of_meaning hmeaning with hphrase | ⟨x, a, n, rfl, rfl, rfl, rfl, hx, hfind⟩
  · have hwords : op.words t' = ws := by
      rw [Op.words, hphrase, ← Piece.fill_of_match? hargs]
    rw [hwords, Op.ofCode_of_match? hargs]
    exact hmeaning
  · -- a known array keeps its size, so the size in the line does not matter
    have hname := Names.arrayDecl_of_table hx
    have hmatch : Piece.match? (Command.template .defineArray) ((Op.defineArray a).words t') =
        some [.element x (.literal (Int32.ofInt (t'.arrayDecl a).size))] := by
      simp [Op.words, Op.phrase, Command.template, Piece.fill, Piece.match?, Slot.accepts, hname]
    rw [Op.ofCode_of_match? hmatch]
    simp [Command.meaning, Names.intern, hfind, Except.map]

end Meaning

section Growth

variable {t t' : Names}

theorem Index.subscript_of_grows
    (hgrows : t.Grows t')
    {i : Index}
    (hcov : t.Covers i.mentions) :
    i.subscript t' = i.subscript t := by
  cases i with
  | literal n => rfl
  | var v =>
      have hv : v < (t.table .variable).length := Names.lt_of_covers_only hcov
      rw [Index.subscript, Index.subscript, hgrows.varName hv]

theorem Place.word_of_grows
    (hgrows : t.Grows t')
    {p : Place}
    (hcov : t.Covers p.mentions) :
    p.word t' = p.word t := by
  cases p with
  | var v =>
      have hv : v < (t.table .variable).length := Names.lt_of_covers_only hcov
      rw [Place.word, Place.word, hgrows.varName hv]
  | element a i =>
      obtain ⟨harray, hindex⟩ := Names.covers_append.mp hcov
      have ha : a < (t.table .array).length := Names.lt_of_covers_only harray
      rw [Place.word, Place.word, hgrows.arrayDecl ha, Index.subscript_of_grows hgrows hindex]

theorem Operand.word_of_grows
    (hgrows : t.Grows t')
    {v : Operand}
    (hcov : t.Covers v.mentions) :
    v.word t' = v.word t := by
  cases v with
  | literal n => rfl
  | stored p => exact Place.word_of_grows hgrows hcov

/-- More names do not change the words of an operation. -/
theorem Op.words_of_grows
    (hgrows : t.Grows t')
    {op : Op}
    (hcov : t.Covers op.mentions) :
    op.words t' = op.words t := by
  have hphrase : op.phrase t' = op.phrase t := by
    cases op with
    | define v | undefine v =>
        have hv : v < (t.table .variable).length := Names.lt_of_covers_only hcov
        rw [Op.phrase, Op.phrase, hgrows.varName hv]
    | defineArray a | undefineArray a =>
        have ha : a < (t.table .array).length := Names.lt_of_covers_only hcov
        rw [Op.phrase, Op.phrase, hgrows.arrayDecl ha]
    | mark f | unmark f | pin f =>
        have hf : f < (t.table .flag).length := Names.lt_of_covers_only hcov
        rw [Op.phrase, Op.phrase, hgrows.flagName hf]
    | read p => rw [Op.phrase, Op.phrase, Place.word_of_grows hgrows hcov]
    | print v | printChar v => rw [Op.phrase, Op.phrase, Operand.word_of_grows hgrows hcov]
    | add v p | subtract v p =>
        obtain ⟨hv, hp⟩ := Names.covers_append.mp hcov
        rw [Op.phrase, Op.phrase, Operand.word_of_grows hgrows hv, Place.word_of_grows hgrows hp]
    | closeBlock a b c =>
        obtain ⟨ha, hb⟩ := Names.covers_append.mp hcov
        rw [Op.phrase, Op.phrase, Operand.word_of_grows hgrows ha, Operand.word_of_grows hgrows hb]
    | openBlock | goto => rfl
  rw [Op.words, Op.words, hphrase]

/-- Operations that were read and are put into words are read again. -/
theorem Op.ofCodes_words
    {codes : List (List Token)} :
    ∀ {t t' : Names} {ops : List Op},
      Op.ofCodes t codes = .ok (ops, t') →
      t.Grows t' ∧
        Op.ofCodes t (ops.map fun op => (op.words t').flatMap Word.tokens) = .ok (ops, t') := by
  induction codes with
  | nil =>
      intro t t' ops h
      cases h
      exact ⟨.refl t, rfl⟩
  | cons code codes ih =>
      intro t t'' ops h
      obtain ⟨op, t', ops, hop, hops, rfl⟩ := Op.ofCodes_cons_eq_ok_iff.mp h
      obtain ⟨hgrows, hread⟩ := ih hops
      have hext := Op.ofCode_extension hop
      have hwords : op.words t'' = op.words t' := Op.words_of_grows hgrows hext.covers
      refine ⟨hext.grows.trans hgrows, ?_⟩
      rw [List.map_cons, hwords]
      exact Op.ofCodes_cons_eq_ok_iff.mpr ⟨op, t', ops, Op.ofCode_words hop, hread, rfl⟩

end Growth

section Literals

/-- The number in an index. -/
def Index.literals : Index → List Int32
  | .literal n => [n]
  | .var _ => []

/-- The number in a place. -/
def Place.literals : Place → List Int32
  | .var _ => []
  | .element _ i => i.literals

/-- The number in an operand. -/
def Operand.literals : Operand → List Int32
  | .literal n => [n]
  | .stored p => p.literals

/-- The numbers in an operation. -/
def Op.literals : Op → List Int32
  | .read p => p.literals
  | .print v | .printChar v => v.literals
  | .add v p | .subtract v p => v.literals ++ p.literals
  | .closeBlock a b _ => a.literals ++ b.literals
  | _ => []

theorem Place.literal_mem_word
    (t : Names) {p : Place} {n : Int32}
    (hn : n ∈ p.literals) :
    .literal n ∈ (p.word t).tokens := by
  cases p with
  | var v => cases hn
  | element a i =>
      cases i with
      | var v => cases hn
      | literal m =>
          rw [List.mem_singleton.mp hn]
          simp [Place.word, Index.subscript, Word.tokens, Subscript.token]

theorem Operand.literal_mem_word
    (t : Names) {v : Operand} {n : Int32}
    (hn : n ∈ v.literals) :
    .literal n ∈ (v.word t).tokens := by
  cases v with
  | stored p => exact Place.literal_mem_word t hn
  | literal m =>
      rw [List.mem_singleton.mp hn]
      exact List.mem_singleton_self _

theorem Op.literal_mem_phrase
    (t : Names) {op : Op} {n : Int32}
    (hn : n ∈ op.literals) :
    ∃ w ∈ (op.phrase t).2, .literal n ∈ w.tokens := by
  cases op with
  | read p => exact ⟨p.word t, by simp [Op.phrase], Place.literal_mem_word t hn⟩
  | print v | printChar v => exact ⟨v.word t, by simp [Op.phrase], Operand.literal_mem_word t hn⟩
  | add v p | subtract v p =>
      rcases List.mem_append.mp hn with hn | hn
      · exact ⟨v.word t, by simp [Op.phrase], Operand.literal_mem_word t hn⟩
      · exact ⟨p.word t, by simp [Op.phrase], Place.literal_mem_word t hn⟩
  | closeBlock a b c =>
      rcases List.mem_append.mp hn with hn | hn
      · exact ⟨a.word t, by simp [Op.phrase], Operand.literal_mem_word t hn⟩
      · exact ⟨b.word t, by simp [Op.phrase], Operand.literal_mem_word t hn⟩
  | _ => cases hn

theorem Piece.mem_of_match?
    {ps : List Piece} {ws args : List Word}
    (h : Piece.match? ps ws = some args) :
    ∀ w ∈ args, w ∈ ws := by
  fun_induction Piece.match? ps ws generalizing args with
  | case1 =>
      cases h
      simp
  | case2 keyword ps ws ih =>
      intro w hw
      exact List.mem_cons_of_mem _ (ih h w hw)
  | case3 => cases h
  | case4 s ps w ws _ ih =>
      obtain ⟨args', hargs, rfl⟩ := Option.map_eq_some_iff.mp h
      intro w' hw'
      rcases List.mem_cons.mp hw' with rfl | hw'
      · exact List.mem_cons_self
      · exact List.mem_cons_of_mem _ (ih hargs w' hw')
  | case5 => cases h
  | case6 => cases h

/-- The numbers of an operation stand in its line. -/
theorem Op.literal_mem_of_ofCode
    {t t' : Names} {code : List Token} {op : Op}
    (h : Op.ofCode t code = .ok (op, t'))
    {n : Int32}
    (hn : n ∈ op.literals) :
    .literal n ∈ code := by
  obtain ⟨c, ws, args, rfl, hargs, hmeaning⟩ := Op.ofCode_eq_ok h
  rcases Op.phrase_of_meaning hmeaning with hphrase | ⟨x, a, m, -, -, rfl, -⟩
  · obtain ⟨w, hw, hliteral⟩ := Op.literal_mem_phrase t' hn
    rw [hphrase] at hw
    exact List.mem_flatMap.mpr ⟨w, Piece.mem_of_match? hargs w hw, hliteral⟩
  · cases hn

/-- Every operation comes from the code of a line. -/
theorem Op.mem_ofCodes
    {codes : List (List Token)} :
    ∀ {t t' : Names} {ops : List Op},
      Op.ofCodes t codes = .ok (ops, t') →
      ∀ op ∈ ops, ∃ code ∈ codes, ∃ t₁ t₂, Op.ofCode t₁ code = .ok (op, t₂) := by
  induction codes with
  | nil =>
      intro t t' ops h op hop
      cases h
      cases hop
  | cons code codes ih =>
      intro t t'' ops h op hop
      obtain ⟨op', t', ops, hfirst, hops, rfl⟩ := Op.ofCodes_cons_eq_ok_iff.mp h
      rcases List.mem_cons.mp hop with rfl | hop
      · exact ⟨code, List.mem_cons_self, t, t', hfirst⟩
      · obtain ⟨code', hcode', hread⟩ := ih hops op hop
        exact ⟨code', List.mem_cons_of_mem _ hcode', hread⟩

end Literals

end Contrary
