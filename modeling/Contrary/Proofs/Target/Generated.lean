import Contrary.Proofs.Blocks
import Contrary.Proofs.LineEnds
import Contrary.Proofs.Source
import Contrary.Proofs.Target.ReadBack
import Contrary.Target.OfProgram

/-!
# Generated programs are readable

The program that is generated from a source can be read back from its text.

**Names.**  They come from names that the source may introduce, so they are words, and
the names of objects get an underscore in front.

**Comments.**  They are lines of the source, trimmed, so they have no line feed and end as
lines with a meaning do: in a letter, a digit, an underscore or a closing bracket.

**Results.**
* `readable_block`: the lines and heads of a generated body are readable.
* `readable_main`: so is the program that is generated from a source.
-/

namespace Contrary
namespace Target

section Comments

theorem mem_trimFront
    {b : UInt8} (s : Bytes) :
    b ∈ s.trimFront → b ∈ s := by
  fun_induction Bytes.trimFront s with
  | case1 => exact id
  | case2 c rest g hblank ih =>
      intro hb
      exact List.mem_cons_of_mem _ (List.mem_of_mem_drop (ih hb))
  | case3 => exact id

theorem mem_trimReversed
    {b : UInt8} (s : Bytes) :
    b ∈ s.trimReversed → b ∈ s := by
  fun_induction Bytes.trimReversed s with
  | case1 => exact id
  | case2 c rest g hblank ih =>
      intro hb
      exact List.mem_cons_of_mem _ (List.mem_of_mem_drop (ih hb))
  | case3 => exact id

/-- A comment has only bytes of its source line. -/
theorem mem_of_mem_comment
    {b : UInt8} {text : Bytes}
    (h : b ∈ annotation text) :
    b ∈ text := by
  have htrim : b ∈ text.trim := by
    have hdrop := (List.dropWhile_suffix _).subset (List.mem_reverse.mp h)
    exact List.mem_reverse.mp hdrop
  have hend := mem_trimReversed _ (List.mem_reverse.mp htrim)
  exact mem_trimFront _ (List.mem_reverse.mp hend)

theorem isEndByte_spec :
    ∀ b, isEndByte b = true →
      isSolid b = true ∧ b ≠ '\\'.toUInt8 ∧ Bytes.isSpaceOrTab b = false :=
  forall_byte (by decide +kernel)

/-- A comment is its source line, trimmed. -/
theorem annotation_eq_trim
    {text : Bytes} {b : UInt8}
    (hb : text.trim.getLast? = some b)
    (hend : isEndByte b = true) :
    annotation text = text.trim := by
  obtain ⟨-, hbackslash, hspace⟩ := isEndByte_spec b hend
  refine dropEndWhile_of_getLast hb ?_
  rw [hspace, Bool.or_false]
  exact beq_eq_false_iff_ne.mpr hbackslash

section Sources

variable {source : Bytes} {p : Program} {l : OpLine}
  (h : Program.ofSource source = .ok p) (hl : l ∈ p.ops.toList)

include h hl

theorem annotation_of_mem :
    annotation l.text = l.text.trim := by
  obtain ⟨b, hb, hend⟩ := Program.getLast_trim h hl
  exact annotation_eq_trim hb hend

theorem getLast_annotation_text :
    ∃ b, ( annotation l.text).getLast? = some b ∧ isEndByte b = true := by
  rw [annotation_of_mem h hl]
  exact Program.getLast_trim h hl

theorem isLine_annotation_text :
    IsLine ( annotation l.text) := by
  obtain ⟨-, -, -, htexts⟩ := Program.readFrom_ofSource h
  refine ⟨fun hmem => htexts l hl (mem_of_mem_comment hmem), ?_⟩
  obtain ⟨b, hb, hend⟩ := getLast_annotation_text h hl
  rw [hb]
  exact (isEndByte_spec b hend).1

end Sources

end Comments

section Words

theorem isWord_of_allowed
    {name : Bytes} {k : NameKind}
    (h : Spelling.allowed name k = true) :
    IsWord name := by
  obtain ⟨hne, -, hbytes⟩ :=
    Spelling.isIdentifier_eq_true_iff.mp (Spelling.isIdentifier_of_allowed h)
  exact ⟨hne, hbytes⟩

/-- All names in the tables are words. -/
def HasWords (names : Names) : Prop :=
  ∀ k, ∀ name ∈ names.table k, IsWord name

variable {names : Names} (hnames : HasWords names)

theorem isObjectName_append
    {stem x : Bytes}
    (hstem : IsObjectName stem)
    (hx : ∀ b ∈ x, Spelling.isIdentifierByte b = true) :
    IsObjectName (stem ++ x) := by
  obtain ⟨hhead, hne, hall⟩ := hstem
  refine ⟨by rw [List.head?_append, hhead]; rfl, List.append_ne_nil_of_left_ne_nil hne x, ?_⟩
  intro b hb
  rcases List.mem_append.mp hb with hb | hb
  · exact hall b hb
  · exact hx b hb

theorem isObjectName_liveness
    {cell : Ident}
    (hcell : IsObjectName cell) :
    IsObjectName (liveness cell) :=
  isObjectName_append ⟨rfl, List.cons_ne_nil _ _, List.all_eq_true.mp rfl⟩ hcell.2.2

theorem isObjectName_varCell
    {x : Bytes}
    (hx : ∀ b ∈ x, Spelling.isIdentifierByte b = true) :
    IsObjectName (varCell x) :=
  isObjectName_append ⟨rfl, List.cons_ne_nil _ _, List.all_eq_true.mp rfl⟩ hx

theorem isObjectName_arrayCell
    {x : Bytes}
    (hx : ∀ b ∈ x, Spelling.isIdentifierByte b = true) :
    IsObjectName (arrayCell x) :=
  isObjectName_append ⟨rfl, List.cons_ne_nil _ _, List.all_eq_true.mp rfl⟩ hx

theorem isObjectName_flagCell
    {x : Bytes}
    (hx : ∀ b ∈ x, Spelling.isIdentifierByte b = true) :
    IsObjectName (flagCell x) :=
  isObjectName_append ⟨rfl, List.cons_ne_nil _ _, List.all_eq_true.mp rfl⟩ hx

include hnames

theorem HasWords.varName
    (v : Nat) :
    ∀ b ∈ names.varName v, Spelling.isIdentifierByte b = true := by
  by_cases hv : v < names.vars.size
  · exact (hnames .variable _ (List.mem_of_getElem? (Names.table_varName hv))).2
  · simp [Names.varName, hv]

theorem HasWords.arrayName
    (a : Nat) :
    ∀ b ∈ (names.arrayDecl a).name, Spelling.isIdentifierByte b = true := by
  by_cases ha : a < names.arrays.size
  · exact (hnames .array _ (List.mem_of_getElem? (Names.table_arrayDecl ha))).2
  · simp [Names.arrayDecl, ha]

theorem HasWords.flagName
    (f : Nat) :
    ∀ b ∈ names.flagName f, Spelling.isIdentifierByte b = true := by
  by_cases hf : f < names.flags.size
  · exact (hnames .flag _ (List.mem_of_getElem? (Names.table_flagName hf))).2
  · simp [Names.flagName, hf]

end Words

section Statements

variable {names : Names}

theorem readable_position
    (hnames : HasWords names) (i : Index) :
    (position names i).IsReadable := by
  cases i with
  | literal n => exact trivial
  | var v => exact isObjectName_varCell (hnames.varName v)

theorem readable_lvalue
    (hnames : HasWords names) (p : Place) :
    (lvalue names p).IsReadable := by
  cases p with
  | var v => exact isObjectName_varCell (hnames.varName v)
  | element a i => exact ⟨isObjectName_arrayCell (hnames.arrayName a), readable_position hnames i⟩

theorem readable_expr
    (hnames : HasWords names) (v : Operand) :
    (expr names v).IsReadable := by
  cases v with
  | literal n => exact trivial
  | stored p => exact readable_lvalue hnames p

/-- A readable statement that declares nothing. -/
def Stmt.IsBare (st : Stmt) : Prop :=
  st.IsReadable ∧ st.declares = false

theorem bare_checkPlace
    (hnames : HasWords names) (p : Place) :
    ∀ st ∈ checkPlace names p, st.IsBare := by
  have hvar : ∀ v, (checkVar names v).IsBare := fun v =>
    ⟨isObjectName_liveness (isObjectName_varCell (hnames.varName v)), rfl⟩
  have harray : ∀ a, (Stmt.assertLive (liveness (arrayCell (names.arrayDecl a).name))).IsBare :=
    fun a => ⟨isObjectName_liveness (isObjectName_arrayCell (hnames.arrayName a)), rfl⟩
  cases p with
  | var v => simpa [checkPlace] using hvar v
  | element a i =>
      cases i with
      | literal n => simpa [checkPlace] using harray a
      | var v => simpa [checkPlace] using And.intro (hvar v) (harray a)

theorem bare_check
    (hnames : HasWords names) (v : Operand) :
    ∀ st ∈ check names v, st.IsBare := by
  cases v with
  | literal n => simp [check]
  | stored p => exact bare_checkPlace hnames p

theorem readable_arithmetic
    (hnames : HasWords names) (v : Operand) (target : Place) (shift compensate : Sign) :
    ∀ st ∈ arithmetic names v target shift compensate, st.IsReadable := by
  intro st hst
  simp only [arithmetic, List.mem_append, List.mem_cons, List.not_mem_nil, or_false] at hst
  rcases hst with ((hst | hst) | rfl | rfl | rfl | rfl) | hst
  · exact (bare_check hnames v st hst).1
  · exact (bare_checkPlace hnames target st hst).1
  · exact readable_expr hnames v
  · exact readable_lvalue hnames target
  · exact trivial
  · exact trivial
  · cases v with
    | literal n => cases hst
    | stored p =>
        rw [List.mem_singleton.mp hst]
        exact readable_lvalue hnames p

theorem size_nonneg
    (hsizes : ∀ d ∈ names.arrays.toList, 0 ≤ d.size) (a : Nat) :
    0 ≤ (names.arrayDecl a).size := by
  by_cases ha : a < names.arrays.size
  · refine hsizes _ ?_
    simp [Names.arrayDecl, ha]
  · simp [Names.arrayDecl, ha]

/-- Outside of braces nothing is declared. -/
theorem bare_statements
    (hnames : HasWords names) (hsizes : ∀ d ∈ names.arrays.toList, 0 ≤ d.size)
    {op : Op}
    (hcov : names.Covers op.mentions)
    (hbraced : isBraced op = false) :
    ∀ st ∈ statements names op, st.IsBare := by
  have hvar := fun v => isObjectName_varCell (hnames.varName v)
  have harray := fun a => isObjectName_arrayCell (hnames.arrayName a)
  have hflag := fun f => isObjectName_flagCell (hnames.flagName f)
  have hlabel : ∀ f ∈ op.mentions .flag, IsWord (names.flagName f) := by
    intro f hf
    have hlt : f < names.flags.size := by simpa [Names.table] using hcov .flag f hf
    exact hnames .flag _ (List.mem_of_getElem? (Names.table_flagName hlt))
  intro st hst
  cases op with
  | define v =>
      rcases List.mem_pair.mp hst with rfl | rfl
      · exact ⟨hvar v, rfl⟩
      · exact ⟨isObjectName_liveness (hvar v), rfl⟩
  | defineArray a =>
      rcases List.mem_pair.mp hst with rfl | rfl
      · exact ⟨⟨harray a, size_nonneg hsizes a⟩, rfl⟩
      · exact ⟨isObjectName_liveness (harray a), rfl⟩
  | undefine v =>
      rw [List.mem_singleton.mp hst]
      exact ⟨isObjectName_liveness (hvar v), rfl⟩
  | undefineArray a =>
      rw [List.mem_singleton.mp hst]
      exact ⟨isObjectName_liveness (harray a), rfl⟩
  | read target =>
      rcases List.mem_append.mp hst with hst | hst
      · exact bare_checkPlace hnames target st hst
      · rcases List.mem_pair.mp hst with rfl | rfl
        · exact ⟨readable_lvalue hnames target, rfl⟩
        · exact ⟨readable_lvalue hnames target, rfl⟩
  | print v =>
      rcases List.mem_append.mp hst with hst | hst
      · exact bare_check hnames v st hst
      · rw [List.mem_singleton.mp hst]
        exact ⟨readable_expr hnames v, rfl⟩
  | printChar v =>
      rcases List.mem_append.mp hst with hst | hst
      · exact bare_check hnames v st hst
      · rw [List.mem_singleton.mp hst]
        exact ⟨readable_expr hnames v, rfl⟩
  | add v target => cases hbraced
  | subtract v target => cases hbraced
  | mark f =>
      rw [List.mem_singleton.mp hst]
      exact ⟨hlabel f (NameKind.mem_only.mpr ⟨rfl, rfl⟩), rfl⟩
  | unmark f =>
      rw [List.mem_singleton.mp hst]
      exact ⟨isObjectName_liveness (hflag f), rfl⟩
  | pin f =>
      rcases List.mem_pair.mp hst with rfl | rfl
      · exact ⟨isObjectName_liveness (hflag f), rfl⟩
      · exact ⟨hlabel f (NameKind.mem_only.mpr ⟨rfl, rfl⟩), rfl⟩
  | goto =>
      rw [List.mem_singleton.mp hst]
      exact ⟨trivial, rfl⟩
  | openBlock => cases hst
  | closeBlock a b c => cases hst

theorem readable_line
    (hnames : HasWords names) (hsizes : ∀ d ∈ names.arrays.toList, 0 ≤ d.size)
    {l : OpLine}
    (hcov : names.Covers l.op.mentions)
    (htext : IsLine ( annotation l.text)) :
    (line names l).IsReadable := by
  refine ⟨?_, fun hbraced st hst => (bare_statements hnames hsizes hcov hbraced st hst).2, htext⟩
  intro st hst
  cases hbraced : isBraced l.op with
  | false => exact (bare_statements hnames hsizes hcov hbraced st hst).1
  | true =>
      change st ∈ statements names l.op at hst
      cases hop : l.op with
      | add v target =>
          rw [hop] at hst
          exact readable_arithmetic hnames v target _ _ st hst
      | subtract v target =>
          rw [hop] at hst
          exact readable_arithmetic hnames v target _ _ st hst
      | _ =>
          rw [hop] at hbraced
          cases hbraced

theorem readable_head
    (hnames : HasWords names) (a b : Operand) (c : Comparison) :
    (head names a b c).IsReadable := by
  have hchecks : ∀ st ∈ check names a ++ check names b, st.IsBare := by
    intro st hst
    rcases List.mem_append.mp hst with hst | hst
    · exact bare_check hnames a st hst
    · exact bare_check hnames b st hst
  exact ⟨fun st hst => (hchecks st hst).1, fun st hst => (hchecks st hst).2,
    readable_expr hnames a, readable_expr hnames b⟩

theorem readable_block
    (hnames : HasWords names) (hsizes : ∀ d ∈ names.arrays.toList, 0 ≤ d.size)
    {n : Nesting} {ls : List OpLine}
    (hn : n.Spells ls)
    (hcov : ∀ l ∈ ls, names.Covers l.op.mentions)
    (htext : ∀ l ∈ ls, IsLine ( annotation l.text)) :
    (block names n).IsReadable := by
  induction hn with
  | done => exact trivial
  | @op l next ls _ _ ih =>
      rw [List.forall_mem_cons] at hcov htext
      exact ⟨readable_line hnames hsizes hcov.1 htext.1, ih hcov.2 htext.2⟩
  | @block first last a b c body next inner ls _ _ _ _ ihBody ihNext =>
      simp only [List.forall_mem_cons, List.forall_mem_append] at hcov htext
      exact ⟨readable_head hnames a b c, ihBody hcov.2.1 htext.2.1,
        ihNext hcov.2.2.2 htext.2.2.2⟩

end Statements

section Programs

variable {names : Names}

theorem readable_declarations
    (hnames : HasWords names) (hsizes : ∀ d ∈ names.arrays.toList, 0 ≤ d.size) :
    ∀ d ∈ declarations names, d.IsReadable := by
  intro d hd
  simp only [declarations, List.mem_append, List.mem_map] at hd
  rcases hd with (⟨x, hx, rfl⟩ | ⟨d, hd, rfl⟩) | ⟨f, hf, rfl⟩
  · have hcell := isObjectName_varCell (hnames .variable x hx).2
    exact ⟨hcell.2, (isObjectName_liveness hcell).2⟩
  · have hcell := isObjectName_arrayCell (hnames .array d.name (List.mem_map_of_mem hd)).2
    exact ⟨hcell.2, (isObjectName_liveness hcell).2, hsizes d hd⟩
  · exact (isObjectName_liveness (isObjectName_flagCell (hnames .flag f hf).2)).2

theorem readable_leakChecks
    (hnames : HasWords names) :
    ∀ k ∈ leakChecks names, k.IsReadable := by
  intro k hk
  simp only [leakChecks, List.mem_append, List.mem_map] at hk
  rcases hk with (⟨x, hx, rfl⟩ | ⟨d, hd, rfl⟩) | ⟨f, hf, rfl⟩
  · have hname := hnames .variable x hx
    exact ⟨(isObjectName_liveness (isObjectName_varCell hname.2)).2, hname⟩
  · have hname := hnames .array d.name (List.mem_map_of_mem hd)
    exact ⟨(isObjectName_liveness (isObjectName_arrayCell hname.2)).2, hname⟩
  · have hname := hnames .flag f hf
    exact ⟨(isObjectName_liveness (isObjectName_flagCell hname.2)).2, hname⟩

/-- The program that is generated from a source can be read. -/
theorem readable_main
    {source : Bytes} {p : Program} {n : Nesting}
    (hp : Program.ofSource source = .ok p)
    (hn : n.Spells p.ops.toList) :
    (Code.main (declarations p.names) (block p.names n) (leakChecks p.names)).IsReadable := by
  obtain ⟨lines, hread, hsizes, -⟩ := Program.readFrom_ofSource hp
  have hnames : HasWords p.names :=
    fun k name hname => isWord_of_allowed (hread.allowed k name hname)
  exact ⟨readable_declarations hnames hsizes,
    readable_block hnames hsizes hn hread.covered fun l hl => isLine_annotation_text hp hl,
    readable_leakChecks hnames⟩

theorem readable_ofProgram
    {source : Bytes} {p : Program} {code : Code}
    (hp : Program.ofSource source = .ok p)
    (hcode : Code.ofProgram p = .ok code) :
    code.IsReadable := by
  unfold Code.ofProgram at hcode
  split_ifs at hcode with hempty
  · cases hcode
    exact trivial
  · obtain ⟨n, hn, rfl⟩ := map_eq_ok_iff.mp hcode
    obtain ⟨hspells, -⟩ := ofOps_of_nesting hn
    exact readable_main hp hspells

end Programs

end Target
end Contrary
