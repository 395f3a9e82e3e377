import Contrary.Proofs.Target.Agreement
import Contrary.Proofs.Target.Comments

/-!
# The identifiers of the generated C

A generated program declares a few identifiers for each name of its source.  They are built
from the name with a stem in front, so that the names of one table cannot meet those of
another, nor what the fixed text declares.

**References.**  `Ref` is a use of an identifier as what it was declared for: a cell, the cells
of an array, a liveness variable or a label.  Every statement that is generated for an
operation refers to the names that the operation mentions, and those are in the tables.

**Labels.**  A label is placed by a row of the text that starts with it.  No other row starts
like this (`places_stmt_iff`), so that such rows can be counted in the text itself.

**Results.**
* `identifiers_nodup`: no two declared identifiers are the same.
* `refs_block`, `refs_leakChecks`: all references are to what is there.
* `names_do_not_collide`: these together, for the text of a source.
-/

namespace Contrary
namespace Target

section Declared

/-- The identifiers that a program declares for its names. -/
def identifiers (names : Names) : List Ident :=
  (names.vars.toList.flatMap fun x => [varCell x, liveness (varCell x)]) ++
    (names.arrays.toList.flatMap fun d => [arrayCell d.name, liveness (arrayCell d.name)]) ++
    names.flags.toList.map fun f => liveness (flagCell f)

/-- The identifiers that a file declares in its main function. -/
def Code.declared : Code → List Ident
  | .empty => []
  | .main decls _ _ => (decls.flatMap Decl.objects).map Prod.fst

/-- The names that the fixed text and the statements use for themselves. -/
def ownNames : List Ident :=
  ["global", "label", "err", "get", "main", "temp", "addr", "i"].map ascii

/-- The words that the language and its compilers keep for themselves. -/
def reservedWords : List Ident :=
  Spelling.keywords ++ Spelling.compilerWords.map varCell

variable {names : Names}

theorem identifiers_eq
    (names : Names) :
    identifiers names = (Item.all names).map (Item.ident names) := by
  unfold identifiers Item.all
  rw [toList_eq_map_range names.vars [], toList_eq_map_range names.arrays ⟨[], 0⟩,
    toList_eq_map_range names.flags []]
  simp [List.flatMap_map, List.map_flatMap, Item.ident, Names.varName, Names.arrayDecl,
    Names.flagName]

theorem identifiers_nodup
    (hd : names.all.Nodup) :
    (identifiers names).Nodup := by
  rw [identifiers_eq]
  refine Item.all_nodup.map_on ?_
  intro it hit it' hit' heq
  exact Item.ident_inj hd (Item.mem_all.mp hit) (Item.mem_all.mp hit') heq

theorem isIdentifier_of_isObjectName
    {x : Ident}
    (h : IsObjectName x) :
    Spelling.isIdentifier x = true := by
  obtain ⟨hhead, hne, hbytes⟩ := h
  refine Spelling.isIdentifier_eq_true_iff.mpr ⟨hne, ?_, hbytes⟩
  rw [hhead]
  rfl

theorem isObjectName_ident
    (hnames : HasWords names) (it : Item) :
    IsObjectName (it.ident names) := by
  cases it with
  | var v => exact isObjectName_varCell (hnames.varName v)
  | varLive v => exact isObjectName_liveness (isObjectName_varCell (hnames.varName v))
  | array a => exact isObjectName_arrayCell (hnames.arrayName a)
  | arrayLive a => exact isObjectName_liveness (isObjectName_arrayCell (hnames.arrayName a))
  | flagLive f => exact isObjectName_liveness (isObjectName_flagCell (hnames.flagName f))

/-- No identifier is a word of a compiler: a variable may not complete one, and the other
stems are not those of such words. -/
theorem ident_ne_varCell
    (hallowed : ∀ name ∈ names.table .variable, Spelling.allowed name .variable = true)
    {it : Item} {w : Bytes}
    (hit : it.Declared names)
    (hw : w ∈ Spelling.compilerWords) :
    it.ident names ≠ varCell w := by
  intro heq
  cases it with
  | var v =>
      have hname : names.varName v = w := List.append_cancel_left heq
      have hv := hallowed _ (List.mem_of_getElem? (Names.table_varName hit))
      rw [hname] at hv
      simp [Spelling.allowed, Spelling.completesReserved, hw] at hv
  | array a => exact absurd (List.cons.inj (List.cons.inj heq).2).1 (by decide)
  | varLive v => exact absurd (List.cons.inj (List.cons.inj heq).2).1 (by decide)
  | arrayLive a => exact absurd (List.cons.inj (List.cons.inj heq).2).1 (by decide)
  | flagLive f => exact absurd (List.cons.inj (List.cons.inj heq).2).1 (by decide)

/-- Every identifier is one of C that nothing else uses. -/
theorem identifiers_spec
    (hallowed : ∀ k, ∀ name ∈ names.table k, Spelling.allowed name k = true)
    {x : Ident}
    (hx : x ∈ identifiers names) :
    Spelling.isIdentifier x = true ∧ x ∉ reservedWords ∧ x ∉ ownNames := by
  rw [identifiers_eq] at hx
  obtain ⟨it, hit, rfl⟩ := List.mem_map.mp hx
  have hobject : IsObjectName (it.ident names) :=
    isObjectName_ident (fun k name hname => isWord_of_allowed (hallowed k name hname)) it
  refine ⟨isIdentifier_of_isObjectName hobject, ?_, ?_⟩
  · intro hreserved
    rcases List.mem_append.mp hreserved with hkeyword | hword
    · have hstart : ∀ y ∈ Spelling.keywords, y.head? ≠ some '_'.toUInt8 := by decide
      exact hstart _ hkeyword hobject.1
    · obtain ⟨w, hw, heq⟩ := List.mem_map.mp hword
      exact ident_ne_varCell (hallowed .variable) (Item.mem_all.mp hit) hw heq.symm
  · intro hown
    have hstart : ∀ y ∈ ownNames, y.head? ≠ some '_'.toUInt8 := by decide
    exact hstart _ hown hobject.1

end Declared

section References

/-- A use of an identifier as what it was declared for. -/
inductive Ref where
  | scalar (x : Ident)
  | array (x : Ident)
  | live (x : Ident)
  | label (x : Ident)
  deriving DecidableEq, Repr

def Position.refs : Position → List Ref
  | .literal _ => []
  | .shown x => [.scalar x]

def LValue.refs : LValue → List Ref
  | .scalar x => [.scalar x]
  | .element a i => .array a :: i.refs

def Expr.refs : Expr → List Ref
  | .literal _ => []
  | .shown cell => cell.refs

/-- What a statement refers to; a label that it places is none of this. -/
def Stmt.refs : Stmt → List Ref
  | .assertLive live => [.live live]
  | .setLive live _ => [.live live]
  | .clear cell => [.scalar cell]
  | .clearAll array _ => [.array array]
  | .scan cell | .rebase cell | .saveAddress cell | .moveCell cell _ => cell.refs
  | .printNumber e | .printChar e | .saveValue e => e.refs
  | .moveOffset _ | .moveSaved _ | .place _ | .goto => []
  | .take name => [.label name]

def Head.refs (h : Head) : List Ref :=
  h.checks.flatMap Stmt.refs ++ h.left.refs ++ h.right.refs

def Block.refs : Block → List Ref
  | .done => []
  | .line l next => l.body.flatMap Stmt.refs ++ next.refs
  | .branch head body next => head.refs ++ body.refs ++ next.refs

def LeakCheck.refs (k : LeakCheck) : List Ref :=
  [.live k.live]

/-- What a declaration is there for. -/
def Decl.refs : Decl → List Ref
  | .scalar cell live => [.scalar cell, .live live]
  | .array cell live _ => [.array cell, .live live]
  | .flag live => [.live live]

/-- What the statements, the heads and the checks of a file refer to. -/
def Code.refs : Code → List Ref
  | .empty => []
  | .main _ body leaks => body.refs ++ leaks.flatMap LeakCheck.refs

/-- What a file declares and places. -/
def Code.provided : Code → List Ref
  | .empty => []
  | .main decls body _ => decls.flatMap Decl.refs ++ body.labels.map .label

/-- The labels that a file places. -/
def Code.labels : Code → List Ident
  | .empty => []
  | .main _ body _ => body.labels

/-- What the names of a program are there for. -/
def provided (names : Names) : List Ref :=
  (declarations names).flatMap Decl.refs ++ names.flags.toList.map .label

variable {names : Names}

theorem mem_provided
    {d : Decl} {r : Ref}
    (hd : d ∈ declarations names)
    (hr : r ∈ d.refs) :
    r ∈ provided names :=
  List.mem_append_left _ (List.mem_flatMap.mpr ⟨d, hd, hr⟩)

theorem subset_provided
    {r : Ref}
    (hr : r ∈ provided names) :
    [r] ⊆ provided names :=
  List.cons_subset.mpr ⟨hr, List.nil_subset _⟩

theorem provided_of_mem_vars
    {x : Bytes}
    (hx : x ∈ names.vars.toList) :
    .scalar (varCell x) ∈ provided names ∧ .live (liveness (varCell x)) ∈ provided names := by
  have hdecl : .scalar (varCell x) (liveness (varCell x)) ∈ declarations names :=
    List.mem_append_left _ (List.mem_append_left _ (List.mem_map_of_mem hx))
  exact ⟨mem_provided hdecl List.mem_cons_self,
    mem_provided hdecl (List.mem_cons_of_mem _ List.mem_cons_self)⟩

theorem provided_of_mem_arrays
    {d : ArrayDecl}
    (hd : d ∈ names.arrays.toList) :
    .array (arrayCell d.name) ∈ provided names ∧
      .live (liveness (arrayCell d.name)) ∈ provided names := by
  have hdecl : .array (arrayCell d.name) (liveness (arrayCell d.name)) d.size ∈
      declarations names :=
    List.mem_append_left _ (List.mem_append_right _ (List.mem_map.mpr ⟨d, hd, rfl⟩))
  exact ⟨mem_provided hdecl List.mem_cons_self,
    mem_provided hdecl (List.mem_cons_of_mem _ List.mem_cons_self)⟩

theorem provided_of_mem_flags
    {f : Bytes}
    (hf : f ∈ names.flags.toList) :
    .label f ∈ provided names ∧ .live (liveness (flagCell f)) ∈ provided names := by
  have hdecl : .flag (liveness (flagCell f)) ∈ declarations names :=
    List.mem_append_right _ (List.mem_map_of_mem hf)
  exact ⟨List.mem_append_right _ (List.mem_map_of_mem hf),
    mem_provided hdecl List.mem_cons_self⟩

theorem provided_var
    {v : Nat}
    (hv : v < (names.table .variable).length) :
    .scalar (varCell (names.varName v)) ∈ provided names ∧
      .live (liveness (varCell (names.varName v))) ∈ provided names :=
  provided_of_mem_vars
    (List.mem_of_getElem? (Names.table_varName (by simpa [Names.table] using hv)))

theorem provided_array
    {a : Nat}
    (ha : a < (names.table .array).length) :
    .array (arrayCell (names.arrayDecl a).name) ∈ provided names ∧
      .live (liveness (arrayCell (names.arrayDecl a).name)) ∈ provided names := by
  have hsize : a < names.arrays.size := by simpa [Names.table] using ha
  exact provided_of_mem_arrays (by simp [Names.arrayDecl, hsize])

theorem provided_flag
    {f : Nat}
    (hf : f < (names.table .flag).length) :
    .label (names.flagName f) ∈ provided names ∧
      .live (liveness (flagCell (names.flagName f))) ∈ provided names :=
  provided_of_mem_flags
    (List.mem_of_getElem? (Names.table_flagName (by simpa [Names.table] using hf)))

theorem refs_position
    {i : Index}
    (h : names.Covers i.mentions) :
    (position names i).refs ⊆ provided names := by
  cases i with
  | literal n => exact List.nil_subset _
  | var v =>
      have hv := (provided_var (Names.lt_of_covers_only h)).1
      exact subset_provided hv

theorem refs_lvalue
    {p : Place}
    (h : names.Covers p.mentions) :
    (lvalue names p).refs ⊆ provided names := by
  cases p with
  | var v =>
      have hv := (provided_var (Names.lt_of_covers_only h)).1
      exact subset_provided hv
  | element a i =>
      obtain ⟨ha, hi⟩ := Names.covers_append.mp h
      have hcells := (provided_array (Names.lt_of_covers_only ha)).1
      exact List.cons_subset.mpr ⟨hcells, refs_position hi⟩

theorem refs_expr
    {v : Operand}
    (h : names.Covers v.mentions) :
    (expr names v).refs ⊆ provided names := by
  cases v with
  | literal n => exact List.nil_subset _
  | stored p => exact refs_lvalue h

theorem refs_checkPlace
    {p : Place}
    (h : names.Covers p.mentions) :
    (checkPlace names p).flatMap Stmt.refs ⊆ provided names := by
  cases p with
  | var v =>
      have hv := (provided_var (Names.lt_of_covers_only h)).2
      exact subset_provided hv
  | element a i =>
      obtain ⟨ha, hi⟩ := Names.covers_append.mp h
      have hlive := (provided_array (Names.lt_of_covers_only ha)).2
      cases i with
      | literal n => exact subset_provided hlive
      | var v =>
          have hv := (provided_var (Names.lt_of_covers_only hi)).2
          exact List.cons_subset.mpr ⟨hv, subset_provided hlive⟩

theorem refs_check
    {v : Operand}
    (h : names.Covers v.mentions) :
    (check names v).flatMap Stmt.refs ⊆ provided names := by
  cases v with
  | literal n => exact List.nil_subset _
  | stored p => exact refs_checkPlace h

theorem refs_arithmetic
    {v : Operand} {target : Place} (shift compensate : Sign)
    (h : names.Covers fun k => v.mentions k ++ target.mentions k) :
    (arithmetic names v target shift compensate).flatMap Stmt.refs ⊆ provided names := by
  obtain ⟨hv, htarget⟩ := Names.covers_append.mp h
  have hchecked := refs_checkPlace htarget
  have hcell := refs_lvalue htarget
  cases v with
  | literal n => simpa [arithmetic, check, expr, Expr.refs, Stmt.refs, hcell] using hchecked
  | stored p =>
      have hvalue := refs_lvalue hv
      simpa [arithmetic, check, expr, Expr.refs, Stmt.refs, hcell, hchecked, hvalue] using
        refs_checkPlace hv

/-- A statement refers to the names that its operation mentions. -/
theorem refs_statements
    {op : Op}
    (h : names.Covers op.mentions) :
    (statements names op).flatMap Stmt.refs ⊆ provided names := by
  cases op with
  | define v =>
      obtain ⟨hcell, hlive⟩ := provided_var (Names.lt_of_covers_only h)
      exact List.cons_subset.mpr ⟨hcell, subset_provided hlive⟩
  | defineArray a =>
      obtain ⟨hcells, hlive⟩ := provided_array (Names.lt_of_covers_only h)
      exact List.cons_subset.mpr ⟨hcells, subset_provided hlive⟩
  | undefine v =>
      exact subset_provided (provided_var (Names.lt_of_covers_only h)).2
  | undefineArray a =>
      exact subset_provided (provided_array (Names.lt_of_covers_only h)).2
  | read target =>
      have hcell := refs_lvalue h
      simpa [statements, Stmt.refs, hcell] using refs_checkPlace h
  | print v =>
      have hvalue := refs_expr h
      simpa [statements, Stmt.refs, hvalue] using refs_check h
  | printChar v =>
      have hvalue := refs_expr h
      simpa [statements, Stmt.refs, hvalue] using refs_check h
  | add v target => exact refs_arithmetic _ _ h
  | subtract v target => exact refs_arithmetic _ _ h
  | openBlock => exact List.nil_subset _
  | closeBlock a b c => exact List.nil_subset _
  | mark f => exact List.nil_subset _
  | unmark f =>
      exact subset_provided (provided_flag (Names.lt_of_covers_only h)).2
  | pin f =>
      obtain ⟨hlabel, hlive⟩ := provided_flag (Names.lt_of_covers_only h)
      exact List.cons_subset.mpr ⟨hlive, subset_provided hlabel⟩
  | goto => exact List.nil_subset _

theorem refs_head
    {a b : Operand} (c : Comparison)
    (h : names.Covers fun k => a.mentions k ++ b.mentions k) :
    (head names a b c).refs ⊆ provided names := by
  obtain ⟨ha, hb⟩ := Names.covers_append.mp h
  have hchecks : (check names a ++ check names b).flatMap Stmt.refs ⊆ provided names := by
    rw [List.flatMap_append]
    exact List.append_subset.mpr ⟨refs_check ha, refs_check hb⟩
  exact List.append_subset.mpr
    ⟨List.append_subset.mpr ⟨hchecks, refs_expr ha⟩, refs_expr hb⟩

/-- All statements and heads of a block refer to what the names are there for. -/
theorem refs_block
    {n : Nesting} {ls : List OpLine}
    (h : n.Spells ls)
    (hcov : ∀ l ∈ ls, names.Covers l.op.mentions) :
    (block names n).refs ⊆ provided names := by
  induction h with
  | done => exact List.nil_subset _
  | @op l next ls hplain _ ih =>
      obtain ⟨hl, hls⟩ := List.forall_mem_cons.mp hcov
      exact List.append_subset.mpr ⟨refs_statements hl, ih hls⟩
  | @block first last a b c body next inner ls hfirst hlast _ _ ihBody ihNext =>
      have hbody := ihBody fun l hl => hcov l (by simp [hl])
      have hnext := ihNext fun l hl => hcov l (by simp [hl])
      have hclose := hcov last (by simp)
      rw [hlast] at hclose
      exact List.append_subset.mpr ⟨List.append_subset.mpr ⟨refs_head c hclose, hbody⟩, hnext⟩

theorem refs_leakChecks
    (names : Names) :
    (leakChecks names).flatMap LeakCheck.refs ⊆ provided names := by
  intro r hr
  obtain ⟨k, hk, hr⟩ := List.mem_flatMap.mp hr
  obtain rfl := List.mem_singleton.mp hr
  simp only [leakChecks, List.mem_append, List.mem_map] at hk
  rcases hk with (⟨x, hx, rfl⟩ | ⟨d, hd, rfl⟩) | ⟨f, hf, rfl⟩
  · exact (provided_of_mem_vars hx).2
  · exact (provided_of_mem_arrays hd).2
  · exact (provided_of_mem_flags hf).2

end References

section Labels

/-- The row starts with the label and the two signs that place it. -/
def places (l : Ident) (row : Bytes) : Bool :=
  (l ++ ascii ":;").isPrefixOf row

variable {names : Names} {l : Ident}

theorem places_iff
    {row : Bytes} :
    places l row = true ↔ l ++ ascii ":;" <+: row :=
  List.isPrefixOf_iff_prefix

/-- In a row that places a label, the two signs come after the first word. -/
theorem places_eq_false
    {row : Bytes}
    (hl : IsWord l)
    (h : (ascii ":;").isPrefixOf (row.dropWhile Spelling.isIdentifierByte) = false) :
    places l row = false := by
  rw [← Bool.not_eq_true, places_iff]
  rintro ⟨rest, rfl⟩
  rw [List.append_assoc, (span_append hl.2 rfl).2] at h
  cases h

/-- A statement places the labels that it starts with. -/
theorem places_stmt_iff
    {st : Stmt}
    (hl : IsWord l)
    (hst : st.IsReadable) (rest : Bytes) :
    places l (st.render ++ rest) = true ↔ st = .place l := by
  rw [places_iff]
  constructor
  · rintro ⟨rest', hrest⟩
    have hread := Reader.stmt_render rest hst
    rw [← hrest] at hread
    have hplace : Reader.stmt ((Stmt.place l).render ++ rest') = some (.place l, rest') :=
      Reader.stmt_render rest' hl
    exact (Prod.mk.inj (Option.some.inj (hread.symm.trans hplace))).1
  · rintro rfl
    exact List.prefix_append _ _

theorem places_line_iff
    (hl : IsWord l) {o : OpLine}
    (hread : (line names o).IsReadable) :
    places l (Reader.Row.render (.line (line names o))) = true ↔
      .place l ∈ statements names o.op := by
  cases hbraced : isBraced o.op with
  | true =>
      have hrow : places l (Reader.Row.render (.line (line names o))) = false := by
        refine places_eq_false hl ?_
        simp only [Reader.Row.render, Line.renderBody, line, hbraced, if_true]
        rfl
      have hnone : .place l ∉ statements names o.op := by
        intro hmem
        obtain ⟨f, hf, -⟩ := Machine.place_mem_statements.mp hmem
        rw [hf] at hbraced
        cases hbraced
      simp [hrow, hnone]
  | false =>
      have hrow : Reader.Row.render (.line (line names o)) =
          (statements names o.op).flatMap Stmt.render ++ (ascii "//" ++ annotation o.text) := by
        simp [Reader.Row.render, Line.renderBody, line, hbraced]
      rw [hrow]
      cases hstmts : statements names o.op with
      | nil =>
          have hnone : places l (ascii "//" ++ annotation o.text) = false :=
            places_eq_false hl rfl
          simp [hnone]
      | cons st sts =>
          have hst : st.IsReadable := hread.body st (by simp [line, hstmts])
          rw [List.flatMap_cons, List.append_assoc, places_stmt_iff hl hst]
          constructor
          · rintro rfl
            exact List.mem_cons_self
          · intro hmem
            rw [← hstmts] at hmem
            obtain ⟨f, hf, rfl⟩ := Machine.place_mem_statements.mp hmem
            rw [hf] at hstmts
            exact (List.cons.inj hstmts).1.symm

theorem countP_line
    (hl : IsWord l) {o : OpLine}
    (hread : (line names o).IsReadable) :
    (if places l (Reader.Row.render (.line (line names o))) = true then 1 else 0) =
      ((line names o).body.filterMap Stmt.label?).count l := by
  by_cases hmem : .place l ∈ statements names o.op
  · obtain ⟨f, hf, rfl⟩ := Machine.place_mem_statements.mp hmem
    rw [if_pos ((places_line_iff hl hread).mpr hmem)]
    simp [line, hf, statements, Stmt.label?]
  · rw [if_neg (mt (places_line_iff hl hread).mp hmem), eq_comm, List.count_eq_zero]
    intro hlabel
    obtain ⟨st, hst, hst'⟩ := List.mem_filterMap.mp hlabel
    cases st with
    | place x =>
        cases hst'
        exact hmem hst
    | _ => cases hst'

theorem places_head
    (hl : IsWord l) {a b : Operand} {c : Comparison}
    (hread : (head names a b c).IsReadable) :
    places l (Reader.Row.render (.opens (head names a b c))) = false := by
  rw [Reader.Row.render]
  cases hchecks : (head names a b c).checks with
  | nil => exact places_eq_false hl rfl
  | cons st sts =>
      have hmem : st ∈ check names a ++ check names b := by
        change st ∈ (head names a b c).checks
        rw [hchecks]
        exact List.mem_cons_self
      rw [List.flatMap_cons, List.append_assoc, ← Bool.not_eq_true,
        places_stmt_iff hl (hread.checks st hmem)]
      rintro rfl
      rcases List.mem_append.mp hmem with hmem | hmem
      · exact Machine.place_notMem_check a hmem
      · exact Machine.place_notMem_check b hmem

/-- The rows of a block that place a label. -/
theorem countP_rows
    (hl : IsWord l)
    {n : Nesting} {ls : List OpLine}
    (hn : n.Spells ls)
    (hlines : ∀ o ∈ ls, (line names o).IsReadable)
    (hheads : ∀ a b c, (head names a b c).IsReadable) :
    ((Reader.rows (block names n)).map Reader.Row.render).countP (places l) =
      (block names n).labels.count l := by
  induction hn with
  | done => rfl
  | @op o next ls hplain _ ih =>
      obtain ⟨ho, hls⟩ := List.forall_mem_cons.mp hlines
      simp only [block, Reader.rows, Block.labels, List.map_cons, List.countP_cons,
        List.count_append, ih hls, countP_line hl ho]
      exact Nat.add_comm _ _
  | @block first last a b c body next inner ls hfirst hlast _ _ ihBody ihNext =>
      have hbody := ihBody fun o ho => hlines o (by simp [ho])
      have hnext := ihNext fun o ho => hlines o (by simp [ho])
      have hcloses : places l (Reader.Row.render .closes) = false := places_eq_false hl rfl
      simp only [block, Reader.rows, Block.labels, List.map_cons, List.map_append,
        List.countP_cons, List.countP_append, List.count_append, hbody, hnext, hcloses,
        places_head hl (hheads a b c)]
      simp

/-- A row that places no label, whatever the label is. -/
def isFixedRow (row : Bytes) : Bool :=
  !(ascii ":;").isPrefixOf (row.dropWhile Spelling.isIdentifierByte)

theorem isFixedRow_ascii
    {cs : List Char}
    (h : isFixedRow (cs.map Char.toUInt8) = true) :
    isFixedRow (ascii (String.ofList cs)) = true := by
  rwa [ascii_ofList]

set_option maxRecDepth 2000 in
theorem isFixedRow_preambleLines :
    ∀ row ∈ preambleLines.map ascii, isFixedRow row = true := by
  unfold preambleLines
  simp only [List.forall_mem_map, List.forall_mem_cons]
  refine ⟨?_, ?_, ?_, ?_, ?_, ?_, ?_, ?_, ?_, ?_, ?_, ?_, ?_, ?_, ?_, ?_, ?_, nofun⟩
  all_goals exact isFixedRow_ascii (by decide +kernel)

theorem countP_fixed
    (hl : IsWord l) {rows : List Bytes}
    (h : ∀ row ∈ rows, isFixedRow row = true) :
    rows.countP (places l) = 0 := by
  refine List.countP_eq_zero.mpr fun row hrow => ?_
  rw [places_eq_false hl (Bool.not_eq_true' _ ▸ h row hrow)]
  exact Bool.false_ne_true

/-- The lines of a text that place a label are rows of its body. -/
theorem countP_splitOn
    (hl : IsWord l) {ds : List Decl} {b : Block} {leaks : List LeakCheck}
    (h : (Code.main ds b leaks).IsReadable) :
    (Bytes.splitOn '\n'.toUInt8 (Code.main ds b leaks).render).countP (places l) =
      ((Reader.rows b).map Reader.Row.render).countP (places l) := by
  have htop := countP_fixed hl isFixedRow_preambleLines
  have hdecls : (ds.map Reader.declText).countP (places l) = 0 := by
    refine List.countP_eq_zero.mpr fun row hrow => ?_
    obtain ⟨d, -, rfl⟩ := List.mem_map.mp hrow
    rw [places_eq_false hl (by cases d <;> rfl)]
    exact Bool.false_ne_true
  have hleaks : places l (leaks.flatMap LeakCheck.render) = false :=
    places_eq_false hl (by cases leaks <;> rfl)
  have hmain : places l (ascii "int main()\x7b") = false := places_eq_false hl rfl
  have hbrace : places l (ascii "\x7d") = false := places_eq_false hl rfl
  have hend : places l [] = false := places_eq_false hl rfl
  rw [splitOn_render h, List.countP_append, htop, lineTexts]
  simp [List.countP_append, hdecls, hleaks, hmain, hbrace, hend]

end Labels

section Programs

variable {p : Program} {lines : List TokenLine} {below : Nat}

theorem flags_nodup
    (hp : p.ReadFrom lines below) :
    p.names.flags.toList.Nodup :=
  hp.distinct.sublist (List.sublist_append_right _ _)

/-- Every flag has one label. -/
theorem labels_perm
    (hp : p.ReadFrom lines below)
    {n : Nesting}
    (hn : n.Spells p.ops.toList) :
    (block p.names n).labels.Perm p.names.flags.toList := by
  refine (List.perm_ext_iff_of_nodup (Machine.labels_nodup hp hn) (flags_nodup hp)).mpr ?_
  intro x
  rw [Machine.labels_block hn, List.mem_filterMap]
  constructor
  · rintro ⟨o, ho, hx⟩
    obtain ⟨f, hf, rfl⟩ := Option.map_eq_some_iff.mp hx
    obtain ⟨i, hi⟩ := List.mem_iff_getElem?.mp ho
    have hi' : p.ops[i]? = some o := by simpa using hi
    exact List.mem_of_getElem? (Machine.flag_of_mark hp hi' (Machine.marked?_eq_some.mp hf))
  · intro hx
    obtain ⟨f, hf⟩ := List.mem_iff_getElem?.mp hx
    have hlt : f < (p.names.table .flag).length := (List.getElem?_eq_some_iff.mp hf).1
    have hname : (p.names.table .flag)[f]? = some (p.names.flagName f) :=
      Names.table_flagName (by simpa [Names.table] using hlt)
    have hmem : Op.mark f ∈ p.ops.toList.map OpLine.op := by
      rw [← List.count_pos_iff, hp.markedOnce f hlt]
      exact Nat.one_pos
    obtain ⟨o, ho, hmark⟩ := List.mem_map.mp hmem
    refine ⟨o, ho, ?_⟩
    rw [Machine.marked?_eq_some.mpr hmark, Option.map_some, ← hname]
    exact hf

/-- A program without operations has no names. -/
theorem names_of_isEmpty
    (hp : p.ReadFrom lines below)
    (hempty : p.ops.isEmpty = true) :
    p.names.vars.toList = [] ∧ p.names.arrays.toList = [] ∧ p.names.flags.toList = [] := by
  have htable (k : NameKind) : p.names.table k = [] := by
    by_contra hne
    obtain ⟨i, o, -, ho, -⟩ := hp.introduced k 0 (List.length_pos_of_ne_nil hne)
    rw [Array.isEmpty_iff.mp hempty] at ho
    cases ho
  exact ⟨htable .variable, List.map_eq_nil_iff.mp (htable .array), htable .flag⟩

end Programs

/-- **No two names collide in the generated C.**  For every program that a source gives, the
identifiers that are declared for its names are identifiers of C that neither the language, its
compilers nor the fixed text use, and no two of them are the same; nor are two flags.  The C
text of the program declares these identifiers and places every flag once, by the only line
that starts with it, a colon and a semicolon.  Whatever a statement, the head of a block or a
leak check refers to is declared as what it is used for, or placed.  The lines of the text end at
its line feeds; if no comment holds a carriage return, these are the lines of a compiler. -/
theorem names_do_not_collide
    {source : Bytes} {p : Program}
    (hp : Program.ofSource source = .ok p) :
    (identifiers p.names).Nodup ∧
    (∀ x ∈ identifiers p.names,
      Spelling.isIdentifier x = true ∧ x ∉ reservedWords ∧ x ∉ ownNames) ∧
    p.names.flags.toList.Nodup ∧
    ∀ text, p.toC = .ok text →
      ∃ code : Code, File.ofLines? (Bytes.splitOn '\n'.toUInt8 text) = some code.file ∧
        (p.ReturnFree → File.ofText? text = some code.file) ∧
        code.declared = identifiers p.names ∧
        code.labels.Perm p.names.flags.toList ∧
        (∀ l ∈ p.names.flags.toList,
          (Bytes.splitOn '\n'.toUInt8 text).countP (places l) = 1) ∧
        ∀ r ∈ code.refs, r ∈ code.provided := by
  obtain ⟨lines, hread, hsizes, -⟩ := Program.readFrom_ofSource hp
  refine ⟨identifiers_nodup hread.distinct, fun x hx => identifiers_spec hread.allowed hx,
    flags_nodup hread, ?_⟩
  intro text htext
  obtain ⟨code, hcode, hlines, hspelled⟩ := ofText?_toC hp htext
  refine ⟨code, hlines, fun hfree => hspelled ((return_notMem_toC hp htext).mpr hfree), ?_⟩
  have hrender : text = code.render := by
    unfold Program.toC at htext
    rw [hcode] at htext
    exact (Except.ok.inj htext).symm
  unfold Code.ofProgram at hcode
  split_ifs at hcode with hempty
  · cases hcode
    obtain ⟨hvars, harrays, hflags⟩ := names_of_isEmpty hread hempty
    refine ⟨?_, ?_, ?_, ?_⟩
    · rw [identifiers, hvars, harrays, hflags]
      rfl
    · rw [hflags]
      exact List.Perm.nil
    · rw [hflags]
      exact fun l hl => absurd hl List.not_mem_nil
    · exact fun r hr => absurd hr List.not_mem_nil
  · obtain ⟨n, hn, rfl⟩ := map_eq_ok_iff.mp hcode
    obtain ⟨hspells, -⟩ := ofOps_of_nesting hn
    have hnames : HasWords p.names :=
      fun k name hname => isWord_of_allowed (hread.allowed k name hname)
    have hperm := labels_perm hread hspells
    refine ⟨?_, hperm, ?_, ?_⟩
    · rw [identifiers_eq, Code.declared, objects_declarations, List.map_map]
      rfl
    · intro l hl
      have hword : IsWord l := hnames .flag l hl
      rw [hrender, countP_splitOn hword (readable_main hp hspells),
        countP_rows hword hspells
          (fun o ho => readable_line hnames hsizes (hread.covered o ho) (isLine_annotation_text hp ho))
          (readable_head hnames),
        hperm.count_eq]
      exact List.count_eq_one_of_mem (flags_nodup hread) hl
    · intro r hr
      have hsub : provided p.names ⊆ Code.provided (Code.main (declarations p.names)
          (block p.names n) (leakChecks p.names)) :=
        List.append_subset.mpr ⟨List.subset_append_left _ _,
          fun r hr => List.mem_append_right _ ((hperm.map Ref.label).mem_iff.mpr hr)⟩
      rcases List.mem_append.mp hr with hr | hr
      · exact hsub (refs_block hspells hread.covered hr)
      · exact hsub (refs_leakChecks p.names hr)

/-- Names that look like parts of the generated text. -/
def lookalikes : Bytes :=
  Listing.join (["forget global", "global:;/ read to f_i[i]", "unmark global",
    "undefine single f_i[2]", "undefine i"].map ascii)

theorem lookalikes_do_not_collide :
    ∃ r, Build.product lookalikes = .ok r ∧
      identifiers r.program.names =
        ["__i", "_isOn__i", "_a_f_i", "_isOn_a_f_i", "_isOn_f_global"].map ascii ∧
      (identifiers r.program.names).Nodup ∧
      (Bytes.splitOn '\n'.toUInt8 r.code).countP (places (ascii "global")) = 1 := by
  have hnames : (Build.product lookalikes).map (fun r => r.program.names) =
      .ok ⟨#[ascii "i"], #[⟨ascii "f_i", 2⟩], #[ascii "global"]⟩ := by
    decide +kernel
  obtain ⟨r, hr, hrnames⟩ := map_eq_ok_iff.mp hnames
  obtain ⟨hprogram, hcode⟩ := ofSource_of_run hr
  obtain ⟨hnodup, -, -, htext⟩ := names_do_not_collide hprogram
  obtain ⟨-, -, -, -, -, honce, -⟩ := htext r.code hcode
  refine ⟨r, hr, ?_, hnodup, honce _ ?_⟩
  · rw [hrnames]
    decide +kernel
  · rw [hrnames]
    exact List.mem_singleton.mpr rfl

end Target
end Contrary
