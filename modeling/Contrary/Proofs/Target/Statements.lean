import Contrary.Proofs.Target.Reader
import Contrary.Proofs.Text
import Contrary.Target.Printer

/-!
# Reading back a statement

A statement of the generated C is read back from its text, whatever text comes
after it.

**Conditions.**  The names in the statement have to be words of C, so that the
reader finds their ends, and the names of its objects have to start with an
underscore, which sets them apart from the other words.  `Stmt.IsReadable` says so
for every kind of statement.

**Ends of words.**  A name or a number is read back only if the text after it
cannot continue it.  The lemmas on words have this as a hypothesis, which the
punctuation of each statement meets.

**Results.**
* `stmt_render`: the reader takes exactly one statement off its text.
* `stmts_render`: it takes a sequence of statements, up to a text with which no
  statement starts.
-/

namespace Contrary
namespace Target

section Conditions

/-- A nonempty run of letters, digits and underscores. -/
def IsWord (x : Ident) : Prop :=
  x ≠ [] ∧ ∀ b ∈ x, Spelling.isIdentifierByte b = true

/-- A word that starts with an underscore. -/
def IsObjectName (x : Ident) : Prop :=
  x.head? = some '_'.toUInt8 ∧ IsWord x

def Position.IsReadable : Position → Prop
  | .literal _ => True
  | .shown x => IsObjectName x

def LValue.IsReadable : LValue → Prop
  | .scalar x => IsObjectName x
  | .element a i => IsObjectName a ∧ i.IsReadable

def Expr.IsReadable : Expr → Prop
  | .literal _ => True
  | .shown cell => cell.IsReadable

/-- The names in a statement are such that its text can be read. -/
def Stmt.IsReadable : Stmt → Prop
  | .assertLive x | .setLive x _ | .clear x => IsObjectName x
  | .clearAll a size => IsObjectName a ∧ 0 ≤ size
  | .scan cell | .rebase cell | .saveAddress cell | .moveCell cell _ => cell.IsReadable
  | .printNumber e | .printChar e | .saveValue e => e.IsReadable
  | .place x | .take x => IsWord x
  | .moveOffset _ | .moveSaved _ | .goto => True

end Conditions

namespace Reader

section Words

theorem skip_append
    (word : String) (rest : Bytes) :
    skip word (ascii word ++ rest) = some rest :=
  List.isPrefixOf?_eq_some_iff_append_eq.mpr rfl

theorem skip_eq_none
    {word : String} {s : Bytes} (p : UInt8 → Bool)
    (hword : (ascii word).head?.any p = true)
    (hs : s.head?.any p = false) :
    skip word s = none := by
  unfold skip
  cases hx : ascii word with
  | nil => simp [hx] at hword
  | cons c x =>
      cases s with
      | nil => rfl
      | cons b s =>
          have hc : p c = true := by simpa [hx] using hword
          have hb : p b = false := by simpa using hs
          have hne : c ≠ b := by
            rintro rfl
            simp [hc] at hb
          simp [List.isPrefixOf?, hne]

theorem before_append
    {α : Type} {read : Bytes → Option (α × Bytes)} {x : α} {s : Bytes}
    (word : String) (rest : Bytes)
    (h : read s = some (x, ascii word ++ rest)) :
    before read word s = some (x, rest) := by
  simp only [before, h, skip_append, Option.bind_eq_bind, Option.bind_some, Option.pure_def]

theorem name_append
    {x rest : Bytes}
    (hx : IsWord x)
    (hrest : rest.head?.any Spelling.isIdentifierByte = false) :
    name (x ++ rest) = some (x, rest) := by
  obtain ⟨hne, hall⟩ := hx
  obtain ⟨htake, hdrop⟩ := span_append hall hrest
  unfold name
  rw [htake, hdrop]
  cases x with
  | nil => exact absurd rfl hne
  | cons b x => rfl

theorem digitsValue_append
    (s : Bytes) (b : UInt8) :
    digitsValue (s ++ [b]) = 10 * digitsValue s + (b.toNat - 48) := by
  simp [digitsValue, List.foldl_append]

theorem digitsValue_decimalNat
    (n : Nat) :
    digitsValue (Bytes.decimalNat n) = n := by
  fun_induction Bytes.decimalNat n with
  | case1 n hn => simpa [digitsValue] using (isDigit_digit n hn).2
  | case2 n hn ih =>
      rw [digitsValue_append, ih, (isDigit_digit _ (Nat.mod_lt n (by decide))).2]
      omega

theorem natural_append
    (n : Nat) {rest : Bytes}
    (hrest : rest.head?.any Bytes.isDigit = false) :
    natural (Bytes.decimalNat n ++ rest) = some (n, rest) := by
  obtain ⟨htake, hdrop⟩ := span_append (isDigit_decimalNat n) hrest
  unfold natural
  rw [htake, hdrop]
  split
  · rename_i hnil
    obtain ⟨b, s, hs, -⟩ := decimalNat_eq_cons n
    exact absurd (hs.symm.trans hnil) (List.cons_ne_nil b s)
  · rw [digitsValue_decimalNat]

theorem toInt_nonneg
    {n : Int32}
    (hn : ¬ n < 0) :
    0 ≤ n.toInt :=
  Int.not_lt.mp fun h => hn (Int32.lt_iff_toInt_lt.mpr h)

theorem literal_append
    (n : Int32) {rest : Bytes}
    (hrest : rest.head?.any Bytes.isDigit = false) :
    literal (renderLiteral n ++ rest) = some (n, rest) := by
  have hlow := n.le_toInt
  have hhigh := n.toInt_lt
  unfold renderLiteral
  split_ifs with hn
  · have hneg : n.toInt < 0 := Int32.lt_iff_toInt_lt.mp hn
    obtain ⟨k, hk⟩ := Int.eq_negSucc_of_lt_zero hneg
    have htext : ascii "(" ++ Bytes.decimal n.toInt ++ ascii ")" ++ rest =
        ascii "(-" ++ (Bytes.decimalNat (k + 1) ++ (ascii ")" ++ rest)) := by
      rw [hk]
      simp [Bytes.decimal, ascii]
    have hdigits : before natural ")" (Bytes.decimalNat (k + 1) ++ (ascii ")" ++ rest)) =
        some (k + 1, rest) := before_append ")" rest (natural_append _ rfl)
    have hvalue : Int32.ofInt (-((k + 1 : Nat) : Int)) = n := by
      rw [show -((k + 1 : Nat) : Int) = n.toInt by omega, Int32.ofInt_toInt]
    have hle : k + 1 ≤ 1 <<< 31 := by omega
    rw [htext]
    simp only [literal, skip_append, hdigits, Option.bind_eq_bind, Option.bind_some, if_pos hle,
      hvalue, Option.pure_def]
  · obtain ⟨k, hk⟩ := Int.eq_ofNat_of_zero_le (toInt_nonneg hn)
    have hdigits : natural (Bytes.decimalNat k ++ rest) = some (k, rest) := natural_append _ hrest
    have hskip : skip "(-" (Bytes.decimalNat k ++ rest) = none := by
      obtain ⟨b, s, hs, hb⟩ := decimalNat_eq_cons k
      exact skip_eq_none (fun b => !Bytes.isDigit b) rfl (by simp [hs, hb])
    have hvalue : Int32.ofInt (k : Int) = n := by
      rw [← hk, Int32.ofInt_toInt]
    have hlt : k < 1 <<< 31 := by omega
    rw [hk]
    change literal (Bytes.decimalNat k ++ rest) = _
    simp only [literal, hskip, hdigits, Option.bind_eq_bind, Option.bind_some, if_pos hlt,
      hvalue, Option.pure_def]

end Words

section Expressions

/-- The bytes after a name that make it longer, or a label, a type or the target of an
assignment. -/
def goesOn (b : UInt8) : Bool :=
  Spelling.isIdentifierByte b || (ascii ":= ").contains b

theorem word_of_goesOn
    {rest : Bytes}
    (h : rest.head?.any goesOn = false) :
    rest.head?.any Spelling.isIdentifierByte = false := by
  cases rest with
  | nil => rfl
  | cons b rest => simp_all [goesOn]

theorem head?_literal
    (n : Int32) (rest : Bytes) :
    (renderLiteral n ++ rest).head?.any (fun b => !Bytes.isDigit b && b != '('.toUInt8) = false := by
  unfold renderLiteral
  split_ifs with hn
  · rfl
  · obtain ⟨k, hk⟩ := Int.eq_ofNat_of_zero_le (toInt_nonneg hn)
    obtain ⟨b, s, hs, hb⟩ := decimalNat_eq_cons k
    have htext : Bytes.decimal n.toInt = b :: s := by rw [hk, ← hs]; rfl
    simp [htext, hb]

/-- A number does not start as a call does. -/
theorem skip_get_literal
    (n : Int32) (rest : Bytes) :
    skip "get(" (renderLiteral n ++ rest) = none :=
  skip_eq_none _ rfl (head?_literal n rest)

theorem position_append
    {i : Position} {rest : Bytes}
    (hi : i.IsReadable)
    (hrest : rest.head?.any Bytes.isDigit = false) :
    position (i.render ++ rest) = some (i, rest) := by
  cases i with
  | literal n =>
      simp only [position, Position.render, skip_get_literal, literal_append n hrest,
        Option.map_some, Prod.map, id]
  | shown x =>
      have hname : before name ")" (x ++ (ascii ")" ++ rest)) = some (x, rest) :=
        before_append ")" rest (name_append hi.2 rfl)
      simp only [position, Position.render, renderGet, List.append_assoc, skip_append, hname,
        Option.map_some, Prod.map, id]

/-- A cell is a name and a subscript, which a variable does not have. -/
theorem subscript_append
    {cell : LValue} {rest : Bytes}
    (hcell : cell.IsReadable)
    (hrest : rest.head?.any goesOn = false)
    (hbracket : skip "[" rest = none) :
    ∃ x more, cell.render ++ rest = x ++ more ∧ IsObjectName x ∧
      more.head?.any goesOn = false ∧ subscript x more = some (cell, rest) := by
  cases cell with
  | scalar x =>
      refine ⟨x, rest, rfl, hcell, hrest, ?_⟩
      simp only [subscript, hbracket]
  | element a i =>
      refine ⟨a, ascii "[" ++ (i.render ++ (ascii "]" ++ rest)), ?_, hcell.1, rfl, ?_⟩
      · simp only [LValue.render, List.append_assoc]
      · have hi : before position "]" (i.render ++ (ascii "]" ++ rest)) = some (i, rest) :=
          before_append "]" rest (position_append hcell.2 rfl)
        simp only [subscript, skip_append, hi, Option.map_some, Prod.map, id]

theorem lvalue_append
    {cell : LValue} {rest : Bytes}
    (hcell : cell.IsReadable)
    (hrest : rest.head?.any goesOn = false)
    (hbracket : skip "[" rest = none) :
    lvalue (cell.render ++ rest) = some (cell, rest) := by
  obtain ⟨x, more, htext, hx, hmore, hsub⟩ := subscript_append hcell hrest hbracket
  simp only [htext, lvalue, name_append hx.2 (word_of_goesOn hmore), hsub, Option.bind_eq_bind,
    Option.bind_some]

theorem expr_append
    {e : Expr} {rest : Bytes}
    (he : e.IsReadable)
    (hrest : rest.head?.any Bytes.isDigit = false) :
    expr (e.render ++ rest) = some (e, rest) := by
  cases e with
  | literal n =>
      simp only [expr, Expr.render, skip_get_literal, literal_append n hrest,
        Option.map_some, Prod.map, id]
  | shown cell =>
      have hcell : before lvalue ")" (cell.render ++ (ascii ")" ++ rest)) = some (cell, rest) :=
        before_append ")" rest (lvalue_append he rfl rfl)
      simp only [expr, Expr.render, renderGet, List.append_assoc, skip_append, hcell,
        Option.map_some, Prod.map, id]

/-- An expression does not make the operator before it longer. -/
theorem skip_equals_expr
    (e : Expr) (rest : Bytes) :
    skip "=" (e.render ++ rest) = none := by
  cases e with
  | literal n => exact skip_eq_none _ rfl (head?_literal n rest)
  | shown cell => rfl

theorem comparison_append
    (c : Comparison) {rest : Bytes}
    (hrest : skip "=" rest = none) :
    comparison (c.symbol ++ rest) = some (c, rest) := by
  have hless : skip "<=" (ascii "<" ++ rest) = none := hrest
  have hgreater : skip ">=" (ascii ">" ++ rest) = none := hrest
  cases c with
  | less =>
      simp only [comparison, Comparison.symbol, hless]
      rfl
  | greater =>
      simp only [comparison, Comparison.symbol, hgreater]
      rfl
  | _ => rfl

end Expressions

section Statements

/-- A statement that starts with a word. -/
theorem stmt_append
    {x rest : Bytes}
    (hx : IsWord x)
    (hrest : rest.head?.any Spelling.isIdentifierByte = false) :
    stmt (x ++ rest) =
      match skip ":;" rest with
      | some s => some (.place x, s)
      | none => if x.head? = some '_'.toUInt8 then objectStmt x rest else wordStmt x rest := by
  have hparen : skip "(*addr)" (x ++ rest) = none := by
    refine skip_eq_none (fun b => !Spelling.isIdentifierByte b) rfl ?_
    obtain ⟨hne, hall⟩ := hx
    cases x with
    | nil => exact absurd rfl hne
    | cons b x => simpa using hall b (by simp)
  cases hlabel : skip ":;" rest with
  | some s =>
      simp only [stmt, hparen, name_append hx hrest, hlabel, Option.bind_eq_bind, Option.bind_some,
        Option.pure_def]
  | none =>
      simp only [stmt, hparen, name_append hx hrest, hlabel, Option.bind_eq_bind, Option.bind_some]

theorem stmt_object
    {x rest : Bytes}
    (hx : IsObjectName x)
    (hrest : rest.head?.any Spelling.isIdentifierByte = false)
    (hlabel : skip ":;" rest = none) :
    stmt (x ++ rest) = objectStmt x rest := by
  rw [stmt_append hx.2 hrest, hlabel]
  exact if_pos hx.1

/-- A statement that starts with a cell. -/
theorem stmt_cell
    {cell : LValue} {rest : Bytes}
    (hcell : cell.IsReadable)
    (hrest : rest.head?.any goesOn = false)
    (hbracket : skip "[" rest = none) :
    stmt (cell.render ++ rest) =
      (((skip "-=global;" rest).map (Stmt.rebase cell, ·)) <|>
        (before sign "=temp;" rest).map (Prod.map (.moveCell cell) id)) := by
  obtain ⟨x, more, htext, hx, hmore, hsub⟩ := subscript_append hcell hrest hbracket
  rw [htext, stmt_object hx (word_of_goesOn hmore) (skip_eq_none goesOn rfl hmore)]
  have htrue : skip "=true;" more = none := skip_eq_none goesOn rfl hmore
  have hfalse : skip "=false;" more = none := skip_eq_none goesOn rfl hmore
  have hclear : skip "=-global;" more = none := skip_eq_none goesOn rfl hmore
  simp only [objectStmt, htrue, hfalse, hclear, hsub, Option.map_none, Option.bind_eq_bind,
    Option.bind_some]
  rfl

theorem stmt_render
    {st : Stmt} (rest : Bytes)
    (hst : st.IsReadable) :
    stmt (st.render ++ rest) = some (st, rest) := by
  cases st with
  | assertLive x =>
      simp only [Stmt.render, List.append_assoc]
      change (before name ");" (x ++ (ascii ");" ++ rest))).map (Prod.map Stmt.assertLive id) = _
      rw [before_append ");" rest (name_append hst.2 rfl)]
      rfl
  | setLive x value =>
      cases value
      all_goals
        simp only [Stmt.render, List.append_assoc]
        rw [stmt_object hst rfl rfl]
        rfl
  | clear x =>
      simp only [Stmt.render, List.append_assoc]
      rw [stmt_object hst rfl rfl]
      rfl
  | clearAll a size =>
      obtain ⟨n, rfl⟩ := Int.eq_ofNat_of_zero_le hst.2
      simp only [Stmt.render, List.append_assoc]
      change clearAll (Bytes.decimalNat n ++ _) = _
      rw [clearAll, before_append ";i++)\x7b" _ (natural_append n rfl)]
      change (before name "[i]=-global;\x7d" (a ++ (ascii "[i]=-global;\x7d" ++ rest))).map _ = _
      rw [before_append "[i]=-global;\x7d" rest (name_append hst.1.2 rfl)]
      rfl
  | scan cell =>
      simp only [Stmt.render, List.append_assoc]
      change (before lvalue ");" (cell.render ++ (ascii ");" ++ rest))).map (Prod.map Stmt.scan id) = _
      rw [before_append ");" rest (lvalue_append hst rfl rfl)]
      rfl
  | rebase cell =>
      simp only [Stmt.render, List.append_assoc]
      rw [stmt_cell hst rfl rfl]
      rfl
  | printNumber e =>
      simp only [Stmt.render, List.append_assoc]
      change (before expr ");" (e.render ++ (ascii ");" ++ rest))).map (Prod.map Stmt.printNumber id) = _
      rw [before_append ");" rest (expr_append hst rfl)]
      rfl
  | printChar e =>
      simp only [Stmt.render, List.append_assoc]
      change (before expr ");" (e.render ++ (ascii ");" ++ rest))).map (Prod.map Stmt.printChar id) = _
      rw [before_append ");" rest (expr_append hst rfl)]
      rfl
  | saveValue e =>
      simp only [Stmt.render, List.append_assoc]
      change (before expr ";" (e.render ++ (ascii ";" ++ rest))).map (Prod.map Stmt.saveValue id) = _
      rw [before_append ";" rest (expr_append hst rfl)]
      rfl
  | saveAddress cell =>
      simp only [Stmt.render, List.append_assoc]
      change (before lvalue ";" (cell.render ++ (ascii ";" ++ rest))).map (Prod.map Stmt.saveAddress id) = _
      rw [before_append ";" rest (lvalue_append hst rfl rfl)]
      rfl
  | moveOffset d => cases d <;> rfl
  | moveSaved d => cases d <;> rfl
  | moveCell cell d =>
      simp only [Stmt.render, List.append_assoc]
      rw [stmt_cell hst (by cases d <;> rfl) (by cases d <;> rfl)]
      cases d <;> rfl
  | place x =>
      simp only [Stmt.render, List.append_assoc]
      rw [stmt_append hst rfl]
      rfl
  | take x =>
      simp only [Stmt.render, List.append_assoc]
      change (before name ";" (x ++ (ascii ";" ++ rest))).map (Prod.map Stmt.take id) = _
      rw [before_append ";" rest (name_append hst rfl)]
      rfl
  | goto => rfl

theorem render_ne_nil
    {st : Stmt}
    (hst : st.IsReadable) :
    st.render ≠ [] := by
  intro hnil
  have hnone : stmt (st.render ++ []) = none := by
    rw [hnil]
    rfl
  rw [stmt_render [] hst] at hnone
  cases hnone

theorem stmts_render
    {sts : List Stmt} {rest : Bytes}
    (hsts : ∀ st ∈ sts, st.IsReadable)
    (hrest : stmt rest = none) :
    stmts (sts.flatMap Stmt.render ++ rest) = (sts, rest) := by
  induction sts with
  | nil =>
      rw [List.flatMap_nil, List.nil_append, stmts, hrest]
  | cons st sts ih =>
      have hst := hsts st (by simp)
      have hlength : (sts.flatMap Stmt.render ++ rest).length <
          (st.render ++ (sts.flatMap Stmt.render ++ rest)).length := by
        have := List.length_pos_iff.mpr (render_ne_nil hst)
        simp only [List.length_append]
        omega
      rw [List.flatMap_cons, List.append_assoc, stmts, stmt_render _ hst]
      simp only [if_pos hlength, ih fun st h => hsts st (List.mem_cons_of_mem _ h)]

end Statements

end Reader
end Target
end Contrary
