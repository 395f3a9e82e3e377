import Contrary.Proofs.Target.Preamble
import Contrary.Proofs.Target.Statements

/-!
# Reading back a generated program

A generated program is read back from its text: printing and then reading gives the
same program.

**Rows.**  The text of a body is a sequence of rows, one for each line, head and end
of a block.  Each is read back by itself, and `nest` finds the blocks again, since it
goes from the last row up.

**Lines.**  The text is cut at its line feeds only between the rows, because no name,
number or comment has a line feed, and no two rows are joined, because no row ends in
a backslash or a blank.  Carriage returns stand in comments only.

**Results.**
* `nest_rows`: the rows of a block nest to it.
* `ofLines?_render`: a readable program is read back from the lines of its text.
* `ofText?_render`: and from its text, if no comment has a carriage return.
-/

namespace Contrary
namespace Target

section Conditions

/-- A statement that declares `temp` or `addr`. -/
def Stmt.declares : Stmt → Bool
  | .saveValue _ | .saveAddress _ => true
  | _ => false

structure Line.IsReadable (l : Line) : Prop where
  body : ∀ st ∈ l.body, st.IsReadable
  noLocals : l.braced = false → ∀ st ∈ l.body, st.declares = false
  comment : IsLine l.comment

structure Head.IsReadable (h : Head) : Prop where
  checks : ∀ st ∈ h.checks, st.IsReadable
  noLocals : ∀ st ∈ h.checks, st.declares = false
  left : h.left.IsReadable
  right : h.right.IsReadable

def Block.IsReadable : Block → Prop
  | .done => True
  | .line l next => l.IsReadable ∧ next.IsReadable
  | .branch h body next => h.IsReadable ∧ body.IsReadable ∧ next.IsReadable

def Decl.IsReadable : Decl → Prop
  | .scalar x live => IsWord x ∧ IsWord live
  | .array x live size => IsWord x ∧ IsWord live ∧ 0 ≤ size
  | .flag live => IsWord live

def LeakCheck.IsReadable (k : LeakCheck) : Prop :=
  IsWord k.live ∧ IsWord k.name

/-- A program whose text can be read. -/
def Code.IsReadable : Code → Prop
  | .empty => True
  | .main decls body leaks =>
      (∀ d ∈ decls, d.IsReadable) ∧ body.IsReadable ∧ ∀ k ∈ leaks, k.IsReadable

end Conditions

section Foreign

/-- A byte that no statement holds: a line feed, a carriage return or a slash. -/
def isForeign (c : UInt8) : Bool :=
  c == '\n'.toUInt8 || c == '\r'.toUInt8 || c == '/'.toUInt8

theorem isForeign_iff
    {c : UInt8} :
    isForeign c = true ↔ c = '\n'.toUInt8 ∨ c = '\r'.toUInt8 ∨ c = '/'.toUInt8 := by
  simp [isForeign, or_assoc]

theorem isForeign_newline :
    isForeign '\n'.toUInt8 = true := rfl

theorem isForeign_return :
    isForeign '\r'.toUInt8 = true := rfl

variable {c : UInt8} (hc : isForeign c = true)

include hc

theorem foreign_word
    {x : Ident}
    (hx : IsWord x) :
    c ∉ x := by
  intro hmem
  have hbyte := hx.2 c hmem
  rcases isForeign_iff.mp hc with rfl | rfl | rfl
  all_goals
    revert hbyte
    decide

theorem foreign_decimal
    (n : Int) :
    c ∉ Bytes.decimal n := by
  have hnat : ∀ k, c ∉ Bytes.decimalNat k := by
    intro k hmem
    have hdigit := isDigit_decimalNat k c hmem
    rcases isForeign_iff.mp hc with rfl | rfl | rfl
    all_goals
      revert hdigit
      decide
  cases n with
  | ofNat k => exact hnat k
  | negSucc k =>
      intro hmem
      rcases List.mem_cons.mp hmem with rfl | hmem
      · revert hc
        decide
      · exact hnat _ hmem

theorem foreign_literal
    (n : Int32) :
    c ∉ renderLiteral n := by
  have hdecimal := foreign_decimal hc n.toInt
  unfold renderLiteral
  split_ifs
  · rcases isForeign_iff.mp hc with rfl | rfl | rfl <;> simp +decide [hdecimal]
  · exact hdecimal

theorem foreign_position
    {i : Position}
    (hi : i.IsReadable) :
    c ∉ i.render := by
  cases i with
  | literal n => exact foreign_literal hc n
  | shown x =>
      have hword := foreign_word hc hi.2
      rcases isForeign_iff.mp hc with rfl | rfl | rfl <;>
        simp +decide [Position.render, renderGet, hword]

theorem foreign_lvalue
    {cell : LValue}
    (hcell : cell.IsReadable) :
    c ∉ cell.render := by
  cases cell with
  | scalar x => exact foreign_word hc hcell.2
  | element a i =>
      have hword := foreign_word hc hcell.1.2
      have hindex := foreign_position hc hcell.2
      rcases isForeign_iff.mp hc with rfl | rfl | rfl <;> simp +decide [LValue.render, hword, hindex]

theorem foreign_expr
    {e : Expr}
    (he : e.IsReadable) :
    c ∉ e.render := by
  cases e with
  | literal n => exact foreign_literal hc n
  | shown cell =>
      have hcell := foreign_lvalue hc he
      rcases isForeign_iff.mp hc with rfl | rfl | rfl <;>
        simp +decide [Expr.render, renderGet, hcell]

theorem foreign_stmt
    {st : Stmt}
    (hst : st.IsReadable) :
    c ∉ st.render := by
  have hword : ∀ {x : Ident}, IsWord x → c ∉ x := foreign_word hc
  have hdecimal := foreign_decimal hc
  have hlvalue : ∀ {cell : LValue}, cell.IsReadable → c ∉ cell.render := foreign_lvalue hc
  have hexpr : ∀ {e : Expr}, e.IsReadable → c ∉ e.render := foreign_expr hc
  rcases isForeign_iff.mp hc with rfl | rfl | rfl
  all_goals
    cases st with
    | assertLive x => simp +decide [Stmt.render, hword hst.2]
    | setLive x value => cases value <;> simp +decide [Stmt.render, hword hst.2]
    | clear x => simp +decide [Stmt.render, hword hst.2]
    | clearAll a size => simp +decide [Stmt.render, hword hst.1.2, hdecimal]
    | scan cell => simp +decide [Stmt.render, hlvalue hst]
    | rebase cell => simp +decide [Stmt.render, hlvalue hst]
    | printNumber e => simp +decide [Stmt.render, hexpr hst]
    | printChar e => simp +decide [Stmt.render, hexpr hst]
    | saveValue e => simp +decide [Stmt.render, hexpr hst]
    | saveAddress cell => simp +decide [Stmt.render, hlvalue hst]
    | moveOffset d => cases d <;> decide
    | moveSaved d => cases d <;> decide
    | moveCell cell d => cases d <;> simp +decide [Stmt.render, Sign.render, hlvalue hst]
    | place x => simp +decide [Stmt.render, hword hst]
    | take x => simp +decide [Stmt.render, hword hst]
    | goto => decide

theorem foreign_stmts
    {sts : List Stmt}
    (hsts : ∀ st ∈ sts, st.IsReadable) :
    c ∉ sts.flatMap Stmt.render := by
  intro hmem
  obtain ⟨st, hst, hmem⟩ := List.mem_flatMap.mp hmem
  exact foreign_stmt hc (hsts st hst) hmem

/-- The statements of a line hold no line end and no slash. -/
theorem foreign_renderBody
    {l : Line}
    (hl : ∀ st ∈ l.body, st.IsReadable) :
    c ∉ l.renderBody := by
  have hbody := foreign_stmts hc hl
  simp only [Line.renderBody]
  split_ifs
  · rcases isForeign_iff.mp hc with rfl | rfl | rfl <;>
      simp +decide only [List.mem_append, hbody, or_self, not_false_eq_true]
  · exact hbody

end Foreign

namespace Reader

section Rows

def Row.render : Row → Bytes
  | .line l => l.renderBody ++ ascii "//" ++ l.comment
  | .opens h =>
      h.checks.flatMap Stmt.render ++ (ascii "if(" ++ h.left.render ++ h.comparison.symbol ++
        h.right.render ++ ascii ")\x7b")
  | .closes => ascii "\x7d"

def Row.IsReadable : Row → Prop
  | .line l => l.IsReadable
  | .opens h => h.IsReadable
  | .closes => True

def isBrace (b : UInt8) : Bool :=
  b == '\x7b'.toUInt8 || b == '\x7d'.toUInt8

theorem not_brace_stmts
    {sts : List Stmt} {rest : Bytes}
    (hsts : ∀ st ∈ sts, st.IsReadable)
    (hrest : rest.head?.any isBrace = false) :
    (sts.flatMap Stmt.render ++ rest).head?.any isBrace = false := by
  cases sts with
  | nil => exact hrest
  | cons st sts =>
      rw [List.flatMap_cons, List.append_assoc]
      have hread := stmt_render (sts.flatMap Stmt.render ++ rest) (hsts st (by simp))
      cases htext : st.render ++ (sts.flatMap Stmt.render ++ rest) with
      | nil => rfl
      | cons b s =>
          rw [htext] at hread
          cases hb : isBrace b with
          | false => simpa using hb
          | true =>
              -- No statement starts with a brace.
              have hbrace : b = '\x7b'.toUInt8 ∨ b = '\x7d'.toUInt8 := by
                simpa [isBrace] using hb
              rcases hbrace with rfl | rfl
              · cases hread
              · cases hread

/-- A line without braces, or a head: statements, and then a comment or a condition. -/
theorem row_stmts
    {sts : List Stmt} {rest : Bytes}
    (hsts : ∀ st ∈ sts, st.IsReadable)
    (hrest : rest.head?.any isBrace = false)
    (hstmt : stmt rest = none) :
    row (sts.flatMap Stmt.render ++ rest) =
      match skip "//" rest with
      | some comment => some (.line ⟨false, sts, comment⟩)
      | none => headRow sts rest := by
  have hhead := not_brace_stmts hsts hrest
  have hne : sts.flatMap Stmt.render ++ rest ≠ ascii "\x7d" := by
    intro heq
    rw [heq] at hhead
    cases hhead
  have hskip : skip "\x7b" (sts.flatMap Stmt.render ++ rest) = none :=
    skip_eq_none isBrace rfl hhead
  cases hcomment : skip "//" rest with
  | some comment => simp only [row, if_neg hne, hskip, stmts_render hsts hstmt, hcomment]
  | none => simp only [row, if_neg hne, hskip, stmts_render hsts hstmt, hcomment]

theorem headRow_append
    {h : Head}
    (hh : h.IsReadable) :
    headRow h.checks (ascii "if(" ++ (h.left.render ++ (h.comparison.symbol ++
      (h.right.render ++ ascii ")\x7b")))) = some (.opens h) := by
  have hdigit : (h.comparison.symbol ++ (h.right.render ++ ascii ")\x7b")).head?.any
      Bytes.isDigit = false := by
    cases h.comparison <;> rfl
  have hright : expr (h.right.render ++ ascii ")\x7b") = some (h.right, ascii ")\x7b") :=
    expr_append hh.right rfl
  simp only [headRow, skip_append, expr_append hh.left hdigit,
    comparison_append h.comparison (skip_equals_expr h.right _), hright, Option.bind_eq_bind,
    Option.bind_some, if_true, Option.pure_def]

theorem row_render
    {r : Row}
    (hr : r.IsReadable) :
    row r.render = some r := by
  cases r with
  | line l =>
      obtain ⟨braced, sts, comment⟩ := l
      cases braced with
      | true =>
          have htext : Row.render (.line ⟨true, sts, comment⟩) =
              ascii "\x7b" ++ (sts.flatMap Stmt.render ++ (ascii "\x7d//" ++ comment)) := by
            simp [Row.render, Line.renderBody, ascii]
          have hread : stmts (sts.flatMap Stmt.render ++ (ascii "\x7d//" ++ comment)) =
              (sts, ascii "\x7d//" ++ comment) := stmts_render hr.body rfl
          have hne : ascii "\x7b" ++ (sts.flatMap Stmt.render ++ (ascii "\x7d//" ++ comment)) ≠
              ascii "\x7d" := fun heq => by cases congrArg List.head? heq
          rw [htext, row, if_neg hne, skip_append]
          simp only [hread, skip_append, Option.map_some]
      | false =>
          simp only [Row.render, Line.renderBody, Bool.false_eq_true, if_false, List.append_assoc]
          rw [row_stmts hr.body rfl rfl]
          rfl
  | opens h =>
      simp only [Row.render, List.append_assoc]
      rw [row_stmts hr.checks rfl rfl]
      exact headRow_append hr
  | closes => rfl

theorem before_eq_none
    {x rest : Bytes} {word : String}
    (hx : IsWord x)
    (hrest : rest.head?.any Spelling.isIdentifierByte = false)
    (hword : skip word rest = none) :
    before name word (x ++ rest) = none := by
  simp only [before, name_append hx hrest, hword, Option.bind_eq_bind, Option.bind_some,
    Option.bind_none]

theorem before_space_cell
    {cell : LValue} {rest : Bytes}
    (hcell : cell.IsReadable)
    (hrest : rest.head?.any goesOn = false)
    (hbracket : skip "[" rest = none) :
    before name " " (cell.render ++ rest) = none := by
  obtain ⟨x, more, htext, hx, hmore, -⟩ := subscript_append hcell hrest hbracket
  rw [htext]
  exact before_eq_none hx.2 (word_of_goesOn hmore) (skip_eq_none goesOn rfl hmore)

/-- A statement that declares nothing does not start as a declaration does. -/
theorem before_space_stmt
    {st : Stmt} (rest : Bytes)
    (hst : st.IsReadable)
    (hdecl : st.declares = false) :
    before name " " (st.render ++ rest) = none := by
  cases st with
  | setLive x value =>
      cases value
      all_goals
        simp only [Stmt.render, List.append_assoc]
        exact before_eq_none hst.2 rfl rfl
  | clear x =>
      simp only [Stmt.render, List.append_assoc]
      exact before_eq_none hst.2 rfl rfl
  | rebase cell =>
      simp only [Stmt.render, List.append_assoc]
      exact before_space_cell hst rfl rfl
  | moveCell cell d =>
      simp only [Stmt.render, List.append_assoc]
      cases d <;> exact before_space_cell hst rfl rfl
  | place x =>
      simp only [Stmt.render, List.append_assoc]
      exact before_eq_none hst rfl rfl
  | moveOffset d => cases d <;> rfl
  | saveValue e => cases hdecl
  | saveAddress cell => cases hdecl
  | _ => rfl

theorem decl_stmts
    {sts : List Stmt} {rest : Bytes}
    (hsts : ∀ st ∈ sts, st.IsReadable)
    (hdecl : ∀ st ∈ sts, st.declares = false)
    (hrest : decl rest = none) :
    decl (sts.flatMap Stmt.render ++ rest) = none := by
  cases sts with
  | nil => exact hrest
  | cons st sts =>
      rw [List.flatMap_cons, List.append_assoc, decl,
        before_space_stmt _ (hsts st (by simp)) (hdecl st (by simp))]
      rfl

/-- No row of a body is a declaration. -/
theorem decl_row
    {r : Row}
    (hr : r.IsReadable) :
    decl r.render = none := by
  cases r with
  | line l =>
      obtain ⟨braced, sts, comment⟩ := l
      cases braced with
      | true => rfl
      | false =>
          simp only [Row.render, Line.renderBody, Bool.false_eq_true, if_false, List.append_assoc]
          exact decl_stmts hr.body (hr.noLocals rfl) rfl
  | opens h =>
      simp only [Row.render, List.append_assoc]
      exact decl_stmts hr.checks hr.noLocals rfl
  | closes => rfl

theorem isLine_comment
    {comment : Bytes}
    (hcomment : IsLine comment) :
    IsLine (ascii "//" ++ comment) := by
  cases comment with
  | nil => decide
  | cons b s => exact isLine_append (by decide) hcomment (List.cons_ne_nil b s)

/-- The head of a block holds no line end and no slash. -/
theorem foreign_opens
    {c : UInt8} {h : Head}
    (hc : isForeign c = true)
    (hh : h.IsReadable) :
    c ∉ (Row.opens h).render := by
  have hchecks := foreign_stmts hc hh.checks
  have hleft := foreign_expr hc hh.left
  have hright := foreign_expr hc hh.right
  have hsymbol : c ∉ h.comparison.symbol := by
    rcases isForeign_iff.mp hc with rfl | rfl | rfl <;> cases h.comparison <;> decide
  rcases isForeign_iff.mp hc with rfl | rfl | rfl <;>
    simp +decide only [Row.render, List.mem_append, hchecks, hleft, hright, hsymbol, or_self,
      not_false_eq_true]

theorem isLine_row
    {r : Row}
    (hr : r.IsReadable) :
    IsLine r.render := by
  cases r with
  | line l =>
      have hbody : '\n'.toUInt8 ∉ l.renderBody := foreign_renderBody isForeign_newline hr.body
      simp only [Row.render, List.append_assoc]
      exact isLine_append hbody (isLine_comment hr.comment) (List.cons_ne_nil _ _)
  | opens h =>
      refine ⟨foreign_opens isForeign_newline hr, ?_⟩
      rw [Row.render, ← List.append_assoc, List.getLast?_append]
      rfl
  | closes => decide

end Rows

section Blocks

/-- The rows of a block. -/
def rows : Block → List Row
  | .done => []
  | .line l next => .line l :: rows next
  | .branch h body next => .opens h :: (rows body ++ .closes :: rows next)

theorem render_rows
    (b : Block) :
    b.render = ((rows b).map Row.render).flatMap Bytes.line := by
  induction b with
  | done => rfl
  | line l next ih => simp only [Block.render, rows, List.map_cons, List.flatMap_cons, ih]; rfl
  | branch h body next ihbody ihnext =>
      simp only [Block.render, rows, List.map_cons, List.map_append, List.flatMap_cons,
        List.flatMap_append, ihbody, ihnext, Head.render, Row.render, Bytes.line,
        List.append_assoc]

theorem readable_rows
    {b : Block}
    (hb : b.IsReadable) :
    ∀ r ∈ rows b, r.IsReadable := by
  induction b with
  | done => simp [rows]
  | line l next ih =>
      intro r hr
      rcases List.mem_cons.mp hr with rfl | hr
      · exact hb.1
      · exact ih hb.2 r hr
  | branch h body next ihbody ihnext =>
      intro r hr
      rcases List.mem_cons.mp hr with rfl | hr
      · exact hb.1
      · rcases List.mem_append.mp hr with hr | hr
        · exact ihbody hb.2.1 r hr
        · rcases List.mem_cons.mp hr with rfl | hr
          · exact trivial
          · exact ihnext hb.2.2 r hr

/-- The rows of a block nest to it, on top of the blocks around it. -/
theorem nest_rows
    (b : Block) :
    ∀ {below : List Row} {outer : List Block}, nest below = some (.done :: outer) →
      nest (rows b ++ below) = some (b :: outer) := by
  induction b with
  | done => exact id
  | line l next ih =>
      intro below outer h
      simp only [rows, List.cons_append, nest, ih h]
  | branch head body next ihbody ihnext =>
      intro below outer h
      have hclosed : nest (.closes :: (rows next ++ below)) = some (.done :: next :: outer) := by
        simp only [nest, ihnext h]
      simp only [rows, List.cons_append, List.append_assoc, nest, ihbody hclosed]

end Blocks

section Declarations

/-- The text of a declaration, without the end of its line. -/
def declText : Decl → Bytes
  | .scalar cell live => ascii "int " ++ cell ++ ascii "=0; bool " ++ live ++ ascii "=false;"
  | .array cell live size =>
      ascii "int " ++ cell ++ ascii "[" ++ Bytes.decimal size ++ ascii "]=\x7b\x7d; bool " ++ live ++
        ascii "=false;"
  | .flag live => ascii "bool " ++ live ++ ascii "=true;"

theorem render_declText
    (d : Decl) :
    d.render = Bytes.line (declText d) := by
  cases d <;> rfl

/-- A declaration holds no line end and no slash. -/
theorem foreign_declText
    {c : UInt8} {d : Decl}
    (hc : isForeign c = true)
    (hd : d.IsReadable) :
    c ∉ declText d := by
  have hword : ∀ {x : Ident}, IsWord x → c ∉ x := foreign_word hc
  have hdecimal := foreign_decimal hc
  rcases isForeign_iff.mp hc with rfl | rfl | rfl
  all_goals
    cases d with
    | scalar cell live => simp +decide [declText, hword hd.1, hword hd.2]
    | array cell live size => simp +decide [declText, hword hd.1, hword hd.2.1, hdecimal]
    | flag live => simp +decide [declText, hword hd]

theorem isLine_decl
    {d : Decl}
    (hd : d.IsReadable) :
    IsLine (declText d) := by
  refine ⟨foreign_declText isForeign_newline hd, ?_⟩
  cases d with
  | scalar cell live => rw [declText, List.getLast?_append]; rfl
  | array cell live size => rw [declText, List.getLast?_append]; rfl
  | flag live => rw [declText, List.getLast?_append]; rfl

theorem declLive_append
    {live : Ident}
    (hlive : IsWord live) :
    declLive (ascii "; bool " ++ (live ++ ascii "=false;")) = some live := by
  have hname : name (live ++ ascii "=false;") = some (live, ascii "=false;") :=
    name_append hlive rfl
  simp only [declLive, skip_append, hname, Option.bind_eq_bind, Option.bind_some, if_true,
    Option.pure_def]

theorem decl_text
    {d : Decl}
    (hd : d.IsReadable) :
    decl (declText d) = some d := by
  have hint : ∀ s, before name " " (ascii "int " ++ s) = some (ascii "int", s) := fun s => rfl
  have hbool : ∀ s, before name " " (ascii "bool " ++ s) = some (ascii "bool", s) := fun s => rfl
  have hne : ascii "int" ≠ ascii "bool" := by decide
  cases d with
  | scalar cell live =>
      let tail := ascii "; bool " ++ (live ++ ascii "=false;")
      have htext : declText (.scalar cell live) =
          ascii "int " ++ (cell ++ (ascii "=0" ++ tail)) := by
        simp [declText, tail, ascii]
      have hname : name (cell ++ (ascii "=0" ++ tail)) = some (cell, ascii "=0" ++ tail) :=
        name_append hd.1 rfl
      have hbracket : skip "[" (ascii "=0" ++ tail) = none := rfl
      simp only [htext, decl, hint, hname, hbracket, if_neg hne, if_true, skip_append,
        declLive_append hd.2, tail, Option.bind_eq_bind, Option.bind_some, Option.pure_def]
  | array cell live size =>
      obtain ⟨hcell, hlive, hsize⟩ := hd
      obtain ⟨n, rfl⟩ := Int.eq_ofNat_of_zero_le hsize
      let tail := ascii "; bool " ++ (live ++ ascii "=false;")
      have htext : declText (.array cell live n) =
          ascii "int " ++ (cell ++ (ascii "[" ++ (Bytes.decimalNat n ++
            (ascii "]=\x7b\x7d" ++ tail)))) := by
        simp [declText, tail, ascii, Bytes.decimal]
      have hname : name (cell ++ (ascii "[" ++ (Bytes.decimalNat n ++
            (ascii "]=\x7b\x7d" ++ tail)))) =
          some (cell, ascii "[" ++ (Bytes.decimalNat n ++ (ascii "]=\x7b\x7d" ++ tail))) :=
        name_append hcell rfl
      have hsize : before natural "]=\x7b\x7d" (Bytes.decimalNat n ++ (ascii "]=\x7b\x7d" ++ tail)) =
          some (n, tail) := before_append _ _ (natural_append n rfl)
      simp only [htext, decl, hint, hname, hsize, if_neg hne, if_true, skip_append,
        declLive_append hlive, tail, Option.bind_eq_bind, Option.bind_some, Option.pure_def]
  | flag live =>
      have hname : name (live ++ ascii "=true;") = some (live, ascii "=true;") :=
        name_append hd rfl
      simp only [declText, List.append_assoc, decl, hbool, hname, if_true, Option.bind_eq_bind,
        Option.bind_some, Option.pure_def]

theorem decls_append
    {ds : List Decl} {lines : List Bytes}
    (hds : ∀ d ∈ ds, d.IsReadable)
    (hlines : ∀ l ∈ lines.head?, decl l = none) :
    decls (ds.map declText ++ lines) = (ds, lines) := by
  induction ds with
  | nil =>
      cases lines with
      | nil => rfl
      | cons l lines =>
          change decls (l :: lines) = _
          rw [decls, hlines l rfl]
  | cons d ds ih =>
      rw [List.map_cons, List.cons_append, decls, decl_text (hds d (by simp)),
        ih fun d hd => hds d (List.mem_cons_of_mem _ hd)]

end Declarations

section LeakChecks

theorem leakCheck_render
    {k : LeakCheck} (rest : Bytes)
    (hk : k.IsReadable) :
    leakCheck (k.render ++ rest) = some (k, rest) := by
  have hname : before name "\");" (k.name ++ (ascii "\");" ++ rest)) = some (k.name, rest) :=
    before_append _ _ (name_append hk.2 rfl)
  have hlive : before name ",\"" (k.live ++ (ascii ",\"" ++ (k.name ++ (ascii "\");" ++ rest)))) =
      some (k.live, k.name ++ (ascii "\");" ++ rest)) := before_append _ _ (name_append hk.1 rfl)
  simp only [leakCheck, LeakCheck.render, List.append_assoc, skip_append, hlive, hname,
    Option.bind_eq_bind, Option.bind_some, Option.pure_def]

theorem leakChecks_render
    {ks : List LeakCheck}
    (hks : ∀ k ∈ ks, k.IsReadable) :
    leakChecks (ks.flatMap LeakCheck.render) = some ks := by
  induction ks with
  | nil =>
      rw [List.flatMap_nil, leakChecks]
      rfl
  | cons k ks ih =>
      have hempty : (k.render ++ ks.flatMap LeakCheck.render).isEmpty = false := rfl
      have hlength : (ks.flatMap LeakCheck.render).length <
          (k.render ++ ks.flatMap LeakCheck.render).length := by
        have hpos : 0 < k.render.length := List.length_pos_iff.mpr (List.cons_ne_nil _ _)
        rw [List.length_append]
        omega
      rw [List.flatMap_cons, leakChecks, hempty, leakCheck_render _ (hks k (by simp))]
      simp only [Bool.false_eq_true, if_false, if_pos hlength,
        ih fun k hk => hks k (List.mem_cons_of_mem _ hk), Option.map_some]

/-- Leak checks hold no line end and no slash. -/
theorem foreign_leakChecks
    {c : UInt8} {ks : List LeakCheck}
    (hc : isForeign c = true)
    (hks : ∀ k ∈ ks, k.IsReadable) :
    c ∉ ks.flatMap LeakCheck.render := by
  intro hmem
  obtain ⟨k, hk, hmem⟩ := List.mem_flatMap.mp hmem
  have hlive := foreign_word hc (hks k hk).1
  have hname := foreign_word hc (hks k hk).2
  revert hmem
  rcases isForeign_iff.mp hc with rfl | rfl | rfl <;>
    simp +decide only [LeakCheck.render, List.mem_append, hlive, hname, or_self]

theorem isLine_leakChecks
    {ks : List LeakCheck}
    (hks : ∀ k ∈ ks, k.IsReadable) :
    IsLine (ks.flatMap LeakCheck.render) := by
  refine ⟨foreign_leakChecks isForeign_newline hks, ?_⟩
  rcases List.eq_nil_or_concat' ks with rfl | ⟨init, k, rfl⟩
  · rfl
  · rw [List.flatMap_append, List.flatMap_singleton, LeakCheck.render, ← List.append_assoc,
      List.getLast?_append]
    rfl

theorem decl_leakChecks
    (ks : List LeakCheck) :
    decl (ks.flatMap LeakCheck.render) = none := by
  cases ks <;> rfl

end LeakChecks

section Programs

theorem mapM_row
    {rs : List Row}
    (hrs : ∀ r ∈ rs, r.IsReadable) :
    (rs.map Row.render).mapM row = some rs := by
  induction rs with
  | nil => rfl
  | cons r rs ih =>
      simp only [List.map_cons, List.mapM_cons, row_render (hrs r (by simp)),
        ih fun r hr => hrs r (List.mem_cons_of_mem _ hr), Option.bind_eq_bind, Option.bind_some,
        Option.pure_def]

theorem body_rows
    {b : Block} {leaks : List LeakCheck}
    (hb : b.IsReadable)
    (hleaks : ∀ k ∈ leaks, k.IsReadable) :
    body ((rows b).map Row.render ++
      [leaks.flatMap LeakCheck.render, ascii "\x7d", []]) = some (b, leaks) := by
  have hreverse : ((rows b).map Row.render ++
      [leaks.flatMap LeakCheck.render, ascii "\x7d", []]).reverse =
      [] :: ascii "\x7d" :: leaks.flatMap LeakCheck.render :: ((rows b).map Row.render).reverse := by
    simp
  have hnest : nest (rows b) = some [b] := by
    have hempty : nest [] = some [.done] := rfl
    simpa using nest_rows b hempty
  unfold body
  rw [hreverse]
  simp only [if_true, leakChecks_render hleaks, List.reverse_reverse,
    mapM_row (readable_rows hb), hnest, Option.bind_eq_bind, Option.bind_some, Option.pure_def]

end Programs

end Reader

/-- The lines of a program after its preamble. -/
def lineTexts (ds : List Decl) (b : Block) (leaks : List LeakCheck) : List Bytes :=
  ascii "int main()\x7b" :: (ds.map Reader.declText ++ ((Reader.rows b).map Reader.Row.render ++
    [leaks.flatMap LeakCheck.render, ascii "\x7d"]))

theorem render_lineTexts
    (ds : List Decl) (b : Block) (leaks : List LeakCheck) :
    (Code.main ds b leaks).render = preamble ++ (lineTexts ds b leaks).flatMap Bytes.line := by
  have hds : ds.flatMap Decl.render = (ds.map Reader.declText).flatMap Bytes.line := by
    rw [List.flatMap_map, funext Reader.render_declText]
  simp only [Code.render, lineTexts, List.flatMap_cons, List.flatMap_append, List.flatMap_nil,
    List.append_nil, List.append_assoc, hds, Reader.render_rows]

theorem isLine_lineTexts
    {ds : List Decl} {b : Block} {leaks : List LeakCheck}
    (h : (Code.main ds b leaks).IsReadable) :
    ∀ l ∈ lineTexts ds b leaks, IsLine l := by
  obtain ⟨hds, hb, hleaks⟩ := h
  intro l hl
  simp only [lineTexts, List.mem_cons, List.mem_append, List.mem_map, List.not_mem_nil,
    or_false] at hl
  rcases hl with rfl | ⟨d, hd, rfl⟩ | ⟨r, hr, rfl⟩ | rfl | rfl
  · decide
  · exact Reader.isLine_decl (hds d hd)
  · exact Reader.isLine_row (Reader.readable_rows hb r hr)
  · exact Reader.isLine_leakChecks hleaks
  · decide

/-- The first line after the declarations is not one. -/
theorem decls_lineTexts
    {ds : List Decl} {b : Block} {leaks : List LeakCheck}
    (h : (Code.main ds b leaks).IsReadable) :
    Reader.decls (ds.map Reader.declText ++ ((Reader.rows b).map Reader.Row.render ++
        [leaks.flatMap LeakCheck.render, ascii "\x7d", []])) =
      (ds, (Reader.rows b).map Reader.Row.render ++
        [leaks.flatMap LeakCheck.render, ascii "\x7d", []]) := by
  obtain ⟨hds, hb, -⟩ := h
  refine Reader.decls_append hds ?_
  intro l hl
  cases hrows : Reader.rows b with
  | nil =>
      rw [hrows] at hl
      cases hl
      exact Reader.decl_leakChecks leaks
  | cons r rs =>
      rw [hrows] at hl
      cases hl
      exact Reader.decl_row (Reader.readable_rows hb r (by simp [hrows]))

theorem splitOn_render
    {ds : List Decl} {b : Block} {leaks : List LeakCheck}
    (h : (Code.main ds b leaks).IsReadable) :
    Bytes.splitOn '\n'.toUInt8 (Code.main ds b leaks).render =
      preambleLines.map ascii ++ (lineTexts ds b leaks ++ [[]]) := by
  rw [render_lineTexts, preamble_eq, splitOn_lines_append fun l hl => (isLine_preambleLines hl).1.1,
    splitOn_lines fun l hl => (isLine_lineTexts h l hl).1]

/-- After the preamble the main function is read. -/
theorem ofLines?_preamble
    {ls : List Bytes}
    (hls : ∀ l ∈ ls, IsLine l) :
    File.ofLines? (preambleLines.map ascii ++ ls) = File.ofMain? .generated ls := by
  have hne : preambleLines.map ascii ++ ls ≠ [ascii "int main()\x7b\x7d"] := by
    intro heq
    cases congrArg List.length heq
  have hlines : ∀ l ∈ preambleLines.map ascii ++ ls, IsLine l :=
    List.forall_mem_append.mpr ⟨fun l hl => (isLine_preambleLines hl).1, hls⟩
  rw [File.ofLines?, if_neg hne, splice_eq hlines, Reader.definitions_preamble, Reader.some_bind]

/-- A readable program is read back from the lines of its text. -/
theorem ofLines?_render
    {code : Code}
    (hcode : code.IsReadable) :
    File.ofLines? (Bytes.splitOn '\n'.toUInt8 code.render) = some code.file := by
  cases code with
  | empty => rfl
  | main ds b leaks =>
      have hlines : ∀ l ∈ lineTexts ds b leaks ++ [[]], IsLine l := by
        refine List.forall_mem_append.mpr ⟨isLine_lineTexts hcode, fun l hl => ?_⟩
        rw [List.mem_singleton.mp hl]
        decide
      have htail : lineTexts ds b leaks ++ [[]] =
          ascii "int main()\x7b" :: (ds.map Reader.declText ++
            ((Reader.rows b).map Reader.Row.render ++
              [leaks.flatMap LeakCheck.render, ascii "\x7d", []])) := by
        simp [lineTexts]
      rw [splitOn_render hcode, ofLines?_preamble hlines, htail, File.ofMain?]
      simp only [Reader.fixed_cons, Reader.some_bind, decls_lineTexts hcode,
        Reader.body_rows hcode.2.1 hcode.2.2, Option.pure_def]
      rfl

/-- If its text has no carriage return, these are the lines that a compiler sees. -/
theorem ofText?_render
    {code : Code}
    (hcode : code.IsReadable)
    (hreturn : '\r'.toUInt8 ∉ code.render) :
    File.ofText? code.render = some code.file := by
  rw [File.ofText?, Reader.physicalLines_eq_iff.mpr hreturn, ofLines?_render hcode]

end Target
end Contrary
