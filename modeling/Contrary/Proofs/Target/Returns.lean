import Contrary.Proofs.Target.Generated

/-!
# Carriage returns in generated texts

A source line may hold carriage returns, and only line feeds end it.  Its text goes into the
comment of its operation, where a compiler takes a carriage return for the end of the line.

**Rows.**  The rows of a body stand in the order of the operations (`rowOf_rows`), and all that a
row has from its source line is a comment.

**Results.**
* `return_mem_render`: a carriage return of a generated text stands in a comment.
* `return_notMem_toC`: hence a generated text has none exactly if the lines of its operations,
  when they are trimmed, have none.
-/

namespace Contrary

/-- No operation with a line of its own in the generated text comes from a line with a
carriage return inside. -/
def Program.ReturnFree (p : Program) : Prop :=
  ∀ l ∈ p.ops.toList, l.op.isPlain = true → '\r'.toUInt8 ∉ l.text.trim

instance (p : Program) : Decidable p.ReturnFree :=
  inferInstanceAs (Decidable (∀ l ∈ p.ops.toList, l.op.isPlain = true → '\r'.toUInt8 ∉ l.text.trim))

namespace Target

open Reader

section Rows

/-- A row that opens or closes a block. -/
def Reader.Row.isBound : Row → Bool
  | .line _ => false
  | _ => true

/-- The row of an operation: its line, or a bound of a block. -/
def RowOf (names : Names) (l : OpLine) (r : Row) : Prop :=
  (l.op.isPlain = true ∧ r = .line (line names l)) ∨ (l.op.isPlain = false ∧ r.isBound = true)

/-- The rows of a block are those of its operations, in their order. -/
theorem rowOf_rows
    (names : Names) {n : Nesting} {ls : List OpLine}
    (h : n.Spells ls) :
    List.Forall₂ (RowOf names) ls (rows (block names n)) := by
  induction h with
  | done => exact .nil
  | op hplain _ ih => exact .cons (Or.inl ⟨hplain, rfl⟩) ih
  | block hfirst hlast _ _ ihBody ihNext =>
      refine .cons (Or.inr ⟨by rw [hfirst]; rfl, rfl⟩) (List.rel_append ihBody ?_)
      exact .cons (Or.inr ⟨by rw [hlast]; rfl, rfl⟩) ihNext

theorem row_of_getElem?
    {names : Names} {ls : List OpLine} {rs : List Row}
    (h : List.Forall₂ (RowOf names) ls rs)
    {i : Nat} {l : OpLine}
    (hl : ls[i]? = some l)
    (hplain : l.op.isPlain = true) :
    rs[i]? = some (.line (line names l)) := by
  obtain ⟨hi, rfl⟩ := List.getElem?_eq_some_iff.mp hl
  have hi' : i < rs.length := h.length_eq ▸ hi
  rw [List.getElem?_eq_getElem hi']
  rcases h.get hi hi' with ⟨-, hrow⟩ | ⟨hbound, -⟩
  · exact congrArg some hrow
  · rw [List.get_eq_getElem, hplain] at hbound
    cases hbound

end Rows

section Comments

/-- The comment of a row. -/
def Reader.Row.comment : Row → Bytes
  | .line l => l.comment
  | _ => []

/-- A carriage return of a row stands in its comment. -/
theorem return_mem_row
    {r : Row}
    (hr : r.IsReadable) :
    '\r'.toUInt8 ∈ r.render ↔ '\r'.toUInt8 ∈ r.comment := by
  cases r with
  | line l =>
      have hbody := foreign_renderBody isForeign_return hr.body
      have hslashes : '\r'.toUInt8 ∉ ascii "//" := by decide
      simp [Row.render, Row.comment, hbody, hslashes]
  | opens h => simp [Row.comment, foreign_opens isForeign_return hr]
  | closes => decide

/-- A carriage return of a generated text stands in a comment. -/
theorem return_mem_render
    {ds : List Decl} {b : Block} {leaks : List LeakCheck}
    (h : (Code.main ds b leaks).IsReadable) :
    '\r'.toUInt8 ∈ (Code.main ds b leaks).render ↔
      ∃ r ∈ rows b, '\r'.toUInt8 ∈ r.comment := by
  obtain ⟨hds, hb, hleaks⟩ := h
  have hline : ∀ {ls : List Bytes},
      '\r'.toUInt8 ∈ ls.flatMap Bytes.line ↔ ∃ l ∈ ls, '\r'.toUInt8 ∈ l := by
    intro ls
    simp +decide [Bytes.line]
  have hpreamble : ¬ ∃ l ∈ preambleLines.map ascii, '\r'.toUInt8 ∈ l := by
    rintro ⟨l, hl, hmem⟩
    exact (isLine_preambleLines hl).2 hmem
  rw [render_lineTexts, preamble_eq, List.mem_append, hline, hline, or_iff_right hpreamble]
  constructor
  · rintro ⟨l, hl, hmem⟩
    simp only [lineTexts, List.mem_cons, List.mem_append, List.mem_map, List.not_mem_nil,
      or_false] at hl
    rcases hl with rfl | ⟨d, hd, rfl⟩ | ⟨r, hr, rfl⟩ | rfl | rfl
    · exact absurd hmem (by decide)
    · exact absurd hmem (foreign_declText isForeign_return (hds d hd))
    · exact ⟨r, hr, (return_mem_row (readable_rows hb r hr)).mp hmem⟩
    · exact absurd hmem (foreign_leakChecks isForeign_return hleaks)
    · exact absurd hmem (by decide)
  · rintro ⟨r, hr, hmem⟩
    refine ⟨r.render, ?_, (return_mem_row (readable_rows hb r hr)).mpr hmem⟩
    simp only [lineTexts, List.mem_cons, List.mem_append, List.mem_map]
    exact Or.inr (Or.inr (Or.inl ⟨r, hr, rfl⟩))

end Comments

section Programs

variable {source : Bytes} {p : Program}

/-- The comments of a body are the lines of its operations, trimmed. -/
theorem return_mem_rows
    (hp : Program.ofSource source = .ok p)
    {n : Nesting}
    (hn : n.Spells p.ops.toList) :
    (∃ r ∈ rows (block p.names n), '\r'.toUInt8 ∈ r.comment) ↔
      ∃ l ∈ p.ops.toList, l.op.isPlain = true ∧ '\r'.toUInt8 ∈ l.text.trim := by
  have hrows := rowOf_rows p.names hn
  constructor
  · rintro ⟨r, hr, hmem⟩
    obtain ⟨i, hi, rfl⟩ := List.mem_iff_getElem.mp hr
    have hi' : i < p.ops.toList.length := hrows.length_eq ▸ hi
    have hl := List.getElem_mem hi'
    rcases hrows.get hi' hi with ⟨hplain, hrow⟩ | ⟨-, hbound⟩
    · rw [List.get_eq_getElem] at hplain hrow
      rw [hrow, List.get_eq_getElem] at hmem
      refine ⟨_, hl, hplain, ?_⟩
      rw [← annotation_of_mem hp hl]
      exact hmem
    · rw [List.get_eq_getElem] at hbound
      revert hmem hbound
      cases (rows (block p.names n))[i] with
      | line l => exact fun _ h => Bool.noConfusion h
      | opens h => exact fun h _ => absurd h List.not_mem_nil
      | closes => exact fun h _ => absurd h List.not_mem_nil
  · rintro ⟨l, hl, hplain, hmem⟩
    obtain ⟨i, hi⟩ := List.mem_iff_getElem?.mp hl
    refine ⟨_, List.mem_of_getElem? (row_of_getElem? hrows hi hplain), ?_⟩
    change '\r'.toUInt8 ∈ annotation l.text
    rwa [annotation_of_mem hp hl]

/-- A generated text has no carriage return exactly if the lines of its operations have
none, when they are trimmed. -/
theorem return_notMem_toC
    {text : Bytes}
    (hp : Program.ofSource source = .ok p)
    (htext : p.toC = .ok text) :
    '\r'.toUInt8 ∉ text ↔ p.ReturnFree := by
  obtain ⟨code, hcode, rfl⟩ := map_eq_ok_iff.mp htext
  unfold Code.ofProgram at hcode
  split_ifs at hcode with hempty
  · cases hcode
    refine iff_of_true (by decide) ?_
    intro l hl
    rw [Array.isEmpty_iff.mp hempty] at hl
    cases hl
  · obtain ⟨n, hn, rfl⟩ := map_eq_ok_iff.mp hcode
    obtain ⟨hspells, -⟩ := ofOps_of_nesting hn
    rw [return_mem_render (readable_main hp hspells), return_mem_rows hp hspells]
    simp [Program.ReturnFree]

end Programs

section Escape

/-- A line with a carriage return and a statement in the comments on its left. -/
def escapingLine : Bytes :=
  ascii "hello\rGOTO;// undefine x"

/-- A source with this line. -/
def escaping : Bytes :=
  Listing.join [ascii "define x", escapingLine]

/-- The program of the source. -/
def ofEscaping : Program where
  names := ⟨#[ascii "x"], #[], #[]⟩
  ops := #[⟨.define 0, 1, escapingLine⟩, ⟨.undefine 0, 2, ascii "define x"⟩]
  lineCount := 2

/-- What a compiler sees in the generated text: the statement is no longer in a comment. -/
def escaped : Code :=
  .main [.scalar (ascii "__x") (ascii "_isOn__x")]
    (.line ⟨false, [.clear (ascii "__x"), .setLive (ascii "_isOn__x") true], ascii "hello"⟩
      (.line ⟨false, [.goto], ascii " undefine x"⟩
        (.line ⟨false, [.setLive (ascii "_isOn__x") false], ascii "define x"⟩ .done)))
    [⟨ascii "_isOn__x", ascii "x"⟩]

theorem readable_escaped :
    escaped.IsReadable := by
  have hcell : IsObjectName (ascii "__x") := by
    unfold IsObjectName IsWord
    decide +kernel
  have hlive : IsObjectName (ascii "_isOn__x") := by
    unfold IsObjectName IsWord
    decide +kernel
  have hname : IsWord (ascii "x") := by
    unfold IsWord
    decide +kernel
  refine ⟨?_, ⟨⟨?_, ?_, by decide⟩, ⟨?_, ?_, by decide⟩, ⟨?_, ?_, by decide⟩, trivial⟩, ?_⟩
  · exact List.forall_mem_singleton.mpr ⟨hcell.2, hlive.2⟩
  · exact List.forall_mem_cons.mpr ⟨hcell, List.forall_mem_singleton.mpr hlive⟩
  · decide
  · exact List.forall_mem_singleton.mpr trivial
  · decide
  · exact List.forall_mem_singleton.mpr hlive
  · decide
  · exact List.forall_mem_singleton.mpr ⟨hlive.2, hname⟩

/-- The lines of the generated text are those of another program. -/
theorem physicalLines_escaping :
    ∃ text, ofEscaping.toC = .ok text ∧
      physicalLines text = Bytes.splitOn '\n'.toUInt8 escaped.render := by
  have hcode : Code.ofProgram ofEscaping = .ok (.main [.scalar (ascii "__x") (ascii "_isOn__x")]
      (.line ⟨false, [.clear (ascii "__x"), .setLive (ascii "_isOn__x") true], escapingLine⟩
        (.line ⟨false, [.setLive (ascii "_isOn__x") false], ascii "define x"⟩ .done))
      [⟨ascii "_isOn__x", ascii "x"⟩]) := by
    decide +kernel
  have hpreamble : ∀ l ∈ preambleLines.map ascii, '\n'.toUInt8 ∉ l ∧ '\r'.toUInt8 ∉ l :=
    fun l hl => ⟨(isLine_preambleLines hl).1.1, (isLine_preambleLines hl).2⟩
  refine ⟨_, congrArg (Except.map Code.render) hcode, ?_⟩
  refine Eq.trans ?_ (splitOn_render readable_escaped).symm
  rw [render_lineTexts, preamble_eq, physicalLines_lines_append hpreamble]
  exact congrArg _ (by decide +kernel)

end Escape

end Target
end Contrary
