import Contrary.Build
import Contrary.Proofs.Target.Returns

/-!
# Comments stay comments

Every line of an operation ends with its source line as a comment.  The source line is
chosen by whoever writes the program and may hold any bytes but a line feed, so the comment
must not swallow the next line, must not start before the statements end, and must not end
before its line does.

**Lines.**  The rows of the body are lines of the generated text, one after another
(`getElem?_splitOn_render`), and they stand in the order of the operations (`rowOf_rows`).

**Ends.**  A compiler joins a line with the next one if it ends in a backslash, also if blanks
follow the backslash (`Reader.continues`).  A comment ends in the last byte of the trimmed
source line, which is never one of these.  But a compiler also ends a line at a carriage return
(`Reader.physicalLines`), and the source line may have one inside.

**Results.**
* `comments_are_contained`: the lines of operations in a generated text, and the carriage
  returns for which they are not lines to a compiler.
* `escapingLine_escapes`: a statement that leaves its comment.
-/

namespace Contrary
namespace Target

section Lines

variable {ds : List Decl} {b : Block} {leaks : List LeakCheck}

/-- The rows of the body are lines of the text, from some line on. -/
theorem getElem?_splitOn_render
    (h : (Code.main ds b leaks).IsReadable) :
    ∃ top : Nat, ∀ i (r : Reader.Row), (Reader.rows b)[i]? = some r →
      (Bytes.splitOn '\n'.toUInt8 (Code.main ds b leaks).render)[top + i]? = some r.render := by
  refine ⟨(preambleLines.map ascii ++ ascii "int main()\x7b" :: ds.map Reader.declText).length, ?_⟩
  intro i r hr
  have hsplit : preambleLines.map ascii ++ (lineTexts ds b leaks ++ [[]]) =
      (preambleLines.map ascii ++ ascii "int main()\x7b" :: ds.map Reader.declText) ++
        ((Reader.rows b).map Reader.Row.render ++
          [leaks.flatMap LeakCheck.render, ascii "\x7d", []]) := by
    simp [lineTexts]
  have hlt : i < ((Reader.rows b).map Reader.Row.render).length := by
    rw [List.length_map]
    exact (List.getElem?_eq_some_iff.mp hr).1
  rw [splitOn_render h, hsplit, List.getElem?_append_right (Nat.le_add_right _ _),
    Nat.add_sub_cancel_left, List.getElem?_append_left hlt, List.getElem?_map, hr, Option.map_some]

end Lines

/-- What a build that succeeds has gone through. -/
theorem ofSource_of_run
    {o : Build.Options} {elapsed : Stage → Bytes} {source : Bytes} {r : Product}
    (h : (Build.run o elapsed source).2 = .ok r) :
    Program.ofSource source = .ok r.program ∧ r.program.toC = .ok r.code := by
  unfold Build.run at h
  unfold Program.ofSource
  cases htokens : TokenLine.ofSource source with
  | error e =>
      rw [htokens] at h
      cases h
  | ok tokens =>
      simp only [htokens] at h ⊢
      cases hprogram : Program.ofTokenLines tokens with
      | error e =>
          rw [hprogram] at h
          cases h
      | ok program =>
          simp only [hprogram] at h ⊢
          cases hcode : program.toC with
          | error e =>
              rw [hcode] at h
              cases h
          | ok code =>
              rw [hcode] at h
              cases h
              exact ⟨rfl, hcode⟩

/-- **Source text stays in its comment unless it holds a carriage return.**  In the C text of a
source, every operation that is no bound of a block has a line of its own, and these lines stand
in the order of the operations.  Such a line consists of statements, two slashes and a comment.
The statements hold no line end and no two slashes in a row.  The comment holds no line feed and
ends in a letter, a digit, an underscore or a closing bracket; so it is not empty, and the
line is not joined with the next one.  For a compiler it is one line exactly if the trimmed
source line holds no carriage return.  Hence a compiler cuts the whole text into these lines
exactly if no operation with a line of its own comes from a line with one inside. -/
theorem comments_are_contained
    {o : Build.Options} {elapsed : Stage → Bytes} {source : Bytes} {r : Product}
    (h : (Build.run o elapsed source).2 = .ok r) :
    (∃ top : Nat, ∀ i l, r.program.ops[i]? = some l → l.op.isPlain = true →
      ∃ stmts comment,
        (Bytes.splitOn '\n'.toUInt8 r.code)[top + i]? = some (stmts ++ ascii "//" ++ comment) ∧
        stmts = (line r.program.names l).renderBody ∧ comment = annotation l.text ∧
        '\n'.toUInt8 ∉ stmts ∧ '\r'.toUInt8 ∉ stmts ∧ ¬ ascii "//" <:+: stmts ∧
        '\n'.toUInt8 ∉ comment ∧
        (∃ b, comment.getLast? = some b ∧
          (Spelling.isIdentifierByte b = true ∨ b = ']'.toUInt8)) ∧
        Reader.continues (stmts ++ ascii "//" ++ comment) = false ∧
        (Reader.physicalLines (stmts ++ ascii "//" ++ comment) =
            [stmts ++ ascii "//" ++ comment] ↔ '\r'.toUInt8 ∉ l.text.trim)) ∧
    (Reader.physicalLines r.code = Bytes.splitOn '\n'.toUInt8 r.code ↔
      ∀ l ∈ r.program.ops.toList, l.op.isPlain = true → '\r'.toUInt8 ∉ l.text.trim) := by
  obtain ⟨hsource, hcode⟩ := ofSource_of_run h
  refine ⟨?_, Reader.physicalLines_eq_iff.trans (return_notMem_toC hsource hcode)⟩
  obtain ⟨lines, hread, hsizes, -⟩ := Program.readFrom_ofSource hsource
  have hnames : HasWords r.program.names :=
    fun k name hname => isWord_of_allowed (hread.allowed k name hname)
  unfold Program.toC Code.ofProgram at hcode
  split_ifs at hcode with hempty
  · refine ⟨0, ?_⟩
    intro i l hl
    rw [Array.isEmpty_iff.mp hempty] at hl
    cases hl
  · obtain ⟨code, hcode, hrender⟩ := map_eq_ok_iff.mp hcode
    obtain ⟨n, hn, rfl⟩ := map_eq_ok_iff.mp hcode
    obtain ⟨hspells, -⟩ := ofOps_of_nesting hn
    obtain ⟨top, htop⟩ := getElem?_splitOn_render (readable_main hsource hspells)
    rw [hrender] at htop
    refine ⟨top, ?_⟩
    intro i l hl hplain
    have hl' : r.program.ops.toList[i]? = some l := by simpa using hl
    have hmem := List.mem_of_getElem? hl'
    have hrow := htop i _ (row_of_getElem? (rowOf_rows r.program.names hspells) hl' hplain)
    have hline : (line r.program.names l).IsReadable :=
      readable_line hnames hsizes (hread.covered l hmem) (isLine_annotation_text hsource hmem)
    obtain ⟨b, hb, hend⟩ := getLast_annotation_text hsource hmem
    have hone : IsLine (Reader.Row.render (.line (line r.program.names l))) :=
      Reader.isLine_row hline
    refine ⟨_, _, hrow, rfl, rfl, foreign_renderBody isForeign_newline hline.body,
      foreign_renderBody isForeign_return hline.body, ?_, hline.comment.1,
      ⟨b, hb, by simpa [isEndByte] using hend⟩, hone.continues, ?_⟩
    · intro hslashes
      exact foreign_renderBody rfl hline.body (hslashes.subset List.mem_cons_self)
    · have hcomment := return_mem_row (r := .line (line r.program.names l)) hline
      refine (Reader.physicalLines_singleton_iff hone.1).trans (not_congr (hcomment.trans ?_))
      rw [← annotation_of_mem hsource hmem]
      rfl

/-- A source line with a stray byte, backslashes and the ends of other comments in its own
comment. -/
def hostileLine : Bytes :=
  [0xFF] ++ ascii "\\ */ \"\\/ undefine x \t"

/-- The program of that line below one that takes the variable away. -/
def ofHostileLine : Program where
  names := ⟨#[ascii "x"], #[], #[]⟩
  ops := #[⟨.define 0, 1, hostileLine⟩, ⟨.undefine 0, 2, ascii "define x"⟩]
  lineCount := 2

theorem hostileLine_is_contained :
    ∃ r, (Build.run ⟨false, false⟩ (fun _ => [])
        (Listing.join [ascii "define x", hostileLine])).2 = .ok r ∧
      ofHostileLine.ops[0]? = some ⟨.define 0, 1, hostileLine⟩ ∧
      ∃ top : Nat, (Reader.physicalLines r.code)[top]? =
          some (ascii "__x=-global;_isOn__x=true;//" ++
            ([0xFF] ++ ascii "\\ */ \"\\/ undefine x")) ∧
        (Reader.physicalLines r.code)[top + 1]? =
          some (ascii "_isOn__x=false;//define x") := by
  have hprogram : (Build.run ⟨false, false⟩ (fun _ => [])
      (Listing.join [ascii "define x", hostileLine])).2.map Product.program =
        .ok ofHostileLine := by
    decide +kernel
  obtain ⟨r, hr, hrprogram⟩ := map_eq_ok_iff.mp hprogram
  obtain ⟨⟨top, hlines⟩, hwhole⟩ := comments_are_contained hr
  rw [hrprogram] at hlines hwhole
  obtain ⟨_, _, hfirst, rfl, rfl, -⟩ := hlines 0 _ rfl rfl
  obtain ⟨_, _, hsecond, rfl, rfl, -⟩ := hlines 1 _ rfl rfl
  have hfree : ofHostileLine.ReturnFree := by decide +kernel
  refine ⟨r, hr, rfl, top, ?_, ?_⟩
  · rw [hwhole.mpr hfree]
    exact hfirst.trans (by decide +kernel)
  · rw [hwhole.mpr hfree]
    exact hsecond.trans (by decide +kernel)

/-- The statement after the carriage return is a line of the generated text, outside of the
comment that holds the source line. -/
theorem escapingLine_escapes :
    ∃ r, (Build.run ⟨false, false⟩ (fun _ => []) escaping).2 = .ok r ∧
      r.program.ops[0]? = some ⟨.define 0, 1, ascii "hello\rGOTO;// undefine x"⟩ ∧
      ascii "GOTO;// undefine x" ∈ Reader.physicalLines r.code := by
  have hprogram : (Build.run ⟨false, false⟩ (fun _ => []) escaping).2.map Product.program =
      .ok ofEscaping := by
    decide +kernel
  obtain ⟨r, hr, hrprogram⟩ := map_eq_ok_iff.mp hprogram
  obtain ⟨hsource, hcode⟩ := ofSource_of_run hr
  obtain ⟨text, htext, hlines⟩ := physicalLines_escaping
  rw [hrprogram] at hsource hcode
  obtain rfl := Except.ok.inj (htext.symm.trans hcode)
  refine ⟨r, hr, by rw [hrprogram]; rfl, ?_⟩
  rw [hlines.trans (splitOn_render readable_escaped)]
  exact List.mem_append_right _ (by decide +kernel)

end Target
end Contrary
