import Contrary.Proofs.Target.Returns
import Contrary.Proofs.Target.Simulation

/-!
# The machine and the generated text agree

A source is run in two ways: by the machine, or by generating C and running that.
Both give the same output, and the exit status tells how the machine ended.

**The text.**  The generated text is read as a file of C by `File.ofText?`, which
does not know how it was generated, and the program that it spells, with the definitions
that it starts with, is run by the rules in `Contrary.Proofs.Target.Semantics`.

**The lines.**  A carriage return in a comment ends the line for a compiler, and what follows
it is no longer a comment.  So the text has to be free of them; if only line feeds end a line,
this does not matter.

**The input.**  Both draw their numbers from the same source, of any kind.  Nothing is
said about a run that the machine ends with a failure, because the C program has no
defined behaviour there.

**Results.**
* `toC_agrees`: if the machine finishes, the C program exits with status 0 and the same
  output; if it aborts, with status 1 and the same output.
* `escaping_disagrees`: a source with a carriage return in a comment, for which they do not
  agree.
-/

namespace Contrary
namespace Target

/-- The text of a program spells the file that was generated from it. -/
theorem ofText?_toC
    {source : Bytes} {p : Program} {text : Bytes}
    (hp : Program.ofSource source = .ok p)
    (htext : p.toC = .ok text) :
    ∃ code, Code.ofProgram p = .ok code ∧
      File.ofLines? (Bytes.splitOn '\n'.toUInt8 text) = some code.file ∧
      ('\r'.toUInt8 ∉ text → File.ofText? text = some code.file) := by
  obtain ⟨code, hcode, rfl⟩ := map_eq_ok_iff.mp htext
  have hreadable := readable_ofProgram hp hcode
  exact ⟨code, hcode, ofLines?_render hreadable, ofText?_render hreadable⟩

/-- **The machine and the generated C agree.**  Take a source whose operations come from lines
without carriage returns inside, or end lines at line feeds only.  Then the C program that the
text of the source spells ends as the machine does, in this way and no other. -/
theorem toC_agrees
    {σ : Type} [NumberSource σ]
    {source : Bytes} {p : Program} {text : Bytes}
    (hp : Program.ofSource source = .ok p)
    (htext : p.toC = .ok text) :
    ∃ m file, Machine.load p = .ok m ∧
      (p.ReturnFree → File.ofText? text = some file) ∧
      File.ofLines? (Bytes.splitOn '\n'.toUInt8 text) = some file ∧
      ∀ (limit : Nat) (input : σ) (r : Run σ),
        (m.run limit input = (r, .finished) →
          ∀ output status, file.Exits input output status ↔ output = r.output ∧ status = 0) ∧
        (∀ cause, m.run limit input = (r, .halted (.abort cause)) →
          ∀ output status, file.Exits input output status ↔ output = r.output ∧ status = 1) := by
  obtain ⟨lines, hread, hsizes, -⟩ := Program.readFrom_ofSource hp
  obtain ⟨code, hcode, hlines, hspelled⟩ := ofText?_toC hp htext
  obtain ⟨m, hload, hends⟩ := ofProgram_ends (σ := σ) hread hsizes hcode
  refine ⟨m, code.file, hload, fun hfree => hspelled ((return_notMem_toC hp htext).mpr hfree),
    hlines, ?_⟩
  intro limit input r
  have hrun := hends limit input
  constructor
  · intro hfinished
    rw [hfinished] at hrun
    have hexits : code.file.Exits input r.output 0 := hrun
    exact hexits.iff
  · intro cause haborted
    rw [haborted] at hrun
    have hexits : code.file.Exits input r.output 1 := hrun
    exact hexits.iff

section Example

/-- Counts up to six from a number that it reads, by a jump out of a block. -/
def countUp : Bytes :=
  Listing.join <|
    [ "define x", "define y", "mark L", "if x equal to 7", "halt", "forget L", "fi", "sub 1 from y",
      "read to x", "unmark L", "print x", "undefine y", "undefine x" ].map ascii

/-- The program of these lines. -/
def ofCountUp : Program where
  names := ⟨#[ascii "x", ascii "y"], #[], #[ascii "L"]⟩
  ops :=
    #[ ⟨.define 0, 1, ascii "undefine x"⟩,
      ⟨.define 1, 2, ascii "undefine y"⟩,
      ⟨.read (.var 0), 3, ascii "print x"⟩,
      ⟨.mark 0, 4, ascii "unmark L"⟩,
      ⟨.print (.stored (.var 0)), 5, ascii "read to x"⟩,
      ⟨.add (.literal 1) (.var 1), 6, ascii "sub 1 from y"⟩,
      ⟨.openBlock, 7, ascii "fi"⟩,
      ⟨.pin 0, 8, ascii "forget L"⟩,
      ⟨.goto, 9, ascii "halt"⟩,
      ⟨.closeBlock (.stored (.var 0)) (.literal 7) .notEqual, 10, ascii "if x equal to 7"⟩,
      ⟨.unmark 0, 11, ascii "mark L"⟩,
      ⟨.undefine 1, 12, ascii "define y"⟩,
      ⟨.undefine 0, 13, ascii "define x"⟩ ]
  lineCount := 13

theorem countUp_agrees :
    Program.ofSource countUp = .ok ofCountUp ∧ ofCountUp.ReturnFree ∧
    ∃ text m file, ofCountUp.toC = .ok text ∧ Machine.load ofCountUp = .ok m ∧
      File.ofText? text = some file ∧
      ∀ output status, file.Exits (Scanner.mk (ascii "5")) output status ↔
        output = (ascii "5\n6\n").toArray ∧ status = 0 := by
  have hp : Program.ofSource countUp = .ok ofCountUp := by decide +kernel
  have hfree : ofCountUp.ReturnFree := by decide +kernel
  cases htext : ofCountUp.toC with
  | error e =>
      have hok : ofCountUp.toC.toOption.isSome = true := by decide +kernel
      rw [htext] at hok
      cases hok
  | ok text =>
      obtain ⟨m, file, hload, hspelled, -, hagrees⟩ := toC_agrees (σ := Scanner) hp htext
      have hends : (m.run 16 (Scanner.mk (ascii "5"))).2 = .finished ∧
          (m.run 16 (Scanner.mk (ascii "5"))).1.output = (ascii "5\n6\n").toArray := by
        cases hload
        decide +kernel
      have hrun := (hagrees 16 (Scanner.mk (ascii "5")) _).1 (Prod.ext rfl hends.1)
      rw [hends.2] at hrun
      exact ⟨hp, hfree, text, m, file, rfl, hload, hspelled hfree, hrun⟩

/-- The machine finishes and writes nothing.  The C program runs the jump that stood in a
comment of the source, and aborts. -/
theorem escaping_disagrees :
    Program.ofSource escaping = .ok ofEscaping ∧
    ∃ text m file, ofEscaping.toC = .ok text ∧ Machine.load ofEscaping = .ok m ∧
      File.ofText? text = some file ∧
      (m.run 2 (Scanner.mk [])).2 = .finished ∧ (m.run 2 (Scanner.mk [])).1.output = #[] ∧
      ∀ output status, file.Exits (Scanner.mk []) output status ↔
        output = (ascii "ABORTED\n:nothing to pin").toArray ∧ status = 1 := by
  obtain ⟨text, htext, hlines⟩ := physicalLines_escaping
  have hspelled : File.ofText? text = some escaped.file := by
    rw [File.ofText?, hlines, ofLines?_render readable_escaped]
  have hexits : escaped.file.Exits (Scanner.mk [])
      (ascii "ABORTED\n:nothing to pin").toArray 1 :=
    ⟨2, rfl⟩
  refine ⟨by decide +kernel, text, ⟨ofEscaping, #[none, none], #[]⟩, escaped.file, htext, rfl,
    hspelled, by decide +kernel, by decide +kernel, hexits.iff⟩

end Example

end Target
end Contrary
