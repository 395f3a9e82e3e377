import Contrary.Proofs.Target.PhysicalLines
import Contrary.Target.Printer

/-!
# The preamble of generated C

The lines that stand before every generated main function are lines of their own, and they
are read as the definitions of generated files: the texts that the macros write, the statuses
that they return, and the sign of `get`.

**Evaluation.**  These facts are about fixed texts, so they are computed.  Taking a long string
apart is slow, so they are computed on its characters (`ascii_ofList`).

**Results.**
* `isLine_preambleLines`: the lines of the preamble stay lines.
* `definitions_preamble`: what the preamble defines.
-/

namespace Contrary
namespace Target

theorem ascii_ofList
    (cs : List Char) :
    ascii (String.ofList cs) = cs.map Char.toUInt8 := by
  rw [ascii, String.toList_ofList]

section Lines

/-- A text that stays a line of its own, also where carriage returns end lines. -/
def isWholeLine (row : Bytes) : Bool :=
  !row.contains '\n'.toUInt8 && !row.contains '\r'.toUInt8 && row.getLast?.all isSolid

theorem isWholeLine_ascii
    {cs : List Char}
    (h : isWholeLine (cs.map Char.toUInt8) = true) :
    isWholeLine (ascii (String.ofList cs)) = true := by
  rwa [ascii_ofList]

set_option maxRecDepth 2000 in
theorem isWholeLine_preambleLines :
    ∀ l ∈ preambleLines, isWholeLine (ascii l) = true := by
  unfold preambleLines
  simp only [List.forall_mem_cons]
  refine ⟨?_, ?_, ?_, ?_, ?_, ?_, ?_, ?_, ?_, ?_, ?_, ?_, ?_, ?_, ?_, ?_, ?_, nofun⟩
  all_goals exact isWholeLine_ascii (by decide +kernel)

theorem isLine_preambleLines
    {l : Bytes}
    (hl : l ∈ preambleLines.map ascii) :
    IsLine l ∧ '\r'.toUInt8 ∉ l := by
  obtain ⟨l, hmem, rfl⟩ := List.mem_map.mp hl
  have hwhole := isWholeLine_preambleLines l hmem
  simp only [isWholeLine, Bool.and_eq_true, Bool.not_eq_true', List.contains_eq_mem,
    decide_eq_false_iff_not] at hwhole
  exact ⟨⟨hwhole.1.1, hwhole.2⟩, hwhole.1.2⟩

theorem preamble_eq :
    preamble = (preambleLines.map ascii).flatMap Bytes.line :=
  (List.flatMap_map ..).symm

end Lines

namespace Reader

section Definitions

theorem fixed_cons
    (text : String) (ls : List Bytes) :
    fixed text (ascii text :: ls) = some ls := by
  rw [fixed, if_pos rfl]

theorem whole_cons
    {α : Type} {read : Bytes → Option (α × Bytes)} {l : Bytes} {x : α} (ls : List Bytes)
    (h : read l = some (x, [])) :
    whole read (l :: ls) = some (x, ls) := by
  rw [whole, h]

/-- Computes what is read from a line on the characters of the line and of a text in the
result. -/
theorem read_ascii
    {α : Type} {f : Bytes → Option (α × Bytes)} (g : Bytes → α) {line text : List Char}
    (h : f (line.map Char.toUInt8) = some (g (text.map Char.toUInt8), [])) :
    f (ascii (String.ofList line)) = some (g (ascii (String.ofList text)), []) := by
  rwa [ascii_ofList, ascii_ofList]

-- Rewriting with `Option.bind_eq_bind`, which holds by `rfl`, would make the kernel compute the
-- texts that are compared.
theorem some_bind
    {α β : Type} (x : α) (f : α → Option β) :
    (some x >>= f) = f x := by
  simp

set_option maxRecDepth 2000 in
/-- What the preamble defines. -/
theorem definitions_preamble
    (ls : List Bytes) :
    definitions (preambleLines.map ascii ++ ls) = some (.generated, ls) := by
  have hglobal : after "int global=" (before literal ";") (ascii "int global=0;") =
      some (0, []) := by
    decide +kernel
  have herr : after "    " (printedName "text") (ascii "    printf(\"ABORTED\\n:%s\",text);") =
      some (⟨ascii "ABORTED\n:", []⟩, []) := by
    decide +kernel
  have hstatus : after "    " returned (ascii "    return 1;") = some (1, []) := by
    decide +kernel
  have hgoto : gotoMacro
      (ascii "#define GOTO if(label!=NULL) goto *label; else return err(\"nothing to pin\")") =
      some (ascii "nothing to pin", []) :=
    read_ascii id (by decide +kernel)
  have hleak : leakMacro
      (ascii "#define LEAK_CHECK(on_name,normal) if(on_name) \x7bprintf(\"ABORTED\\nMemory leaked: %s. Everything should be undefined at the end using \\\"define\\\"\",normal);return 1;\x7d") =
      some ((⟨ascii "ABORTED\nMemory leaked: ",
        ascii ". Everything should be undefined at the end using \"define\""⟩, 1), []) :=
    read_ascii (fun text => (Format.mk (ascii "ABORTED\nMemory leaked: ") text, 1))
      (by decide +kernel)
  have halive : aliveMacro
      (ascii "#define ASSERT_ALIVE(bool_name) if(!(bool_name)) \x7bprintf(\"ABORTED\\nTried to use already undefined variable/flag/array\");return 1;\x7d") =
      some ((ascii "ABORTED\nTried to use already undefined variable/flag/array", 1), []) :=
    read_ascii (fun text => (text, 1)) (by decide +kernel)
  have hget : after "    return val " (before sign " global;") (ascii "    return val + global;") =
      some (.plus, []) := by
    decide +kernel
  simp only [preambleLines, List.map_cons, List.map_nil, List.cons_append, List.nil_append,
    definitions, errFunction, getFunction, fixed_cons, whole_cons _ hglobal, whole_cons _ herr,
    whole_cons _ hstatus, whole_cons _ hgoto, whole_cons _ hleak, whole_cons _ halive,
    whole_cons _ hget, some_bind, Option.pure_def, Definitions.generated]

end Definitions

end Reader

end Target
end Contrary
