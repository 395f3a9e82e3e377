import Contrary.Proofs.Target.Reader
import Contrary.Proofs.Text

/-!
# The lines of a text of C

A text is cut into lines, and some lines are joined again, before anything in it is read.
Whatever the lines hold, so also in a comment, this decides what belongs together.

**Line ends.**  Up to a carriage return nothing but line feeds ends a line
(`unifyEnds_append`), so a text is cut at its line feeds alone if and only if it has no
carriage return (`physicalLines_eq_iff`).

**Joined lines.**  A line whose last byte is neither a backslash nor a blank is not joined with
the next one (`IsLine`, `splice_eq`).
-/

namespace Contrary
namespace Target

section Pieces

/-- The bytes of the pieces are those of the text, but for the byte at which it is cut. -/
theorem mem_splitOn_iff
    {sep b : UInt8} {s : Bytes}
    (hb : b ≠ sep) :
    (∃ piece ∈ Bytes.splitOn sep s, b ∈ piece) ↔ b ∈ s := by
  induction s with
  | nil => simp [Bytes.splitOn]
  | cons c s ih =>
      rw [Bytes.splitOn, List.mem_cons, ← ih]
      split_ifs with hc
      · simp [hc, hb]
      · split
        · rename_i hnil
          simp [hnil]
        · rename_i piece pieces hcons
          simp [hcons, or_assoc]

theorem splitOn_lines_append
    {ls : List Bytes}
    (hls : ∀ l ∈ ls, '\n'.toUInt8 ∉ l) (t : Bytes) :
    Bytes.splitOn '\n'.toUInt8 (ls.flatMap Bytes.line ++ t) =
      ls ++ Bytes.splitOn '\n'.toUInt8 t := by
  induction ls with
  | nil => rfl
  | cons l ls ih =>
      obtain ⟨hl, hls⟩ := List.forall_mem_cons.mp hls
      rw [List.flatMap_cons, Bytes.line, List.append_assoc, List.append_assoc,
        List.singleton_append, splitOn_append_cons _ hl, ih hls, List.cons_append]

theorem splitOn_lines
    {ls : List Bytes}
    (hls : ∀ l ∈ ls, '\n'.toUInt8 ∉ l) :
    Bytes.splitOn '\n'.toUInt8 (ls.flatMap Bytes.line) = ls ++ [[]] := by
  rw [← List.append_nil (ls.flatMap Bytes.line), splitOn_lines_append hls]
  rfl

end Pieces

namespace Reader

section Ends

theorem return_ne_newline :
    '\r'.toUInt8 ≠ '\n'.toUInt8 := by
  decide

theorem unifyEnds_cons
    {b : UInt8} (s : Bytes)
    (hb : b ≠ '\r'.toUInt8) :
    unifyEnds (b :: s) = b :: unifyEnds s := by
  cases s with
  | nil => exact if_neg hb
  | cons c s => rw [unifyEnds, if_neg hb]

theorem unifyEnds_append
    {s : Bytes} (t : Bytes)
    (hs : '\r'.toUInt8 ∉ s) :
    unifyEnds (s ++ t) = s ++ unifyEnds t := by
  induction s with
  | nil => rfl
  | cons b s ih =>
      rw [List.mem_cons, not_or] at hs
      rw [List.cons_append, unifyEnds_cons _ (Ne.symm hs.1), ih hs.2, List.cons_append]

theorem unifyEnds_of_notMem
    {s : Bytes}
    (hs : '\r'.toUInt8 ∉ s) :
    unifyEnds s = s := by
  rw [← List.append_nil s, unifyEnds_append [] hs]
  rfl

theorem return_notMem_unifyEnds
    (s : Bytes) :
    '\r'.toUInt8 ∉ unifyEnds s := by
  fun_induction unifyEnds s with
  | case1 => exact List.not_mem_nil
  | case2 => exact fun h => return_ne_newline (List.mem_singleton.mp h)
  | case3 b hb => exact fun h => hb (List.mem_singleton.mp h).symm
  | case4 s ih => exact List.not_mem_cons_of_ne_of_not_mem return_ne_newline ih
  | case5 c s _ ih => exact List.not_mem_cons_of_ne_of_not_mem return_ne_newline ih
  | case6 b c s hb ih => exact List.not_mem_cons_of_ne_of_not_mem (Ne.symm hb) ih

/-- A text is cut at its line feeds alone if and only if it has no carriage return. -/
theorem physicalLines_eq_iff
    {s : Bytes} :
    physicalLines s = Bytes.splitOn '\n'.toUInt8 s ↔ '\r'.toUInt8 ∉ s := by
  constructor
  · intro h hmem
    rw [← mem_splitOn_iff return_ne_newline, ← h, physicalLines,
      mem_splitOn_iff return_ne_newline] at hmem
    exact return_notMem_unifyEnds s hmem
  · intro h
    rw [physicalLines, unifyEnds_of_notMem h]

theorem physicalLines_singleton_iff
    {l : Bytes}
    (hl : '\n'.toUInt8 ∉ l) :
    physicalLines l = [l] ↔ '\r'.toUInt8 ∉ l := by
  rw [← physicalLines_eq_iff, splitOn_of_notMem hl]

/-- A line feed that ends a line of its own ends it for a compiler as well. -/
theorem physicalLines_lines_append
    {ls : List Bytes}
    (hls : ∀ l ∈ ls, '\n'.toUInt8 ∉ l ∧ '\r'.toUInt8 ∉ l) (t : Bytes) :
    physicalLines (ls.flatMap Bytes.line ++ t) = ls ++ physicalLines t := by
  have hreturn : '\r'.toUInt8 ∉ ls.flatMap Bytes.line := by
    intro hmem
    obtain ⟨l, hl, hmem⟩ := List.mem_flatMap.mp hmem
    rcases List.mem_append.mp hmem with hmem | hmem
    · exact (hls l hl).2 hmem
    · exact absurd (List.mem_singleton.mp hmem) (by decide)
  rw [physicalLines, unifyEnds_append t hreturn, splitOn_lines_append fun l hl => (hls l hl).1,
    physicalLines]

end Ends

end Reader

section Joined

/-- A byte that can end a line that is not joined with the next one. -/
def isSolid (b : UInt8) : Bool :=
  !Reader.isGap b && b != '\\'.toUInt8

/-- A text that stays a line of its own. -/
def IsLine (s : Bytes) : Prop :=
  '\n'.toUInt8 ∉ s ∧ s.getLast?.all isSolid = true

instance (s : Bytes) : Decidable (IsLine s) :=
  inferInstanceAs (Decidable (_ ∧ _))

theorem isLine_append
    {t s : Bytes}
    (ht : '\n'.toUInt8 ∉ t)
    (hs : IsLine s)
    (hne : s ≠ []) :
    IsLine (t ++ s) := by
  refine ⟨?_, ?_⟩
  · rw [List.mem_append, not_or]
    exact ⟨ht, hs.1⟩
  · have hlast := hs.2
    rw [List.getLast?_eq_some_getLast hne] at hlast
    rw [List.getLast?_append, List.getLast?_eq_some_getLast hne]
    exact hlast

theorem dropEndWhile_of_getLast
    {p : UInt8 → Bool} {s : Bytes} {b : UInt8}
    (hb : s.getLast? = some b)
    (hp : p b = false) :
    Bytes.dropEndWhile p s = s := by
  obtain ⟨init, rfl⟩ := List.getLast?_eq_some_iff.mp hb
  simp [Bytes.dropEndWhile, hp]

theorem IsLine.continues
    {s : Bytes}
    (hs : IsLine s) :
    Reader.continues s = false := by
  cases hlast : s.getLast? with
  | none =>
      rw [List.getLast?_eq_none_iff.mp hlast]
      rfl
  | some b =>
      have hsolid := hs.2
      rw [hlast, Option.all_some, isSolid, Bool.and_eq_true, Bool.not_eq_true', bne_iff_ne] at hsolid
      rw [Reader.continues, dropEndWhile_of_getLast hlast hsolid.1, hlast]
      exact beq_eq_false_iff_ne.mpr fun h => hsolid.2 (Option.some.inj h)

theorem splice_eq
    {ls : List Bytes}
    (hls : ∀ l ∈ ls, IsLine l) :
    Reader.splice ls = ls := by
  induction ls with
  | nil => rfl
  | cons l ls ih =>
      obtain ⟨hl, hls⟩ := List.forall_mem_cons.mp hls
      rw [Reader.splice, ih hls]
      cases ls with
      | nil => rfl
      | cons next more => simp [hl.continues]

end Joined

end Target
end Contrary
