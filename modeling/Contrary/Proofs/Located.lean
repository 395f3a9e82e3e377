import Contrary.Build
import Contrary.Proofs.Safety

/-!
# Faults point at their lines

Lines are counted from the bottom where a source is read, and from the top where a
fault is shown.  Whatever finds a fault, the reading of the tokens, of the program or of
its blocks or a run of it, the number and the text that it gives are those of a line of
the listing.

**Lines.**  `Listing.HasLine lines line text` says that the line with a number, counted
from the bottom, is the given text.  Token lines are in the order of these numbers, so
the reversal of the listing is dealt with once (`hasLine_of_reverse`).

**Faults.**  `Located.PointsInto` says of a located fault that it counts the lines of a
listing and names one of them.  There is a lemma for each stage that can fail, and
`Program.hasLine_of_mem_ops` for the lines of operations, which blocks and runs blame.

**Results.**
* `faults_point_at_lines`: every fault of a build and every failure of a run.
-/

namespace Contrary

/-- The line with a number, counted from the bottom, is the given text. -/
def Listing.HasLine (lines : List Bytes) (line : Int) (text : Bytes) : Prop :=
  1 ≤ line ∧ line ≤ lines.length ∧ lines[(lines.length - line).toNat]? = some text

/-- The fault counts the lines of a listing and names one of them. -/
def Located.PointsInto {ε : Type} (lines : List Bytes) (e : Located ε) : Prop :=
  e.lineCount = lines.length ∧ Listing.HasLine lines e.line e.text

section Lines

theorem Listing.hasLine_of_reverse
    {lines : List Bytes} {k : Nat} {text : Bytes}
    (h : lines.reverse[k]? = some text) :
    Listing.HasLine lines (k + 1) text := by
  have hlt : k < lines.length := by simpa using (List.getElem?_eq_some_iff.mp h).1
  rw [List.getElem?_reverse hlt] at h
  have hindex : ((lines.length : Int) - (k + 1)).toNat = lines.length - 1 - k := by omega
  exact ⟨by omega, by omega, by rw [hindex]; exact h⟩

/-- The line number from the top, for a listing whose lines a signed word can count. -/
theorem Report.topLine_eq
    {r : Report}
    (hfirst : 1 ≤ r.line)
    (hlast : r.line ≤ r.lineCount)
    (hcount : r.lineCount < 1 <<< 63) :
    r.topLine = r.lineCount - r.line + 1 := by
  have hvalue : r.lineCount - (r.line - 1) = r.lineCount - r.line + 1 := by omega
  unfold Report.topLine
  rw [hvalue]
  exact Int.bmod_eq_of_le (by omega) (by omega)

end Lines

section Tokens

/-- Token lines keep the lines that they were read from. -/
theorem TokenLine.map_raw_of_ofLines
    {total : Nat} (raws : List Bytes) :
    ∀ {below : Nat} {tls : List TokenLine},
      TokenLine.ofLines total below raws = .ok tls →
      tls.map TokenLine.raw = raws := by
  induction raws with
  | nil =>
      intro below tls h
      cases h
      rfl
  | cons raw above ih =>
      intro below tls h
      unfold TokenLine.ofLines at h
      split at h
      · cases h
      · split at h
        · cases h
        · rename_i rest hrest
          cases h
          rw [List.map_cons, ih hrest]

/-- A number out of range is a fault of the line in which it stands. -/
theorem TokenLine.ofLines_eq_error
    {total : Nat} (raws : List Bytes) :
    ∀ {below : Nat} {e : Located LiteralError},
      TokenLine.ofLines total below raws = .error e →
      ∃ j : Nat, raws[j]? = some e.text ∧ e.line = below + j + 1 ∧ e.lineCount = total := by
  induction raws with
  | nil =>
      intro below e h
      cases h
  | cons raw above ih =>
      intro below e h
      unfold TokenLine.ofLines at h
      split at h
      · cases h
        exact ⟨0, rfl, by simp, rfl⟩
      · split at h
        · rename_i e' herror
          cases h
          obtain ⟨j, htext, hline, hcount⟩ := ih herror
          exact ⟨j + 1, htext, by rw [hline]; push_cast; omega, hcount⟩
        · cases h

theorem TokenLine.pointsInto_of_ofSource_error
    {source : Bytes} {e : Located LiteralError}
    (h : TokenLine.ofSource source = .error e) :
    e.PointsInto (Listing.lines source) := by
  obtain ⟨j, htext, hline, hcount⟩ := TokenLine.ofLines_eq_error _ h
  have hnumber : e.line = j + 1 := by omega
  exact ⟨hcount, hnumber ▸ Listing.hasLine_of_reverse htext⟩

end Tokens

namespace Program

variable {source : Bytes} {tls : List TokenLine}

/-- The token lines of a source are its lines, the last one first. -/
theorem hasLine_of_getElem?
    (htls : TokenLine.ofSource source = .ok tls)
    {k : Nat} {tl : TokenLine}
    (hk : tls[k]? = some tl) :
    Listing.HasLine (Listing.lines source) (k + 1) tl.raw := by
  refine Listing.hasLine_of_reverse ?_
  rw [← TokenLine.map_raw_of_ofLines _ htls, List.getElem?_map, hk]
  rfl

theorem length_of_ofSource
    (htls : TokenLine.ofSource source = .ok tls) :
    tls.length = (Listing.lines source).length := by
  have hraws := congrArg List.length (TokenLine.map_raw_of_ofLines _ htls)
  simpa using hraws

/-- A phrase without a meaning is a fault of the line in which it stands. -/
theorem readLines_eq_error
    {total : Nat} (above : List TokenLine) :
    ∀ {below : Nat} {p : Program} {e : Located PhraseError},
      readLines total below p above = .error e →
      ∃ (j : Nat) (tl : TokenLine), above[j]? = some tl ∧ e.text = tl.raw ∧
        e.line = below + j + 1 ∧ e.lineCount = total := by
  induction above with
  | nil =>
      intro below p e h
      cases h
  | cons tl above ih =>
      intro below p e h
      have hlater : ∀ {p' : Program}, readLines total (below + 1) p' above = .error e →
          ∃ (j : Nat) (tl' : TokenLine), (tl :: above)[j]? = some tl' ∧ e.text = tl'.raw ∧
            e.line = below + j + 1 ∧ e.lineCount = total := by
        intro p' h'
        obtain ⟨j, tl', htl', htext, hline, hcount⟩ := ih h'
        exact ⟨j + 1, tl', htl', htext, by rw [hline]; push_cast; omega, hcount⟩
      unfold readLines at h
      split_ifs at h
      · exact hlater h
      · split at h
        · cases h
          exact ⟨0, tl, rfl, rfl, by simp, rfl⟩
        · exact hlater h

theorem pointsInto_of_ofTokenLines_error
    (htls : TokenLine.ofSource source = .ok tls)
    {e : Located PhraseError}
    (h : ofTokenLines tls = .error e) :
    e.PointsInto (Listing.lines source) := by
  obtain ⟨j, tl, htl, htext, hline, hcount⟩ := readLines_eq_error _ h
  have hnumber : e.line = j + 1 := by omega
  refine ⟨by rw [hcount, length_of_ofSource htls], ?_⟩
  rw [hnumber, htext]
  exact hasLine_of_getElem? htls htl

/-- The line of an operation is a line of the source. -/
theorem hasLine_of_mem_ops
    (htls : TokenLine.ofSource source = .ok tls)
    {p : Program}
    (hp : ofTokenLines tls = .ok p)
    {l : OpLine}
    (hl : l ∈ p.ops.toList) :
    Listing.HasLine (Listing.lines source) l.line l.text := by
  obtain ⟨hread, -⟩ := readFrom_ofTokenLines hp
  obtain ⟨hfirst, -, tl, htl, htext⟩ := hread.located l hl
  have hline := hasLine_of_getElem? htls htl
  have hnumber : (((l.line - 1).toNat : Nat) : Int) + 1 = l.line := by omega
  rwa [hnumber, ← htext] at hline

/-- Blocks that do not pair are a fault of an operation. -/
theorem toC_eq_error
    {p : Program} {e : Located Imbalance}
    (h : p.toC = .error e) :
    ∃ l ∈ p.ops.toList, e = ⟨l.line, p.lineCount, l.text, e.cause⟩ := by
  unfold toC at h
  cases hn : Nesting.ofOps p.lineCount p.ops.toList with
  | ok n =>
      obtain ⟨code, hcode⟩ := ofProgram_of_nesting hn
      rw [hcode] at h
      cases h
  | error e' =>
      rw [ofProgram_of_nesting_error hn] at h
      cases h
      obtain ⟨j, l, hl, he, -⟩ := ofOps_of_nesting_error hn
      exact ⟨l, List.mem_of_getElem? hl, he⟩

theorem pointsInto_of_toC_error
    (htls : TokenLine.ofSource source = .ok tls)
    {p : Program}
    (hp : ofTokenLines tls = .ok p)
    {e : Located Imbalance}
    (h : p.toC = .error e) :
    e.PointsInto (Listing.lines source) := by
  obtain ⟨l, hl, he⟩ := toC_eq_error h
  obtain ⟨-, hcount⟩ := readFrom_ofTokenLines hp
  rw [he]
  exact ⟨by rw [hcount, length_of_ofSource htls], hasLine_of_mem_ops htls hp hl⟩

end Program

/-- Every fault that a build can end with points into the listing. -/
theorem SourceError.report_pointsInto
    {o : Build.Options} {elapsed : Stage → Bytes} {source : Bytes} {e : SourceError}
    (h : (Build.run o elapsed source).2 = .error e) :
    e.report.lineCount = (Listing.lines source).length ∧
      Listing.HasLine (Listing.lines source) e.report.line e.report.text := by
  unfold Build.run at h
  split at h
  · rename_i e' hliteral
    cases h
    exact TokenLine.pointsInto_of_ofSource_error hliteral
  · rename_i tls htls
    dsimp only at h
    split at h
    · rename_i e' hphrase
      cases h
      exact Program.pointsInto_of_ofTokenLines_error htls hphrase
    · rename_i p hp
      split at h
      · rename_i e' hblock
        cases h
        exact Program.pointsInto_of_toC_error htls hp hblock
      · cases h

/-- **Faults point at their lines.**  A fault of a build, of whichever stage, counts the lines
of the source and gives the number of one of them, from the bottom, and its text; the
number from the top that is shown for it leads to the same line, as long as a signed word
of 64 bits can count the lines.  A failure of a run gives the number and the text of a
line as well. -/
theorem faults_point_at_lines
    (source : Bytes) :
    (∀ (o : Build.Options) (elapsed : Stage → Bytes) (e : SourceError),
      (Build.run o elapsed source).2 = .error e →
      e.report.lineCount = (Listing.lines source).length ∧
      1 ≤ e.report.line ∧ e.report.line ≤ e.report.lineCount ∧
      (Listing.lines source)[(e.report.lineCount - e.report.line).toNat]? = some e.report.text ∧
      ((Listing.lines source).length < 1 <<< 63 →
        1 ≤ e.report.topLine ∧ e.report.topLine ≤ e.report.lineCount ∧
        (Listing.lines source)[(e.report.topLine - 1).toNat]? = some e.report.text)) ∧
    ∀ {σ : Type} [NumberSource σ] (p : Program) (m : Machine),
      Program.ofSource source = .ok p →
      Machine.load p = .ok m →
      ∀ (limit : Nat) (input : σ) (line : Int) (text : Bytes) (cause : Failure),
        (m.run limit input).2 = .halted (.failure line text cause) →
        1 ≤ line ∧ line ≤ (Listing.lines source).length ∧
        (Listing.lines source)[((Listing.lines source).length - line).toNat]? = some text := by
  constructor
  · intro o elapsed e h
    obtain ⟨hcount, hfirst, hlast, htext⟩ := SourceError.report_pointsInto h
    rw [← hcount] at hlast htext
    refine ⟨hcount, hfirst, hlast, htext, ?_⟩
    intro hwords
    have htop := Report.topLine_eq hfirst hlast (by omega)
    have hindex : e.report.topLine - 1 = e.report.lineCount - e.report.line := by omega
    exact ⟨by omega, by omega, by rw [hindex]; exact htext⟩
  · intro σ _ p m hp hm limit input line text cause hends
    obtain ⟨tls, htls, hread⟩ := Program.ofSource_eq_ok hp
    obtain ⟨rfl, hlinked⟩ := Machine.linked_load hp hm
    obtain ⟨-, hlawful⟩ := Machine.run_sound hlinked limit input
    rw [hends] at hlawful
    obtain ⟨l, hl, rfl, rfl, -⟩ := hlawful
    exact Program.hasLine_of_mem_ops htls hread hl

/-- Five lines, ended by returns, the last of them blank; the second one names a variable
that nothing introduced. -/
def strayName : Bytes :=
  ascii "forget L\r\nprint y\r\ny //\r\nundefine x\r\n\r\n"

/-- Three lines, of which the first one leaves an array. -/
def strayIndex : Bytes :=
  ascii "read to a[2]\n\nundefine single a[2]"

/-- The program of these lines. -/
def ofStrayIndex : Program where
  names := ⟨#[], #[⟨ascii "a", 2⟩], #[]⟩
  ops :=
    #[ ⟨.defineArray 0, 1, ascii "undefine single a[2]"⟩,
      ⟨.print (.stored (.element 0 (.literal 2))), 3, ascii "read to a[2]"⟩ ]
  lineCount := 3

/-- A stray name is found on the fourth line from the bottom and shown on the second from
the top; an index out of range stops a run at the line that holds it. -/
theorem strayName_points_at_line :
    (∃ e, (Build.run ⟨true, true⟩ (fun _ => []) strayName).2 = .error e ∧
      e.report.line = 4 ∧ e.report.topLine = 2 ∧ e.report.text = ascii "print y" ∧
      (Listing.lines strayName)[(e.report.topLine - 1).toNat]? = some e.report.text) ∧
    ∃ m, Machine.load ofStrayIndex = .ok m ∧
      (m.run 2 (Scanner.mk [])).2 =
        .halted (.failure 3 (ascii "read to a[2]") (.outOfRange 2 (ascii "a") 2)) ∧
      ∃ lines, Listing.lines strayIndex = lines ∧
        lines[(lines.length - (3 : Int)).toNat]? = some (ascii "read to a[2]") := by
  constructor
  · obtain ⟨hbuild, -⟩ := faults_point_at_lines strayName
    have he : (Build.run ⟨true, true⟩ (fun _ => []) strayName).2 =
        .error (.phrase ⟨4, 5, ascii "print y", .notDefined (ascii "y") .variable⟩) := by
      decide +kernel
    obtain ⟨-, -, -, -, htop⟩ := hbuild _ _ _ he
    obtain ⟨-, -, htext⟩ := htop (by decide +kernel)
    exact ⟨_, he, rfl, by decide, rfl, htext⟩
  · obtain ⟨-, hrun⟩ := faults_point_at_lines strayIndex
    have hp : Program.ofSource strayIndex = .ok ofStrayIndex := by decide +kernel
    cases hm : Machine.load ofStrayIndex with
    | error e => cases hm
    | ok m =>
        have hends : (m.run 2 (Scanner.mk [])).2 =
            .halted (.failure 3 (ascii "read to a[2]") (.outOfRange 2 (ascii "a") 2)) := by
          cases hm
          decide +kernel
        obtain ⟨-, -, htext⟩ := hrun _ m hp hm _ _ _ _ _ hends
        exact ⟨m, rfl, hends, _, rfl, htext⟩

end Contrary
