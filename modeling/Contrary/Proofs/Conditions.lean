import Contrary.Proofs.LineEnds
import Contrary.Proofs.Values

/-!
# Conditional blocks

A block is opened by a line `fi` and closed by a line `if A .. B` above it.  It runs when the
comparison that this line spells does not hold, and is left out when it holds.

**Comparisons.**  `Comparison.Spoken` is the table of the phrases between `A` and `B` and of
what they say about two integers.  An operation stores the opposite (`holds_iff_not_spoken`).

**Lines.**  The code of the line of an operation is the words of the operation
(`Program.exists_line`), with the one exception of arrays that are defined again.

**Results.**
* `blocks_run_on_the_opposite`: where a program goes on at a `fi` and at the `if` of it.
-/

namespace Contrary

namespace Comparison

/-- The words between the two sides of an `if` line, and what they say about two integers. -/
inductive Spoken : List String → (Int → Int → Prop) → Prop
  | greater : Spoken ["greater", "than"] (fun a b => a > b)
  | lower : Spoken ["lower", "than"] (fun a b => a < b)
  | equal : Spoken ["equal", "to"] (fun a b => a = b)
  | notEqual : Spoken ["not", "equal", "to"] (fun a b => a ≠ b)
  | lowerOrEqual : Spoken ["lower", "or", "equal", "than"] (fun a b => a ≤ b)
  | greaterOrEqual : Spoken ["greater", "or", "equal", "than"] (fun a b => a ≥ b)

/-- The words of the line `if A .. B`. -/
def ifLine (a : Word) (words : List String) (b : Word) : List Word :=
  .name (ascii "if") :: a :: words.map (fun w => .name (ascii w)) ++ [b]

/-- A comparison holds exactly if its negation, as it is spoken, does not.  Numbers are
compared with their signs. -/
theorem holds_iff_not_spoken
    (c : Comparison) :
    ∃ relation, Spoken c.negate.words relation ∧
      ∀ x y : Int32, c.holds x y = true ↔ ¬ relation x.toInt y.toInt := by
  cases c with
  | equal =>
      refine ⟨_, .notEqual, ?_⟩
      simp [holds, Int32.toInt_inj]
  | notEqual =>
      refine ⟨_, .equal, ?_⟩
      simp [holds, Int32.toInt_inj]
  | less =>
      refine ⟨_, .greaterOrEqual, ?_⟩
      simp [holds, Int32.lt_iff_toInt_lt]
  | greater =>
      refine ⟨_, .lowerOrEqual, ?_⟩
      simp [holds, Int32.lt_iff_toInt_lt]
  | lessOrEqual =>
      refine ⟨_, .greater, ?_⟩
      simp [holds, Int32.le_iff_toInt_le]
  | greaterOrEqual =>
      refine ⟨_, .lower, ?_⟩
      simp [holds, Int32.le_iff_toInt_le]

end Comparison

namespace Op

/-- The words of a comparison that a line spells are the opposite of the one stored. -/
theorem words_closeBlock
    (t : Names) (a b : Operand) (c : Comparison) :
    (Op.closeBlock a b c).words t =
      Comparison.ifLine (a.word t) c.negate.words (b.word t) := by
  cases c <;> rfl

/-- The code of a line is the words of its operation, unless it defines an array. -/
theorem code_of_ofCode
    {t t' : Names} {code : List Token} {op : Op}
    (h : Op.ofCode t code = .ok (op, t'))
    (hop : ∀ a, op ≠ .defineArray a) :
    code = (op.words t').flatMap Word.tokens := by
  obtain ⟨c, ws, args, rfl, hargs, hmeaning⟩ := Op.ofCode_eq_ok h
  rcases Op.phrase_of_meaning hmeaning with hphrase | ⟨x, a, n, -, -, rfl, -⟩
  · rw [Op.words, hphrase, ← Piece.fill_of_match? hargs]
  · exact absurd rfl (hop a)

end Op

namespace Program

/-- The line of a source from which an operation was read. -/
theorem exists_line
    {source : Bytes} {p : Program}
    (hp : ofSource source = .ok p)
    {l : OpLine}
    (hl : l ∈ p.ops.toList)
    (hop : ∀ a, l.op ≠ .defineArray a) :
    ∃ tls tl, TokenLine.ofSource source = .ok tls ∧ numberedLine? tls l.line = some tl ∧
      tl.raw = l.text ∧ code tl = (l.op.words p.names).flatMap Word.tokens := by
  obtain ⟨tls, htls, hread⟩ := ofSource_eq_ok hp
  obtain ⟨-, -, tl, htl, htext⟩ := (readFrom_ofTokenLines hread).1.located l hl
  obtain ⟨-, hops⟩ := mem_ops_of_readLines tls hread
  rcases hops l hl with hnone | ⟨tl', htl', t, t', htext', hcode, hgrows⟩
  · cases hnone
  · -- lines with the same text have the same tokens
    obtain ⟨-, htokens⟩ := TokenLine.mem_ofLines _ htls tl (List.mem_of_getElem? htl)
    obtain ⟨-, htokens'⟩ := TokenLine.mem_ofLines _ htls tl' htl'
    rw [← htext'.symm.trans htext] at htokens
    have hsame : tl'.tokens = tl.tokens := Except.ok.inj (htokens'.symm.trans htokens)
    refine ⟨tls, tl, htls, htl, htext.symm, ?_⟩
    rw [Op.words_of_grows hgrows (Op.ofCode_extension hcode).covers,
      ← Op.code_of_ofCode hcode hop, code, code, hsame]

end Program

namespace Machine

variable {σ : Type} [NumberSource σ] {m : Machine} {s : State} {l : OpLine}

/-- What the operation that opens a block does, when both sides of the comparison that closes
it can be read. -/
theorem step_openBlock
    {j : Nat} {a b : Operand} {c : Comparison} {x y : Int32}
    (hl : m.program.ops[s.pc]? = some l)
    (hop : l.op = .openBlock)
    (hcond : m.condition? s.pc = some (j, a, b, c))
    (hx : s.Shows a x)
    (hy : s.Shows b y) (input : σ) :
    m.step s input =
      Step.next { s with pc := if c.holds x y then s.pc + 1 else j + 1 } input := by
  have ha : { s with pc := s.pc + 1 }.value m.program.names l a = .ok x :=
    State.value_eq_ok_iff.mpr hx
  have hb : { s with pc := s.pc + 1 }.value m.program.names l b = .ok y :=
    State.value_eq_ok_iff.mpr hy
  simp only [step, hl, exec, hop, branch, hcond, ha, hb, bind, Except.bind, pure, Except.pure,
    Step.ofState]
  cases c.holds x y <;> rfl

/-- The operation that closes a block does nothing. -/
theorem step_closeBlock
    {a b : Operand} {c : Comparison}
    (hl : m.program.ops[s.pc]? = some l)
    (hop : l.op = .closeBlock a b c) (input : σ) :
    m.step s input = Step.next { s with pc := s.pc + 1 } input := by
  simp only [step, hl, exec, hop]

/-- **Blocks run on the opposite of what they say.**  An operation that opens a block is paired
with the operation of a line `if A .. B` of the source.  When both sides can be read, the step
changes nothing but the position: the program goes on in the block if the comparison that the
line spells does not hold for the values shown, and after the block if it holds.  The
operation of the line itself changes nothing. -/
theorem blocks_run_on_the_opposite
    {source : Bytes} {p : Program}
    (hp : Program.ofSource source = .ok p)
    (hm : Machine.load p = .ok m)
    (hl : p.ops[s.pc]? = some l)
    (hop : l.op = .openBlock) :
    ∃ (t : Pairing) (j : Nat) (o : OpLine) (a b : Operand) (words : List String)
        (relation : Int → Int → Prop),
      Pairing.ofOps (p.ops.toList.map OpLine.op) = .ok t ∧ t[s.pc]? = some (some j) ∧
      p.ops[j]? = some o ∧ (∃ c, o.op = .closeBlock a b c) ∧
      Comparison.Spoken words relation ∧
      (∃ tls tl, TokenLine.ofSource source = .ok tls ∧
        Program.numberedLine? tls o.line = some tl ∧ tl.raw = o.text ∧
        Program.code tl =
          (Comparison.ifLine (a.word p.names) words (b.word p.names)).flatMap Word.tokens) ∧
      (∀ (x y : Int32) (input : σ), s.Shows a x → s.Shows b y →
        (¬ relation x.toInt y.toInt →
          m.step s input = Step.next { s with pc := s.pc + 1 } input) ∧
        (relation x.toInt y.toInt →
          m.step s input = Step.next { s with pc := j + 1 } input)) ∧
      ∀ (s' : State) (input : σ), s'.pc = j →
        m.step s' input = Step.next { s' with pc := j + 1 } input := by
  obtain ⟨-, hlinked⟩ := linked_load hp hm
  obtain ⟨rfl, hpairs⟩ := load_eq_ok hm
  obtain ⟨j, hcloses⟩ := hlinked.closing s.pc l hl hop
  obtain ⟨o, a, b, c, ho, hclose, hcond⟩ := condition?_of_closes hcloses
  obtain ⟨relation, hspoken, hholds⟩ := c.holds_iff_not_spoken
  obtain ⟨tls, tl, htls, htl, htext, hcode⟩ := Program.exists_line hp
    (List.mem_of_getElem? (by simpa using ho)) (fun d hd => by rw [hclose] at hd; cases hd)
  rw [hclose, Op.words_closeBlock] at hcode
  refine ⟨m.closing, j, o, a, b, c.negate.words, relation, hpairs, hcloses.2.1, ho, ⟨c, hclose⟩,
    hspoken, ⟨tls, tl, htls, htl, htext, hcode⟩, ?_, ?_⟩
  · intro x y input hx hy
    have hstep := step_openBlock hl hop hcond hx hy input
    constructor
    · intro hnot
      rw [hstep, if_pos ((hholds x y).mpr hnot)]
    · intro hrelation
      rw [hstep, if_neg (fun hc => (hholds x y).mp hc hrelation)]
  · rintro s' input rfl
    exact step_closeBlock ho hclose input

/-- A block within a block, after a move that makes `x` show 5. -/
def blockInBlock : Bytes :=
  Listing.join <|
    [ "if x greater than 3", "if y equal to x", "read to y", "fi", "fi", "sub 5 from y",
      "undefine y", "undefine x" ].map ascii

/-- The program of these lines. -/
def ofBlockInBlock : Program where
  names := ⟨#[ascii "x", ascii "y"], #[], #[]⟩
  ops :=
    #[ ⟨.define 0, 1, ascii "undefine x"⟩,
      ⟨.define 1, 2, ascii "undefine y"⟩,
      ⟨.add (.literal 5) (.var 1), 3, ascii "sub 5 from y"⟩,
      ⟨.openBlock, 4, ascii "fi"⟩,
      ⟨.openBlock, 5, ascii "fi"⟩,
      ⟨.print (.stored (.var 1)), 6, ascii "read to y"⟩,
      ⟨.closeBlock (.stored (.var 1)) (.stored (.var 0)) .notEqual, 7, ascii "if y equal to x"⟩,
      ⟨.closeBlock (.stored (.var 0)) (.literal 3) .lessOrEqual, 8, ascii "if x greater than 3"⟩ ]
  lineCount := 8

/-- The value 5 is greater than 3, so the outer block is left out. -/
theorem blockInBlock_skipped :
    Program.ofSource blockInBlock = .ok ofBlockInBlock ∧
    ∃ m s, Machine.load ofBlockInBlock = .ok m ∧ s = (m.run 3 (Scanner.mk [])).1.state ∧
      s.pc = 3 ∧ s.Shows (.stored (.var 0)) 5 ∧
      m.step s (Scanner.mk []) = Step.next { s with pc := 8 } (Scanner.mk []) := by
  have hp : Program.ofSource blockInBlock = .ok ofBlockInBlock := by decide +kernel
  cases hm : Machine.load ofBlockInBlock with
  | error e => cases hm
  | ok m =>
      generalize hs : (m.run 3 (Scanner.mk [])).1.state = s
      have hpc : s.pc = 3 := by
        cases hm
        rw [← hs]
        decide +kernel
      have hvars : s.vars[0]? = some ⟨0, true⟩ ∧ s.offset = 5 := by
        cases hm
        rw [← hs]
        decide +kernel
      have hclosing : m.closing[3]? = some (some 7) := by
        cases hm
        decide +kernel
      have hx : s.Shows (.stored (.var 0)) 5 := ⟨⟨0, true⟩, hvars.1, rfl, by rw [hvars.2]; rfl⟩
      obtain ⟨t, j, o, a, b, words, relation, hpairs, hj, ho, ⟨c, hclose⟩, hspoken,
        ⟨tls, tl, htls, htl, htext, hcode⟩, hstep, -⟩ :=
        blocks_run_on_the_opposite (σ := Scanner) (s := s) (l := ⟨.openBlock, 4, ascii "fi"⟩) hp hm
          (by rw [hpc]; rfl) rfl
      obtain rfl : t = m.closing := Except.ok.inj (hpairs.symm.trans (load_eq_ok hm).2)
      obtain rfl : j = 7 := by
        rw [hpc, hclosing] at hj
        exact (Option.some.inj (Option.some.inj hj)).symm
      cases ho
      cases hclose
      have htokens : tl.tokens = [.name (ascii "if"), .name (ascii "x"), .name (ascii "greater"),
          .name (ascii "than"), .literal 3] := by
        obtain ⟨-, h⟩ := TokenLine.mem_ofLines _ htls tl (List.mem_of_getElem? htl)
        rw [htext] at h
        exact Except.ok.inj (h.symm.trans (by decide +kernel))
      have hgreater : relation 5 3 := by
        rw [Program.code, htokens] at hcode
        cases hspoken with
        | greater => decide
        | lower => exact absurd hcode (by decide +kernel)
        | equal => exact absurd hcode (by decide +kernel)
        | notEqual => exact absurd hcode (by decide +kernel)
        | lowerOrEqual => exact absurd hcode (by decide +kernel)
        | greaterOrEqual => exact absurd hcode (by decide +kernel)
      exact ⟨hp, m, s, rfl, hs.symm, hpc, hx, (hstep 5 3 _ hx rfl).2 hgreater⟩

end Machine

end Contrary
