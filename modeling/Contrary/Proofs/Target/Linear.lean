import Contrary.Proofs.Target.Position

/-!
# The generated text, operation by operation

The generator reads a program as a tree of blocks and writes the tree.  The head of a
block is made from the operation that closes it, which comes after all that stands
inside.  This module says what the text is in the order of the operations: each of them
gives one piece, and the head of a block is the piece of the operation that opens it.

**Pieces.**  `piece p t i` is the text of the operation at position `i`, for a table `t`
of blocks.  The text of a nesting is the text of its positions, one after another
(`render_block`).

**Nesting.**  `Block.within` lists the lines of a block with the heads of the blocks that
they stand in.  These are the blocks that the table puts around their operations
(`within_block`).

**Results.**
* `toC_linear`: both, for the text of a whole program.
-/

namespace Contrary
namespace Target

section Pieces

/-- The condition of the block that the operation at a position closes. -/
def conditionAt? (p : Program) (j : Nat) : Option (Operand × Operand × Comparison) :=
  match p.ops[j]? with
  | some ⟨.closeBlock a b c, _, _⟩ => some (a, b, c)
  | _ => none

/-- The head of a block: liveness checks of both operands, and the comparison. -/
def headText (names : Names) (a b : Operand) (c : Comparison) : Bytes :=
  (check names a).flatMap Stmt.render ++ (check names b).flatMap Stmt.render ++
    Bytes.line (ascii "if(" ++ (expr names a).render ++ c.symbol ++ (expr names b).render ++
      ascii ")\x7b")

/-- The line of an operation that is no bound of a block: its statements and its source
line as a comment. -/
def lineText (names : Names) (l : OpLine) : Bytes :=
  Bytes.line ((line names l).renderBody ++ ascii "//" ++ annotation l.text)

/-- The text of the operation at a position.  What opens a block gives the head of the
block, for which the table says where it is closed. -/
def piece (p : Program) (t : Pairing) (i : Nat) : Bytes :=
  match p.ops[i]? with
  | none => []
  | some l =>
      match l.op with
      | .openBlock =>
          match t[i]?.join.bind (conditionAt? p) with
          | none => []
          | some (a, b, c) => headText p.names a b c
      | .closeBlock _ _ _ => Bytes.line (ascii "\x7d")
      | _ => lineText p.names l

theorem conditionAt?_of_closeBlock
    {p : Program} {j : Nat} {l : OpLine} {a b : Operand} {c : Comparison}
    (hl : p.ops[j]? = some l)
    (hop : l.op = .closeBlock a b c) :
    conditionAt? p j = some (a, b, c) := by
  obtain ⟨op, line, text⟩ := l
  cases hop
  simp [conditionAt?, hl]

theorem render_head
    (names : Names) (a b : Operand) (c : Comparison) :
    (head names a b c).render = headText names a b c := by
  simp [Head.render, head, headText, List.flatMap_append]

theorem piece_plain
    {p : Program} {t : Pairing} {i : Nat} {l : OpLine}
    (hl : p.ops[i]? = some l)
    (hplain : l.op.isPlain = true) :
    piece p t i = lineText p.names l := by
  simp only [piece, hl]
  split
  · rename_i hop
    rw [hop] at hplain
    cases hplain
  · rename_i hop
    rw [hop] at hplain
    cases hplain
  · rfl

theorem piece_openBlock
    {p : Program} {t : Pairing} {i j : Nat} {l : OpLine} {a b : Operand} {c : Comparison}
    (hl : p.ops[i]? = some l)
    (hop : l.op = .openBlock)
    (hj : t[i]? = some (some j))
    (hcond : conditionAt? p j = some (a, b, c)) :
    piece p t i = headText p.names a b c := by
  unfold piece
  rw [hl, hj]
  simp only [hop, Option.join_some, Option.bind_some, hcond]

theorem piece_closeBlock
    {p : Program} {t : Pairing} {i : Nat} {l : OpLine} {a b : Operand} {c : Comparison}
    (hl : p.ops[i]? = some l)
    (hop : l.op = .closeBlock a b c) :
    piece p t i = Bytes.line (ascii "\x7d") := by
  unfold piece
  rw [hl]
  simp only [hop]

variable {m : Machine}

/-- The text of a nesting is the text of its positions, one after another. -/
theorem render_block
    {i : Nat} {n : Nesting}
    (h : m.Lies i n) :
    (block m.program.names n).render =
      (List.range' i n.width).flatMap (piece m.program m.closing) := by
  induction h with
  | done => rfl
  | op hl hplain _ ih =>
      rw [Nesting.width, List.range'_succ, List.flatMap_cons, piece_plain hl hplain, ← ih]
      rfl
  | block hfirst hopen hlast hclose hpair _ _ ihBody ihNext =>
      have hcond := conditionAt?_of_closeBlock hlast hclose
      rw [Nesting.width, Nesting.range'_block, List.flatMap_cons, List.flatMap_append,
        List.flatMap_cons, piece_openBlock hfirst hopen hpair hcond,
        piece_closeBlock hlast hclose, ← ihBody, ← ihNext, ← render_head]
      simp [block, Block.render]

end Pieces

section Within

/-- The lines of a block, each with the heads of the blocks around it, outermost first.
The block itself stands in the blocks `outer`. -/
def Block.within (outer : List Head) : Block → List (List Head × Line)
  | .done => []
  | .line l next => (outer, l) :: next.within outer
  | .branch h body next => body.within (outer ++ [h]) ++ next.within outer

/-- The operation at a position, if it is no bound of a block. -/
def plainAt? (p : Program) (k : Nat) : Option OpLine :=
  p.ops[k]?.filter (·.op.isPlain)

/-- The head of the block with the given bounds, if a position is between them. -/
def headAround? (p : Program) (k : Nat) (q : Nat × Nat) : Option Head :=
  if q.1 < k ∧ k < q.2 then
    (conditionAt? p q.2).map fun (a, b, c) => head p.names a b c
  else none

/-- The heads of the blocks around a position. -/
def headsAround (p : Program) (k : Nat) (pairs : List (Nat × Nat)) : List Head :=
  pairs.filterMap (headAround? p k)

variable {m : Machine} {k : Nat}

theorem plainAt?_bound
    {p : Program} {l : OpLine}
    (hl : p.ops[k]? = some l)
    (hplain : l.op.isPlain = false) :
    plainAt? p k = none := by
  simp [plainAt?, hl, hplain]

theorem headsAround_append
    (p : Program) (qs qs' : List (Nat × Nat)) :
    headsAround p k (qs ++ qs') = headsAround p k qs ++ headsAround p k qs' :=
  List.filterMap_append

/-- No block of a nesting is around a position outside of it. -/
theorem headsAround_outside
    (p : Program) (n : Nesting) {i : Nat}
    (hk : k ≤ i ∨ i + n.width ≤ k) :
    headsAround p k (n.pairs i) = [] := by
  refine List.filterMap_eq_nil_iff.mpr ?_
  intro q hq
  have hbounds := Nesting.mem_pairs hq
  have hout : ¬ (q.1 < k ∧ k < q.2) := by omega
  rw [headAround?, if_neg hout]

section Bounds

variable {p : Program} {i : Nat} {a b : Operand} {c : Comparison} {body next : Nesting}

/-- Around a position inside a block stands the block, and what stands around it there. -/
theorem headsAround_inside
    (hcond : conditionAt? p (i + body.width + 1) = some (a, b, c))
    (hk : i + 1 ≤ k ∧ k < i + 1 + body.width) :
    headsAround p k ((Nesting.block a b c body next).pairs i) =
      head p.names a b c :: headsAround p k (body.pairs (i + 1)) := by
  have hbetween : i < k ∧ k < i + body.width + 1 := by omega
  have hhead : headAround? p k (i, i + body.width + 1) = some (head p.names a b c) := by
    rw [headAround?, if_pos hbetween, hcond, Option.map_some]
  have hnext := headsAround_outside p next (k := k) (i := i + body.width + 2) (by omega)
  calc headsAround p k ((Nesting.block a b c body next).pairs i)
      = head p.names a b c ::
          headsAround p k (body.pairs (i + 1) ++ next.pairs (i + body.width + 2)) :=
        List.filterMap_cons_some hhead
    _ = head p.names a b c :: headsAround p k (body.pairs (i + 1)) := by
        rw [headsAround_append, hnext, List.append_nil]

/-- A block is not around a position after it. -/
theorem headsAround_after
    (hk : i + body.width + 2 ≤ k) :
    headsAround p k ((Nesting.block a b c body next).pairs i) =
      headsAround p k (next.pairs (i + body.width + 2)) := by
  have hbetween : ¬ (i < k ∧ k < i + body.width + 1) := by omega
  have hhead : headAround? p k (i, i + body.width + 1) = none := by
    rw [headAround?, if_neg hbetween]
  have hbody := headsAround_outside p body (k := k) (i := i + 1) (by omega)
  calc headsAround p k ((Nesting.block a b c body next).pairs i)
      = headsAround p k (body.pairs (i + 1) ++ next.pairs (i + body.width + 2)) :=
        List.filterMap_cons_none hhead
    _ = headsAround p k (next.pairs (i + body.width + 2)) := by
        rw [headsAround_append, hbody, List.nil_append]

end Bounds

/-- The lines of a nesting stand in the blocks around their positions. -/
theorem within_block
    {i : Nat} {n : Nesting}
    (h : m.Lies i n) :
    ∀ outer : List Head,
      (block m.program.names n).within outer =
        (List.range' i n.width).filterMap fun k =>
          (plainAt? m.program k).map fun l =>
            (outer ++ headsAround m.program k (n.pairs i), line m.program.names l) := by
  induction h with
  | done =>
      intro outer
      rfl
  | @op i l next hl hplain _ ih =>
      intro outer
      have hfirst : plainAt? m.program i = some l := by simp [plainAt?, hl, hplain]
      have hnone := headsAround_outside m.program next (k := i) (i := i + 1) (by omega)
      rw [Nesting.width, List.range'_succ, List.filterMap_cons, hfirst, block, Block.within, ih]
      simp [Nesting.pairs, hnone]
  | @block i first last a b c body next hfirst hopen hlast hclose hpair _ _ ihBody ihNext =>
      intro outer
      have hcond := conditionAt?_of_closeBlock hlast hclose
      have hopenNone : plainAt? m.program i = none :=
        plainAt?_bound hfirst (by rw [hopen]; rfl)
      have hcloseNone : plainAt? m.program (i + body.width + 1) = none :=
        plainAt?_bound hlast (by rw [hclose]; rfl)
      rw [Nesting.width, Nesting.range'_block, List.filterMap_cons, List.filterMap_append,
        List.filterMap_cons, hopenNone, hcloseNone, block, Block.within, ihBody, ihNext]
      simp only [Option.map_none]
      congr 1
      · refine List.filterMap_congr ?_
        intro k hk
        rw [headsAround_inside hcond (List.mem_range'_1.mp hk), List.append_assoc]
        rfl
      · refine List.filterMap_congr ?_
        intro k hk
        rw [headsAround_after (List.mem_range'_1.mp hk).1]

end Within

/-- **The generated text, operation by operation.**  Between the declarations and the leak
checks, the text of a program whose blocks pair consists of the pieces of its operations,
in their order: the head of its block for an operation that opens one, a brace for one
that closes it, and its own line for any other.  Every operation that opens a block has
an entry that leads to the one that closes it.  And each of the other operations has one
line in the generated blocks, in its order, which stands in the blocks that the table puts
around it, and in no others. -/
theorem toC_linear
    {p : Program} {t : Pairing}
    (hops : p.ops ≠ #[])
    (ht : Pairing.ofOps (p.ops.toList.map OpLine.op) = .ok t) :
    p.toC = .ok (preamble ++ Bytes.line (ascii "int main()\x7b") ++
      (declarations p.names).flatMap Decl.render ++
      (List.range p.ops.size).flatMap (piece p t) ++
      Bytes.line ((leakChecks p.names).flatMap LeakCheck.render) ++ Bytes.line (ascii "\x7d")) ∧
    (∀ i (l : OpLine), p.ops[i]? = some l → l.op = .openBlock →
      ∃ j a b c, i < j ∧ t[i]? = some (some j) ∧ conditionAt? p j = some (a, b, c)) ∧
    ∃ body, Code.ofProgram p = .ok (.main (declarations p.names) body (leakChecks p.names)) ∧
      body.within [] = (List.range p.ops.size).filterMap fun k =>
        (plainAt? p k).map fun l => (headsAround p k t.pairs, line p.names l) := by
  obtain ⟨n, hn, -, -, hpairs⟩ := tabulated_ofOps p.lineCount ht
  obtain ⟨m, hload, rfl, -, hlies, hend⟩ := Machine.resumes_load hn
  have hwidth : n.width = m.program.ops.size := by
    rw [← Nat.zero_add n.width]
    exact hend
  have hclosing : m.closing = t := by
    unfold Machine.load at hload
    rw [ht] at hload
    exact (congrArg Machine.closing (Except.ok.inj hload)).symm
  have hcode : Code.ofProgram m.program =
      .ok (.main (declarations m.program.names) (block m.program.names n)
        (leakChecks m.program.names)) := by
    unfold Code.ofProgram
    rw [hn, if_neg (by simpa using hops)]
    rfl
  refine ⟨?_, ?_, block m.program.names n, hcode, ?_⟩
  · unfold Program.toC
    rw [hcode, ← hclosing, List.range_eq_range', ← hwidth, ← render_block hlies]
    rfl
  · intro i l hl hop
    have hlt := (Array.getElem?_eq_some_iff.mp hl).1
    obtain ⟨j, hij, hentry, o, a, b, c, ho, hclose⟩ :=
      hlies.closing i l (by omega) (by omega) hl hop
    exact ⟨j, a, b, c, hij, hclosing ▸ hentry, conditionAt?_of_closeBlock ho hclose⟩
  · rw [within_block hlies, List.range_eq_range', hpairs, hwidth]
    rfl

/-- A block in a block, and a block after them. -/
def threeBlocks : Program where
  names := ⟨#[ascii "x"], #[], #[]⟩
  ops :=
    #[ ⟨.define 0, 1, ascii "undefine x"⟩,
      ⟨.openBlock, 2, ascii "fi"⟩,
      ⟨.openBlock, 3, ascii "fi"⟩,
      ⟨.print (.stored (.var 0)), 4, ascii "read to x"⟩,
      ⟨.closeBlock (.stored (.var 0)) (.literal 1) .less, 5, ascii "if x greater or equal than 1"⟩,
      ⟨.closeBlock (.stored (.var 0)) (.literal 2) .less, 6, ascii "if x greater or equal than 2"⟩,
      ⟨.openBlock, 7, ascii "fi"⟩,
      ⟨.goto, 8, ascii "halt"⟩,
      ⟨.closeBlock (.literal 3) (.stored (.var 0)) .equal, 9, ascii "if 3 not equal to x"⟩ ]
  lineCount := 9

theorem threeBlocks_linear :
    threeBlocks.ops ≠ #[] ∧
    Pairing.ofOps (threeBlocks.ops.toList.map OpLine.op) =
      .ok #[none, some 5, some 4, none, none, none, some 8, none, none] ∧
    ∃ body, Code.ofProgram threeBlocks =
        .ok (.main (declarations threeBlocks.names) body (leakChecks threeBlocks.names)) ∧
      body.within [] =
        [ ([], line threeBlocks.names ⟨.define 0, 1, ascii "undefine x"⟩),
          ([ head threeBlocks.names (.stored (.var 0)) (.literal 2) .less,
              head threeBlocks.names (.stored (.var 0)) (.literal 1) .less ],
            line threeBlocks.names ⟨.print (.stored (.var 0)), 4, ascii "read to x"⟩),
          ([head threeBlocks.names (.literal 3) (.stored (.var 0)) .equal],
            line threeBlocks.names ⟨.goto, 8, ascii "halt"⟩) ] := by
  have hops : threeBlocks.ops ≠ #[] := by decide
  have ht : Pairing.ofOps (threeBlocks.ops.toList.map OpLine.op) =
      .ok #[none, some 5, some 4, none, none, none, some 8, none, none] := by decide
  obtain ⟨-, -, body, hcode, hwithin⟩ := toC_linear hops ht
  exact ⟨hops, ht, body, hcode, hwithin.trans (by decide +kernel)⟩

end Target
end Contrary
