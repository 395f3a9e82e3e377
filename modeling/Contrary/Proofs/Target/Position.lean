import Contrary.Machine.Step
import Contrary.Proofs.Pairs
import Contrary.Proofs.Target.Semantics
import Contrary.Proofs.WellFormed
import Mathlib.Data.List.NodupEquivFin

/-!
# Positions in a program and in its blocks

The machine is at a position in a list of operations; the generated program has
a stack of blocks that are left to run.  `Machine.Resumes i ns` says that the
machine at position `i` has to run what the nestings `ns` stand for: the first
of them starts at `i`, and after each of them stands the operation that closes
the block around it.

**Jumps.**  The machine finds the position of a flag in a table.  The generated
program looks its label up in the blocks.  Where every flag is placed once, both
go to the same place (`resumes_find?`).

**Results.**
* `resumes_load`: a machine that was loaded is at the start of its nesting.
* `Resumes.op`, `Resumes.block`, `Resumes.done`: what stands at a position.
* `resumes_find?`: where a jump leads.
-/

namespace Contrary

namespace Machine

variable {m : Machine}

/-- The operations of a nesting stand from position `i` on, with their blocks
paired. -/
inductive Lies (m : Machine) : Nat → Nesting → Prop
  | done {i : Nat} : Lies m i .done
  | op {i : Nat} {l : OpLine} {next : Nesting} :
      m.program.ops[i]? = some l →
      l.op.isPlain = true →
      Lies m (i + 1) next →
      Lies m i (.op l next)
  | block {i : Nat} {first last : OpLine} {a b : Operand} {c : Comparison}
      {body next : Nesting} :
      m.program.ops[i]? = some first →
      first.op = .openBlock →
      m.program.ops[i + body.width + 1]? = some last →
      last.op = .closeBlock a b c →
      m.closing[i]? = some (some (i + body.width + 1)) →
      Lies m (i + 1) body →
      Lies m (i + body.width + 2) next →
      Lies m i (.block a b c body next)

/-- What stands at position `e`, where a block ends: the operation that closes it,
and then the blocks that are left. -/
def Continues (m : Machine) : Nat → List Nesting → Prop
  | e, [] => e = m.program.ops.size
  | e, n :: ns =>
      (∃ l a b c, m.program.ops[e]? = some l ∧ l.op = .closeBlock a b c) ∧
        m.Lies (e + 1) n ∧ m.Continues (e + 1 + n.width) ns

/-- What is left to run at position `i`. -/
def Resumes (m : Machine) (i : Nat) : List Nesting → Prop
  | [] => False
  | n :: ns => m.Lies i n ∧ m.Continues (i + n.width) ns

section Start

/-- A balanced part of the operations whose pairs are in the table. -/
theorem lies_of_spells
    {n : Nesting} {ls : List OpLine}
    (h : n.Spells ls) :
    ∀ {i : Nat} {t : Pairing},
      (∀ j l, ls[j]? = some l → m.program.ops[i + j]? = some l) →
      (∀ j, i ≤ j → j < i + n.width → m.closing[j]? = (n.pairUp i t)[j]?) →
      i + n.width ≤ t.size →
      m.Lies i n := by
  induction h with
  | done =>
      intro i t _ _ _
      exact .done
  | @op l next ls hplain hnext ih =>
      intro i t hops hclosing hsize
      simp only [Nesting.width] at hclosing hsize
      have hl := hops 0 l rfl
      refine .op hl hplain (ih (t := t) ?_ ?_ (by omega))
      · intro j o ho
        rw [Nat.add_right_comm]
        exact hops (j + 1) o ho
      · intro j hj hlt
        exact hclosing j (by omega) (by omega)
  | @block first last a b c body next inner ls hfirst hlast hbody hnext ihBody ihNext =>
      intro i t hops hclosing hsize
      simp only [Nesting.width] at hclosing hsize
      have hlen := hbody.length_eq
      have hopen : m.program.ops[i]? = some first := hops 0 first rfl
      have hclose : m.program.ops[i + body.width + 1]? = some last := by
        refine hops (body.width + 1) last ?_
        rw [List.getElem?_cons_succ, ← hlen, List.getElem?_append_right (Nat.le_refl _)]
        simp
      have hpair : m.closing[i]? = some (some (i + body.width + 1)) := by
        rw [hclosing i (Nat.le_refl _) (by omega)]
        simp only [Nesting.pairUp]
        rw [Nesting.pairUp_getElem?_of_outside next (by omega),
          Array.getElem?_setIfInBounds_self_of_lt]
        rw [Nesting.size_pairUp]
        omega
      refine .block hopen hfirst hclose hlast hpair (ihBody (t := t) ?_ ?_ (by omega))
        (ihNext (t := (body.pairUp (i + 1) t).setIfInBounds i (some (i + body.width + 1)))
          ?_ ?_ ?_)
      · intro j o ho
        have hlt := (List.getElem?_eq_some_iff.mp ho).1
        rw [Nat.add_right_comm]
        refine hops (j + 1) o ?_
        rw [List.getElem?_cons_succ, List.getElem?_append_left hlt, ho]
      · intro j hj hlt
        rw [hclosing j (by omega) (by omega)]
        simp only [Nesting.pairUp]
        rw [Nesting.pairUp_getElem?_of_outside next (by omega),
          Array.getElem?_setIfInBounds_ne (by omega)]
      · intro j o ho
        have hindex : i + body.width + 2 + j = i + (body.width + 1 + j + 1) := by omega
        rw [hindex]
        refine hops (body.width + 1 + j + 1) o ?_
        have hsub : body.width + 1 + j - inner.length = j + 1 := by omega
        rw [List.getElem?_cons_succ, List.getElem?_append_right (by omega), hsub,
          List.getElem?_cons_succ, ho]
      · intro j hj hlt
        exact hclosing j (by omega) (by omega)
      · rw [Array.size_setIfInBounds, Nesting.size_pairUp]
        omega

/-- A machine that was loaded stands at the start of its blocks. -/
theorem resumes_load
    {p : Program} {n : Nesting}
    (h : Nesting.ofOps p.lineCount p.ops.toList = .ok n) :
    ∃ m, Machine.load p = .ok m ∧ m.program = p ∧ m.marks = placeFlags p ∧ m.Resumes 0 [n] := by
  obtain ⟨hspells, hpairs⟩ := ofOps_of_nesting h
  have hlen := hspells.length_eq
  refine ⟨⟨p, _, placeFlags p⟩, by unfold Machine.load; rw [hpairs]; rfl, rfl, rfl, ?_, ?_⟩
  · refine lies_of_spells hspells (t := Array.replicate p.ops.toList.length none) ?_ ?_ ?_
    · intro j l hl
      simpa using hl
    · intro j _ _
      rfl
    · simp [← hlen]
  · simpa [Continues] using hlen.symm

end Start

section Closing

/-- The entry of the block that is opened at position `i` is `j`, and a later operation
closes it there. -/
def Closes (m : Machine) (i j : Nat) : Prop :=
  i < j ∧ m.closing[i]? = some (some j) ∧
    ∃ l a b c, m.program.ops[j]? = some l ∧ l.op = .closeBlock a b c

/-- The block that is opened at a position is closed later. -/
theorem Lies.closing
    {i : Nat} {n : Nesting}
    (h : m.Lies i n) :
    ∀ k (l : OpLine), i ≤ k → k < i + n.width → m.program.ops[k]? = some l → l.op = .openBlock →
      ∃ j, m.Closes k j := by
  induction h with
  | done =>
      intro k l hik hki
      simp only [Nesting.width] at hki
      omega
  | @op i l next hl hplain _ ih =>
      intro k o hik hki ho hopen
      simp only [Nesting.width] at hki
      by_cases hk : k = i
      · subst hk
        rw [hl] at ho
        cases ho
        rw [hopen] at hplain
        cases hplain
      · exact ih k o (by omega) (by omega) ho hopen
  | @block i first last a b c body next hfirst hopen hlast hclose hpair _ _ ihBody ihNext =>
      intro k o hik hki ho hop
      simp only [Nesting.width] at hki
      by_cases hk : k = i
      · subst hk
        exact ⟨_, by omega, hpair, last, a, b, c, hlast, hclose⟩
      · by_cases hbody : k < i + 1 + body.width
        · exact ihBody k o (by omega) hbody ho hop
        · by_cases hend : k = i + body.width + 1
          · subst hend
            rw [hlast] at ho
            cases ho
            rw [hclose] at hop
            cases hop
          · exact ihNext k o (by omega) (by omega) ho hop

theorem condition?_of_closes
    {i j : Nat}
    (h : m.Closes i j) :
    ∃ l a b c, m.program.ops[j]? = some l ∧ l.op = .closeBlock a b c ∧
      m.condition? i = some (j, a, b, c) := by
  obtain ⟨-, hentry, ⟨op, line, text⟩, a, b, c, hl, hop⟩ := h
  cases hop
  exact ⟨_, a, b, c, hl, rfl, by simp [condition?, hentry, hl]⟩

end Closing

section Reached

variable {i : Nat} {ns : List Nesting}

theorem Resumes.op
    {l : OpLine} {next : Nesting}
    (h : m.Resumes i (.op l next :: ns)) :
    m.program.ops[i]? = some l ∧ l.op.isPlain = true ∧ m.Resumes (i + 1) (next :: ns) := by
  obtain ⟨hlies, hmore⟩ := h
  cases hlies with
  | op hl hplain hnext =>
      refine ⟨hl, hplain, hnext, ?_⟩
      have hend : i + (next.width + 1) = i + 1 + next.width := by omega
      rwa [Nesting.width, hend] at hmore

theorem Resumes.block
    {a b : Operand} {c : Comparison} {body next : Nesting}
    (h : m.Resumes i (.block a b c body next :: ns)) :
    (∃ l, m.program.ops[i]? = some l ∧ l.op = .openBlock) ∧
    m.condition? i = some (i + body.width + 1, a, b, c) ∧
    m.Resumes (i + 1) (body :: next :: ns) ∧
    m.Resumes (i + body.width + 1 + 1) (next :: ns) := by
  obtain ⟨hlies, hmore⟩ := h
  cases hlies with
  | @block _ first last _ _ _ _ _ hfirst hopen hlast hclose hpair hbody hnext =>
      have hend : i + (body.width + next.width + 2) = i + body.width + 2 + next.width := by omega
      rw [Nesting.width, hend] at hmore
      have hstart : i + 1 + body.width = i + body.width + 1 := by omega
      refine ⟨⟨first, hfirst, hopen⟩, ?_, ⟨hbody, ?_⟩, hnext, hmore⟩
      · unfold condition?
        rw [hpair]
        obtain ⟨op, line, text⟩ := last
        cases hclose
        simp [hlast]
      · rw [hstart]
        exact ⟨⟨last, a, b, c, hlast, hclose⟩, hnext, hmore⟩

theorem Resumes.done
    {n : Nesting}
    (h : m.Resumes i (.done :: n :: ns)) :
    (∃ l a b c, m.program.ops[i]? = some l ∧ l.op = .closeBlock a b c) ∧
    m.Resumes (i + 1) (n :: ns) := by
  obtain ⟨-, hclose, hlies, hmore⟩ := h
  exact ⟨hclose, hlies, hmore⟩

theorem Resumes.atEnd
    (h : m.Resumes i [.done]) :
    i = m.program.ops.size :=
  h.2

end Reached

section Marks

/-- The scan that enters marks into a table keeps the last mark of each flag. -/
theorem foldl_marks
    {f : Nat} (ls : List OpLine) :
    ∀ (k : Nat) (marks : Array Nat),
      f < marks.size →
      let table := (ls.zipIdx k).foldl
        (fun marks (l, i) =>
          match l.op with
          | .mark f => marks.setIfInBounds f i
          | _ => marks) marks
      (∃ j l, ls[j]? = some l ∧ l.op = .mark f ∧ table[f]? = some (k + j)) ∨
        ((∀ l ∈ ls, l.op ≠ .mark f) ∧ table[f]? = marks[f]?) := by
  induction ls with
  | nil =>
      intro k marks _
      exact Or.inr ⟨by simp, rfl⟩
  | cons l ls ih =>
      intro k marks hf
      by_cases hmark : l.op = .mark f
      · have hsize : f < (marks.setIfInBounds f k).size := by simpa using hf
        have hset : (marks.setIfInBounds f k)[f]? = some k :=
          Array.getElem?_setIfInBounds_self_of_lt hf
        rcases ih (k + 1) _ hsize with ⟨j, o, ho, hop, htable⟩ | ⟨-, htable⟩
        · refine Or.inl ⟨j + 1, o, ho, hop, ?_⟩
          rw [List.zipIdx_cons, List.foldl_cons]
          simp only [hmark]
          rw [htable]
          congr 1
          omega
        · refine Or.inl ⟨0, l, rfl, hmark, ?_⟩
          rw [List.zipIdx_cons, List.foldl_cons]
          simp only [hmark]
          rw [htable, hset]
          rfl
      · -- the entry of the flag stays, whatever the operation is
        obtain ⟨marks', hmarks', hsize, hentry⟩ : ∃ marks',
            (match l.op with
              | .mark f => marks.setIfInBounds f k
              | _ => marks) = marks' ∧ f < marks'.size ∧ marks'[f]? = marks[f]? := by
          cases hop : l.op with
          | mark g =>
              have hne : g ≠ f := by
                rintro rfl
                exact hmark hop
              exact ⟨_, rfl, by simpa using hf, Array.getElem?_setIfInBounds_ne hne⟩
          | _ => exact ⟨_, rfl, hf, rfl⟩
        rw [List.zipIdx_cons, List.foldl_cons]
        simp only [hmarks']
        rcases ih (k + 1) marks' hsize with ⟨j, o, ho, hop, htable⟩ | ⟨hnone, htable⟩
        · refine Or.inl ⟨j + 1, o, ho, hop, ?_⟩
          rw [htable]
          congr 1
          omega
        · refine Or.inr ⟨?_, by rw [htable, hentry]⟩
          intro o ho
          rcases List.mem_cons.mp ho with rfl | ho
          · exact hmark
          · exact hnone o ho

theorem size_placeFlags
    (p : Program) :
    (placeFlags p).size = p.names.flags.size := by
  unfold placeFlags
  refine List.foldlRecOn (motive := fun marks : Array Nat => marks.size = p.names.flags.size) _ _
    (by simp) ?_
  rintro marks hsize ⟨l, i⟩ -
  dsimp only
  split
  · simpa using hsize
  · exact hsize

variable {lines : List TokenLine} {below : Nat} {p : Program}

/-- The table of marks leads to the mark of a flag. -/
theorem mark_of_placeFlags
    (hp : p.ReadFrom lines below)
    {f i : Nat}
    (h : (placeFlags p)[f]? = some i) :
    ∃ l, p.ops[i]? = some l ∧ l.op = .mark f := by
  have hf : f < p.names.flags.size := by
    have hlt := (Array.getElem?_eq_some_iff.mp h).1
    rwa [size_placeFlags] at hlt
  have hcount := hp.markedOnce f (by simpa [Names.table] using hf)
  have hmem : Op.mark f ∈ p.ops.toList.map OpLine.op := by
    rw [← List.count_pos_iff, hcount]
    exact Nat.one_pos
  obtain ⟨l, hl, hlop⟩ := List.mem_map.mp hmem
  rcases foldl_marks p.ops.toList 0 (Array.replicate p.names.flags.size 0)
    (by simpa using hf) with ⟨j, o, ho, hoop, htable⟩ | ⟨hnone, -⟩
  · have hij : i = j := by
      have heq := h.symm.trans htable
      simpa using heq
    exact ⟨o, by simpa [hij] using ho, hoop⟩
  · exact absurd hlop (hnone l hl)

/-- The flag of a mark is in its table. -/
theorem flag_of_mark
    (hp : p.ReadFrom lines below)
    {f i : Nat} {l : OpLine}
    (hl : p.ops[i]? = some l)
    (hmark : l.op = .mark f) :
    (p.names.table .flag)[f]? = some (p.names.flagName f) := by
  have hf : f < (p.names.table .flag).length := by
    refine hp.covered l (List.mem_of_getElem? (by simpa using hl)) .flag f ?_
    rw [hmark]
    exact NameKind.mem_only.mpr ⟨rfl, rfl⟩
  exact Names.table_flagName (by simpa [Names.table] using hf)

/-- Marks of one name are one mark. -/
theorem mark_unique
    (hp : p.ReadFrom lines below)
    {f g i j : Nat} {l o : OpLine}
    (hl : p.ops[i]? = some l)
    (hlmark : l.op = .mark f)
    (ho : p.ops[j]? = some o)
    (homark : o.op = .mark g)
    (hname : p.names.flagName f = p.names.flagName g) :
    i = j := by
  have hf := flag_of_mark hp hl hlmark
  have hg := flag_of_mark hp ho homark
  rw [← hname] at hg
  obtain ⟨-, rfl⟩ := Names.handle_unique hp.distinct hf hg
  have honce := hp.markedOnce f (List.getElem?_eq_some_iff.mp hf).1
  -- two marks at different positions would be counted twice
  have hlt : ∀ {a b : Nat}, (p.ops.toList.map OpLine.op)[a]? = some (.mark f) →
      (p.ops.toList.map OpLine.op)[b]? = some (.mark f) → ¬a < b := by
    intro a b ha hb hab
    obtain ⟨hal, ha⟩ := List.getElem?_eq_some_iff.mp ha
    obtain ⟨hbl, hb⟩ := List.getElem?_eq_some_iff.mp hb
    have htwice : List.Duplicate (.mark f) (p.ops.toList.map OpLine.op) :=
      List.duplicate_iff_exists_distinct_get.mpr ⟨⟨a, hal⟩, ⟨b, hbl⟩, hab, ha.symm, hb.symm⟩
    have := List.duplicate_iff_two_le_count.mp htwice
    omega
  have hi : (p.ops.toList.map OpLine.op)[i]? = some (.mark f) := by simp [hl, hlmark]
  have hj : (p.ops.toList.map OpLine.op)[j]? = some (.mark f) := by simp [ho, homark]
  have h1 := hlt hi hj
  have h2 := hlt hj hi
  omega

end Marks

section Jumps

open Target

variable {names : Names}

theorem place_notMem_checkPlace
    {x : Ident} (p : Place) :
    .place x ∉ checkPlace names p := by
  cases p with
  | var v => simp [checkPlace, checkVar]
  | element a i => cases i <;> simp [checkPlace, checkVar]

theorem place_notMem_check
    {x : Ident} (v : Operand) :
    .place x ∉ check names v := by
  cases v with
  | literal n => simp [check]
  | stored p => exact place_notMem_checkPlace p

/-- A line places the label of the flag that its operation marks. -/
theorem place_mem_statements
    {x : Ident} {op : Op} :
    .place x ∈ statements names op ↔ ∃ f, op = .mark f ∧ names.flagName f = x := by
  have hmove : ∀ v target shift compensate,
      .place x ∉ arithmetic names v target shift compensate := by
    intro v target shift compensate
    cases v with
    | literal n => simp [arithmetic, check, place_notMem_checkPlace]
    | stored p => simp [arithmetic, check, place_notMem_checkPlace]
  cases op <;>
    simp [statements, hmove, place_notMem_check, place_notMem_checkPlace, eq_comm]

section Labels

/-- The flag that an operation marks. -/
def marked? (l : OpLine) : Option Nat :=
  match l.op with
  | .mark f => some f
  | _ => none

theorem marked?_eq_some
    {l : OpLine} {f : Nat} :
    marked? l = some f ↔ l.op = .mark f := by
  unfold marked?
  split <;> simp_all

theorem labels_line
    (l : OpLine) :
    (statements names l.op).filterMap Stmt.label? =
      ((marked? l).map names.flagName).toList := by
  cases hmarked : marked? l with
  | some f =>
      rw [marked?_eq_some.mp hmarked]
      rfl
  | none =>
      have hno : ∀ x, .place x ∉ statements names l.op := by
        intro x hx
        obtain ⟨f, hf, -⟩ := place_mem_statements.mp hx
        rw [marked?_eq_some.mpr hf] at hmarked
        cases hmarked
      refine List.filterMap_eq_nil_iff.mpr ?_
      intro s hs
      cases s with
      | place x => exact absurd hs (hno x)
      | _ => rfl

/-- The labels of a program are the names of the flags that it marks. -/
theorem labels_block
    {n : Nesting} {ls : List OpLine}
    (h : n.Spells ls) :
    (block names n).labels = ls.filterMap fun l => (marked? l).map names.flagName := by
  have hbound : ∀ {l : OpLine}, l.op.isPlain = false → marked? l = none := by
    intro l hl
    unfold marked?
    split
    · rename_i hop
      rw [hop] at hl
      cases hl
    · rfl
  induction h with
  | done => rfl
  | @op l next ls hplain _ ih =>
      simp only [block, Block.labels, line, labels_line, ih, List.filterMap_cons]
      cases marked? l <;> rfl
  | @block first last a b c body next inner ls hfirst hlast _ _ ihBody ihNext =>
      have h1 : marked? first = none := hbound (by rw [hfirst]; rfl)
      have h2 : marked? last = none := hbound (by rw [hlast]; rfl)
      simp [block, Block.labels, ihBody, ihNext, h1, h2]

theorem labels_nodup
    {lines : List TokenLine} {below : Nat} {p : Program} {n : Nesting}
    (hp : p.ReadFrom lines below)
    (h : n.Spells p.ops.toList) :
    (block p.names n).labels.Nodup := by
  rw [labels_block h, List.Nodup, List.pairwise_filterMap, List.pairwise_iff_getElem]
  intro i j hi hj hij x hx y hy hxy
  obtain ⟨f, hf, rfl⟩ := Option.map_eq_some_iff.mp hx
  obtain ⟨g, hg, rfl⟩ := Option.map_eq_some_iff.mp hy
  have heq := mark_unique hp (i := i) (j := j) (by simp at hi; simp [hi])
    (marked?_eq_some.mp hf) (by simp at hj; simp [hj]) (marked?_eq_some.mp hg) hxy
  omega

end Labels

/-- A jump to the label of a flag leads to its mark. -/
theorem find?_block
    {t f : Nat} {o : OpLine}
    (ho : m.program.ops[t]? = some o)
    (hmark : o.op = .mark f)
    (honly : ∀ i l g, m.program.ops[i]? = some l → l.op = .mark g →
      names.flagName g = names.flagName f → i = t)
    (n : Nesting) :
    ∀ (i : Nat) (ns : List Nesting),
      m.Resumes i (n :: ns) →
      (∃ ks, (block names n).find? (names.flagName f) (ns.map (block names)) =
          some (ks.map (block names)) ∧ m.Resumes t ks) ∨
        ((block names n).find? (names.flagName f) (ns.map (block names)) = none ∧
          (t < i ∨ i + n.width ≤ t)) := by
  induction n with
  | done =>
      intro i ns _
      refine Or.inr ⟨rfl, ?_⟩
      simp only [Nesting.width]
      omega
  | op l next ih =>
      intro i ns h
      obtain ⟨hl, -, hnext⟩ := h.op
      simp only [block, Block.find?]
      by_cases hplace : .place (names.flagName f) ∈ (line names l).body
      · obtain ⟨g, hg, hname⟩ := place_mem_statements.mp hplace
        obtain rfl := honly i l g hl hg hname
        refine Or.inl ⟨.op l next :: ns, ?_, h⟩
        have hbody : (line names l).body = [.place (names.flagName f)] := by
          simp [line, hg, statements, hname]
        have hdrop : (line names l).body.dropWhile (· ≠ .place (names.flagName f)) =
            (line names l).body := by
          rw [hbody]
          simp
        rw [if_pos hplace, hdrop]
        rfl
      · rw [if_neg hplace]
        have hne : t ≠ i := by
          rintro rfl
          obtain rfl := Option.some.inj (hl.symm.trans ho)
          exact hplace (place_mem_statements.mpr ⟨f, hmark, rfl⟩)
        rcases ih (i + 1) ns hnext with hfound | ⟨hnone, hout⟩
        · exact Or.inl hfound
        · refine Or.inr ⟨hnone, ?_⟩
          simp only [Nesting.width]
          omega
  | block a b c body next ihBody ihNext =>
      intro i ns h
      obtain ⟨⟨first, hfirst, hopen⟩, hcond, hbody, hnext⟩ := h.block
      obtain ⟨last, _, _, _, hlast, hclose⟩ := hbody.2.1
      simp only [block, Block.find?]
      rcases ihBody (i + 1) (next :: ns) hbody with ⟨ks, hks, hresumes⟩ | ⟨hnone, hout⟩
      · refine Or.inl ⟨ks, ?_, hresumes⟩
        rw [List.map_cons] at hks
        rw [hks]
        rfl
      · rw [List.map_cons] at hnone
        rw [hnone, Option.none_or]
        rcases ihNext _ ns hnext with hfound | ⟨hnone', hout'⟩
        · exact Or.inl hfound
        · refine Or.inr ⟨hnone', ?_⟩
          have hi : t ≠ i := by
            rintro rfl
            obtain rfl := Option.some.inj (hfirst.symm.trans ho)
            exact absurd (hopen.symm.trans hmark) (by simp)
          have hj : t ≠ i + 1 + body.width := by
            rintro rfl
            obtain rfl := Option.some.inj (hlast.symm.trans ho)
            exact absurd (hclose.symm.trans hmark) (by simp)
          simp only [Nesting.width]
          omega

/-- The machine and the generated program jump to the same place. -/
theorem resumes_find?
    {lines : List TokenLine} {below : Nat} {n : Nesting} {f t : Nat}
    (hp : m.program.ReadFrom lines below)
    (hstart : m.Resumes 0 [n])
    (hmarks : m.marks = placeFlags m.program)
    (hf : m.marks[f]? = some t) :
    ∃ ks, (block m.program.names n).find? (m.program.names.flagName f) [] =
        some (ks.map (block m.program.names)) ∧ m.Resumes t ks := by
  rw [hmarks] at hf
  obtain ⟨o, ho, hmark⟩ := mark_of_placeFlags hp hf
  have honly : ∀ i l g, m.program.ops[i]? = some l → l.op = .mark g →
      m.program.names.flagName g = m.program.names.flagName f → i = t := by
    intro i l g hl hg hname
    exact mark_unique hp hl hg ho hmark hname
  rcases find?_block ho hmark honly n 0 [] hstart with hfound | ⟨-, hout⟩
  · exact hfound
  · have hlt := (Array.getElem?_eq_some_iff.mp ho).1
    have hend : 0 + n.width = m.program.ops.size := hstart.2
    omega

end Jumps

end Machine
end Contrary
