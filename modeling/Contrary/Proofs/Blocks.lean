import Contrary.Machine.State
import Contrary.Proofs.Names
import Contrary.Target.OfProgram

/-!
# Two readings of the blocks of a program

The machine pairs the operations that open and close blocks with a scan that
keeps the open ones on a stack.  The generator of C reads the same blocks by
descent, as a tree.  This module shows that they find the same blocks, and that
they blame the same operation where the blocks do not pair.

**Balanced lists.**  `Nesting.Spells n ls` says that the operations `ls` are
balanced and nested as `n`.  The scan passes over a balanced list without a
change to its stack (`scan_spells`), and enters its pairs into the table
(`Nesting.pairUp`).

**Descent.**  What the descent reads is balanced up to the end, or up to the
operation that closes the block outside (`spells_of_read`); where it fails, the
scan fails at the same operation (`scan_of_read_error`).

**Results.**
* `ofOps_of_nesting`: what the scan gives for a program that the descent accepts.
* `blocks_blamed_alike`: both accept the same programs and blame the same
  operation.
-/

namespace Contrary

/-- An operation that neither opens nor closes a block. -/
def Op.isPlain : Op → Bool
  | .openBlock => false
  | .closeBlock _ _ _ => false
  | _ => true

namespace Nesting

/-- How many operations are nested so, those that open and close blocks included. -/
def width : Nesting → Nat
  | .done => 0
  | .op _ next => next.width + 1
  | .block _ _ _ body next => body.width + next.width + 2

/-- The operations are balanced and nested so. -/
inductive Spells : Nesting → List OpLine → Prop
  | done : Spells .done []
  | op {l : OpLine} {next : Nesting} {ls : List OpLine} :
      l.op.isPlain = true →
      Spells next ls →
      Spells (.op l next) (l :: ls)
  | block {first last : OpLine} {a b : Operand} {c : Comparison} {body next : Nesting}
      {inner ls : List OpLine} :
      first.op = .openBlock →
      last.op = .closeBlock a b c →
      Spells body inner →
      Spells next ls →
      Spells (.block a b c body next) (first :: (inner ++ last :: ls))

theorem Spells.length_eq
    {n : Nesting} {ls : List OpLine}
    (h : n.Spells ls) :
    ls.length = n.width := by
  induction h with
  | done => rfl
  | op hplain _ ih => simp [width, ih]
  | block hfirst hlast _ _ ihBody ihNext =>
      simp only [width, List.length_cons, List.length_append, ihBody, ihNext]
      omega

/-- Enters the pairs of the blocks into a table, where the first operation is at
position `i`. -/
def pairUp (i : Nat) : Nesting → Pairing → Pairing
  | .done, t => t
  | .op _ next, t => next.pairUp (i + 1) t
  | .block _ _ _ body next, t =>
      next.pairUp (i + body.width + 2)
        ((body.pairUp (i + 1) t).setIfInBounds i (some (i + body.width + 1)))

end Nesting

section Scan

open Pairing Nesting

theorem scan_plain
    {op : Op} (h : op.isPlain = true)
    (i : Nat) (opened : List Nat) (t : Pairing) (ops : List Op) :
    scan i opened t (op :: ops) = scan (i + 1) opened t ops := by
  cases op <;> first | rfl | cases h

/-- The scan passes over a balanced list. -/
theorem scan_spells
    {n : Nesting} {ls : List OpLine}
    (h : n.Spells ls) :
    ∀ (i : Nat) (opened : List Nat) (t : Pairing) (more : List Op),
      scan i opened t (ls.map OpLine.op ++ more) =
        scan (i + n.width) opened (n.pairUp i t) more := by
  induction h with
  | done =>
      intro i opened t more
      rfl
  | @op l next ls hplain _ ih =>
      intro i opened t more
      rw [List.map_cons, List.cons_append, scan_plain hplain, ih]
      simp only [width, pairUp]
      congr 1
      omega
  | @block first last a b c body next inner ls hfirst hlast _ _ ihBody ihNext =>
      intro i opened t more
      have hclose : i + 1 + body.width = i + body.width + 1 := by omega
      have hend : i + (body.width + next.width + 2) = i + body.width + 2 + next.width := by omega
      simp only [List.map_cons, List.map_append, List.cons_append, List.append_assoc, hfirst, hlast,
        scan, ihBody, ihNext, width, pairUp, hclose, hend]

section Read

variable {lineCount : Int}

/-- What the descent has read when it ends: a balanced list, up to the end or up to
the operation that closes the block outside. -/
theorem spells_of_read (ls : List OpLine) :
    ∀ {n : Nesting} {outer : Option (Closing ls.length)},
      read lineCount ls = .ok (n, outer) →
      match outer with
      | none => n.Spells ls
      | some closing =>
          closing.line.op = .closeBlock closing.a closing.b closing.c ∧
          ∃ inner, n.Spells inner ∧ ls = inner ++ closing.line :: closing.rest := by
  fun_induction read lineCount ls with
  | case1 =>
      intro n outer h
      cases h
      exact .done
  | case2 l ls a b c hop =>
      intro n outer h
      cases h
      exact ⟨hop, [], .done, rfl⟩
  | case3 =>
      intro n outer h
      cases h
  | case4 =>
      intro n outer h
      cases h
  | case5 =>
      intro n outer h
      cases h
  | case6 l ls hop body closing hbody next outer hnext ihBody ihNext =>
      intro n outer' h
      cases h
      obtain ⟨hclose, inner, hinner, hls⟩ := ihBody hbody
      have hrest := ihNext hnext
      cases outer with
      | none =>
          have hblock := Spells.block hop hclose hinner hrest
          rwa [← hls] at hblock
      | some closing' =>
          obtain ⟨hclose', inner', hinner', hls'⟩ := hrest
          refine ⟨hclose', _, .block hop hclose hinner hinner', ?_⟩
          calc l :: ls = l :: (inner ++ closing.line :: closing.rest) := congrArg (l :: ·) hls
            _ = l :: (inner ++ closing.line :: (inner' ++ closing'.line :: closing'.rest)) :=
                congrArg (fun rest => l :: (inner ++ closing.line :: rest)) hls'
            _ = _ := by simp [Closing.weaken]
  | case7 =>
      intro n outer h
      cases h
  | case8 l ls next outer hnext hclose hopen ih =>
      intro n outer' h
      cases h
      have hplain : l.op.isPlain = true := by
        cases hop : l.op <;> simp_all [Op.isPlain]
      have hrest := ih hnext
      cases outer with
      | none => exact .op hplain hrest
      | some closing =>
          obtain ⟨hclose', inner, hinner, hls⟩ := hrest
          exact ⟨hclose', _, .op hplain hinner, congrArg (l :: ·) hls⟩

/-- Where the descent fails, the scan fails at the same operation: it opens a block
that the end of the list finds open, and none after it does. -/
theorem scan_of_read_error (ls : List OpLine) :
    ∀ {e : Located Imbalance},
      read lineCount ls = .error e →
      ∀ (i : Nat) (opened : List Nat) (t : Pairing),
        ∃ j l, ls[j]? = some l ∧ e = ⟨l.line, lineCount, l.text, .unmatchedFi⟩ ∧
          scan i opened t (ls.map OpLine.op) = .error ⟨i + j, .unmatchedFi⟩ := by
  fun_induction read lineCount ls with
  | case1 =>
      intro e h
      cases h
  | case2 =>
      intro e h
      cases h
  | case3 l ls hop e' hread ih =>
      intro e h i opened t
      cases h
      obtain ⟨j, o, ho, he, hscan⟩ := ih hread (i + 1) (i :: opened) t
      refine ⟨j + 1, o, ho, he, ?_⟩
      rw [List.map_cons, hop, scan, hscan]
      congr 2
      omega
  | case4 l ls hop body hread ih =>
      intro e h i opened t
      cases h
      refine ⟨0, l, rfl, rfl, ?_⟩
      have hscan := scan_spells (spells_of_read ls hread) (i + 1) (i :: opened) t []
      rw [List.append_nil] at hscan
      rw [List.map_cons, hop, scan, hscan]
      rfl
  | case5 l ls hop body closing hbody e' hrest ihBody ihNext =>
      intro e h i opened t
      cases h
      obtain ⟨hclose, inner, hinner, hls⟩ := spells_of_read ls hbody
      obtain ⟨j, o, ho, he, hscan⟩ := ihNext hrest (i + 1 + body.width + 1) opened
        ((body.pairUp (i + 1) t).setIfInBounds i (some (i + 1 + body.width)))
      have hlen := hinner.length_eq
      have hget : ls[body.width + 1 + j]? = some o := by
        have hle : inner.length ≤ body.width + 1 + j := by omega
        have hsub : body.width + 1 + j - inner.length = j + 1 := by omega
        calc ls[body.width + 1 + j]? = (inner ++ closing.line :: closing.rest)[body.width + 1 + j]? :=
              congrArg (·[body.width + 1 + j]?) hls
          _ = some o := by
              rw [List.getElem?_append_right hle, hsub, List.getElem?_cons_succ, ho]
      have hmap : ls.map OpLine.op =
          inner.map OpLine.op ++ closing.line.op :: closing.rest.map OpLine.op := by
        have := congrArg (List.map OpLine.op) hls
        simpa using this
      refine ⟨body.width + 1 + j + 1, o, hget, he, ?_⟩
      rw [List.map_cons, hop, scan, hmap, scan_spells hinner, hclose, scan, hscan]
      congr 2
      omega
  | case6 =>
      intro e h
      cases h
  | case7 l ls e' hread hclose hopen ih =>
      intro e h i opened t
      cases h
      obtain ⟨j, o, ho, he, hscan⟩ := ih hread (i + 1) opened t
      have hplain : l.op.isPlain = true := by
        cases hop : l.op <;> simp_all [Op.isPlain]
      refine ⟨j + 1, o, ho, he, ?_⟩
      rw [List.map_cons, scan_plain hplain, hscan]
      congr 2
      omega
  | case8 =>
      intro e h
      cases h

end Read

section Whole

variable {lineCount : Int} {ls : List OpLine}

/-- A program that the descent accepts is balanced, and the scan enters its pairs
into the table. -/
theorem ofOps_of_nesting
    {n : Nesting}
    (h : Nesting.ofOps lineCount ls = .ok n) :
    n.Spells ls ∧
    Pairing.ofOps (ls.map OpLine.op) = .ok (n.pairUp 0 (Array.replicate ls.length none)) := by
  unfold Nesting.ofOps at h
  split at h
  · cases h
  · cases h
  · rename_i n' hread
    cases h
    have hspells : n.Spells ls := spells_of_read ls hread
    refine ⟨hspells, ?_⟩
    have hscan := scan_spells hspells 0 [] (Array.replicate ls.length none) []
    rw [List.append_nil] at hscan
    unfold Pairing.ofOps
    rw [List.length_map, hscan]
    rfl

/-- A program that the descent refuses is refused by the scan, at the same
operation and for the same cause. -/
theorem ofOps_of_nesting_error
    {e : Located Imbalance}
    (h : Nesting.ofOps lineCount ls = .error e) :
    ∃ j l, ls[j]? = some l ∧ e = ⟨l.line, lineCount, l.text, e.cause⟩ ∧
      Pairing.ofOps (ls.map OpLine.op) = .error ⟨j, e.cause⟩ := by
  unfold Nesting.ofOps at h
  split at h
  · rename_i e' hread
    cases h
    obtain ⟨j, l, hl, he, hscan⟩ :=
      scan_of_read_error ls hread 0 [] (Array.replicate (ls.map OpLine.op).length none)
    rw [Nat.zero_add] at hscan
    exact ⟨j, l, hl, by rw [he], by rw [he]; exact hscan⟩
  · rename_i n closing hread
    cases h
    obtain ⟨hclose, inner, hinner, hls⟩ := spells_of_read ls hread
    have hget : ls[inner.length]? = some closing.line := by
      calc ls[inner.length]? = (inner ++ closing.line :: closing.rest)[inner.length]? :=
            congrArg (·[inner.length]?) hls
        _ = some closing.line := by simp
    have hmap : ls.map OpLine.op =
        inner.map OpLine.op ++ closing.line.op :: closing.rest.map OpLine.op := by
      have := congrArg (List.map OpLine.op) hls
      simpa using this
    refine ⟨inner.length, closing.line, hget, rfl, ?_⟩
    unfold Pairing.ofOps
    rw [hmap, scan_spells hinner, hclose, hinner.length_eq, Nat.zero_add]
    rfl
  · cases h

end Whole

end Scan

section Agreement

variable {p : Program}

theorem ofProgram_of_nesting
    {n : Nesting}
    (h : Nesting.ofOps p.lineCount p.ops.toList = .ok n) :
    ∃ code, Target.Code.ofProgram p = .ok code := by
  unfold Target.Code.ofProgram
  rw [h]
  split_ifs
  · exact ⟨_, rfl⟩
  · exact ⟨_, rfl⟩

theorem ofProgram_of_nesting_error
    {e : Located Imbalance}
    (h : Nesting.ofOps p.lineCount p.ops.toList = .error e) :
    Target.Code.ofProgram p = .error e := by
  have hne : p.ops.isEmpty = false := by
    cases hempty : p.ops.isEmpty with
    | false => rfl
    | true =>
        have hnil : p.ops.toList = [] := by simpa using hempty
        rw [hnil] at h
        simp [Nesting.ofOps, Nesting.read] at h
  unfold Target.Code.ofProgram
  rw [h, hne]
  rfl

/-- **The two readings of blocks agree.**  The generator of C and the machine accept
the programs whose blocks the scan pairs; where the scan fails, they fail for the
same cause, and the generator names the line of the operation that the scan
blames. -/
theorem blocks_blamed_alike
    (p : Program) :
    ((∃ text, p.toC = .ok text) ↔
      ∃ t, Pairing.ofOps (p.ops.toList.map OpLine.op) = .ok t) ∧
    ((∃ m, Machine.load p = .ok m) ↔
      ∃ t, Pairing.ofOps (p.ops.toList.map OpLine.op) = .ok t) ∧
    ∀ e : BlockError, Pairing.ofOps (p.ops.toList.map OpLine.op) = .error e →
      Machine.load p = .error e ∧
      ∃ l, p.ops.toList[e.index]? = some l ∧
        p.toC = .error ⟨l.line, p.lineCount, l.text, e.cause⟩ := by
  have hload : Machine.load p =
      (Pairing.ofOps (p.ops.toList.map OpLine.op)).map fun t => ⟨p, t, Machine.placeFlags p⟩ := rfl
  cases hn : Nesting.ofOps p.lineCount p.ops.toList with
  | ok n =>
      obtain ⟨-, hpairs⟩ := ofOps_of_nesting hn
      obtain ⟨code, hcode⟩ := ofProgram_of_nesting hn
      have htext : p.toC = .ok code.render := by
        unfold Program.toC
        rw [hcode]
        rfl
      rw [hload, hpairs]
      refine ⟨⟨fun _ => ⟨_, rfl⟩, fun _ => ⟨_, htext⟩⟩, ⟨fun _ => ⟨_, rfl⟩, fun _ => ⟨_, rfl⟩⟩, ?_⟩
      intro e he
      cases he
  | error e =>
      obtain ⟨j, l, hl, he, hpairs⟩ := ofOps_of_nesting_error hn
      have htext : p.toC = .error e := by
        unfold Program.toC
        rw [ofProgram_of_nesting_error hn]
        rfl
      rw [hload, hpairs, htext]
      refine ⟨by simp, by simp [Except.map], ?_⟩
      intro e' he'
      cases he'
      exact ⟨rfl, l, hl, by rw [← he]⟩

end Agreement

end Contrary
