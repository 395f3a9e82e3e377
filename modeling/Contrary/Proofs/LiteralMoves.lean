import Contrary.Proofs.Cutting
import Contrary.Proofs.Values

/-!
# Moves by numbers

An addition or subtraction of a number moves the offset, and moves the cell of its target
back.  If the target is a variable, or an element with a number for an index, its cell is the
same in every state, so such moves can be made in any order and taken back.

**Shifts.**  Two shifts can change places, also if they have the same target (`shift_comm`),
and a shift is taken back by the opposite one (`shift_neg`).  `State.Moved` says what a list
of shifts does to the offset and to every cell.

**Moves.**  `Op.LiteralMove` describes the operations.  One of them makes a shift
(`exec_of_literalMove`) and leaves the others what they are (`LiteralMove.shift`), so a list
of them makes the list of their shifts (`after?_of_literalMoves`).

**Results.**
* `literal_moves_commute_and_cancel`: the order of the moves does not matter, and a move is
  taken back by its opposite.
-/

namespace Contrary

/-- A place that is alive and whose cell depends on no value: a variable, or an element of an
array at a number in range. -/
def Place.Settled (s : State) : Place → Prop
  | .var v => ∃ c, s.vars[v]? = some c ∧ c.live = true
  | .element a (.literal n) =>
      ∃ b, s.arrays[a]? = some b ∧ b.live = true ∧ 0 ≤ n.toInt ∧ n.toInt < b.cells.size
  | .element _ (.var _) => False

/-- The cell of a place, if it depends on no value. -/
def Place.cell? : Place → Option Address
  | .var v => some (.var v)
  | .element a (.literal n) => some (.cell a n.toInt.toNat)
  | .element _ (.var _) => none

namespace Op

/-- An addition or subtraction of a number whose target is alive and settled. -/
inductive LiteralMove (s : State) : Op → Prop
  | add {n : Int32} {target : Place} :
      target.Settled s →
      LiteralMove s (.add (.literal n) target)
  | subtract {n : Int32} {target : Place} :
      target.Settled s →
      LiteralMove s (.subtract (.literal n) target)

/-- By how much an operation moves the offset, and the cell that it moves back. -/
def shift? : Op → Option (Int32 × Address)
  | .add (.literal n) target => target.cell?.map fun q => (n, q)
  | .subtract (.literal n) target => target.cell?.map fun q => (-n, q)
  | _ => none

end Op

namespace State

/-- Shifts one after another. -/
def shiftAll (s : State) (moves : List (Int32 × Address)) : State :=
  moves.foldl (fun s move => s.shift move.1 move.2) s

/-- By how much moves have moved the offset. -/
def total (moves : List (Int32 × Address)) : Int32 :=
  moves.foldr (fun move d => move.1 + d) 0

/-- The offset has moved by all of the moves, every cell has been moved back by those that
have it as their target, and nothing else has changed but the position. -/
structure Moved (s s' : State) (moves : List (Int32 × Address)) : Prop where
  offset : s'.offset = s.offset + total moves
  cells : ∀ q : Address, q.Within s →
    s'.load q = s.load q - total (moves.filter fun move => move.2 = q)
  sizes : s'.sizes = s.sizes
  liveVars : s'.vars.map Cell.live = s.vars.map Cell.live
  liveArrays : s'.arrays.map Bank.live = s.arrays.map Bank.live
  flags : s'.flags = s.flags
  pinned : s'.pinned = s.pinned

section Shifts

/-- Changes that can be exchanged can be made at any two places in any order. -/
theorem modify_modify_comm
    {α : Type} (xs : Array α) (i j : Nat) {f g : α → α}
    (h : ∀ x, f (g x) = g (f x)) :
    (xs.modify i f).modify j g = (xs.modify j g).modify i f := by
  refine Array.ext_getElem? ?_
  intro k
  simp only [Array.getElem?_modify]
  split_ifs
  · cases xs[k]? <;> simp [h]
  · rfl
  · rfl
  · rfl

/-- A change is taken back by its inverse. -/
theorem modify_modify_cancel
    {α : Type} (xs : Array α) (i : Nat) {f g : α → α}
    (h : ∀ x, g (f x) = x) :
    (xs.modify i f).modify i g = xs := by
  refine Array.ext_getElem? ?_
  intro k
  simp only [Array.getElem?_modify]
  split_ifs
  · cases xs[k]? <;> simp [h]
  · rfl

theorem modify_comm
    (s : State) {f g : Int32 → Int32}
    (h : ∀ x, f (g x) = g (f x)) (q r : Address) :
    (s.modify f q).modify g r = (s.modify g r).modify f q := by
  cases q with
  | var v =>
      cases r with
      | var w =>
          have hvars := modify_modify_comm s.vars v w
            (f := fun c => { c with stored := f c.stored })
            (g := fun c => { c with stored := g c.stored }) (fun c => by rw [h])
          simp only [modify, hvars]
      | cell a i => rfl
  | cell a i =>
      cases r with
      | var w => rfl
      | cell b j =>
          have harrays := modify_modify_comm s.arrays a b
            (f := fun c => { c with cells := c.cells.modify i f })
            (g := fun c => { c with cells := c.cells.modify j g })
            (fun c => by rw [modify_modify_comm c.cells j i fun x => (h x).symm])
          simp only [modify, harrays]

theorem modify_cancel
    (s : State) {f g : Int32 → Int32}
    (h : ∀ x, g (f x) = x) (q : Address) :
    (s.modify f q).modify g q = s := by
  cases q with
  | var v =>
      have hvars := modify_modify_cancel s.vars v
        (f := fun c => { c with stored := f c.stored })
        (g := fun c => { c with stored := g c.stored }) (fun c => by rw [h])
      simp only [modify, hvars]
  | cell a i =>
      have harrays := modify_modify_cancel s.arrays a
        (f := fun c => { c with cells := c.cells.modify i f })
        (g := fun c => { c with cells := c.cells.modify i g })
        (fun c => by rw [modify_modify_cancel c.cells i h])
      simp only [modify, harrays]

/-- The offset moves twice, and then both targets are moved back. -/
theorem shift_shift
    (s : State) (d e : Int32) (q r : Address) :
    (s.shift d q).shift e r =
      ({ s with offset := s.offset + d + e }.modify (· - d) q).modify (· - e) r := by
  cases q <;> rfl

/-- Two shifts can change places. -/
theorem shift_comm
    (s : State) (d e : Int32) (q r : Address) :
    (s.shift d q).shift e r = (s.shift e r).shift d q := by
  have hoffset : s.offset + d + e = s.offset + e + d := by
    rw [Int32.add_assoc, Int32.add_comm d, ← Int32.add_assoc]
  have hcell : ∀ x : Int32, x - e - d = x - d - e := by
    intro x
    rw [Int32.sub_sub, Int32.add_comm, ← Int32.sub_sub]
  rw [shift_shift, shift_shift, hoffset, modify_comm _ hcell]

/-- A shift is taken back by the opposite one. -/
theorem shift_neg
    (s : State) (d : Int32) (q : Address) :
    (s.shift d q).shift (-d) q = s := by
  have hoffset : s.offset + d + -d = s.offset := by
    rw [Int32.add_assoc, Int32.add_right_neg, Int32.add_zero]
  have hcell : ∀ x : Int32, x - d - -d = x := by
    intro x
    rw [Int32.sub_neg, Int32.sub_add_cancel]
  rw [shift_shift, hoffset, modify_cancel _ hcell]

/-- The order of the shifts does not matter. -/
theorem shiftAll_perm
    (s : State) {moves moves' : List (Int32 × Address)}
    (h : moves.Perm moves') :
    s.shiftAll moves = s.shiftAll moves' :=
  h.foldl_eq' (fun x _ y _ t => t.shift_comm x.1 y.1 x.2 y.2) s

theorem within_shift
    {s : State} {q : Address}
    (hq : q.Within s) (d : Int32) (r : Address) :
    q.Within (s.shift d r) := by
  cases q with
  | var v =>
      have hv : v < s.vars.size := hq
      cases r with
      | var w => simpa [Address.Within, shift, modify] using hv
      | cell a i => exact hv
  | cell a i =>
      obtain ⟨b, hb, hi⟩ := hq
      obtain ⟨b', hb', hsize⟩ := arrays_shift (d := d) (q := r) hb
      exact ⟨b', hb', hsize ▸ hi⟩

/-- What a list of shifts changes. -/
theorem moved_shiftAll
    (moves : List (Int32 × Address)) :
    ∀ s : State, s.Moved (s.shiftAll moves) moves := by
  induction moves with
  | nil =>
      intro s
      exact ⟨(Int32.add_zero _).symm, fun _ _ => (Int32.sub_zero _).symm, rfl, rfl, rfl, rfl, rfl⟩
  | cons move moves ih =>
      intro s
      obtain ⟨d, r⟩ := move
      have hrest := ih (s.shift d r)
      have hoffset : (s.shift d r).offset = s.offset + d := by cases r <;> rfl
      have hframe := s.frame_shift d r
      simp only [frame, Prod.mk.injEq] at hframe
      obtain ⟨hvars, harrays⟩ := s.live_shift d r
      exact {
        offset := by
          rw [shiftAll, List.foldl_cons, ← shiftAll, hrest.offset, hoffset, Int32.add_assoc]
          rfl
        cells := by
          intro q hq
          have hcell := hrest.cells q (within_shift hq d r)
          rw [shiftAll, List.foldl_cons, ← shiftAll, hcell, List.filter_cons]
          by_cases hr : r = q
          · subst hr
            have hload : (s.shift d r).load r = s.load r - d :=
              load_modify_self (s := { s with offset := s.offset + d }) hq _
            simp only [decide_true, if_true]
            rw [hload, Int32.sub_sub]
            rfl
          · have hload : (s.shift d r).load q = s.load q :=
              load_modify_of_ne (s := { s with offset := s.offset + d }) (Ne.symm hr) _
            simp only [hr, decide_false, Bool.false_eq_true, if_false]
            rw [hload]
        sizes := hrest.sizes.trans hframe.1
        liveVars := hrest.liveVars.trans hvars
        liveArrays := hrest.liveArrays.trans harrays
        flags := hrest.flags.trans (by cases r <;> rfl)
        pinned := hrest.pinned.trans hframe.2.1 }

end Shifts

end State

section Settled

variable {s : State} {p : Place}

/-- A settled place is alive and has its cell, whatever the line. -/
theorem Place.Settled.found
    (h : p.Settled s) (names : Names) (l : OpLine) :
    ∃ q, p.cell? = some q ∧ s.requirePlace p = .ok () ∧ s.address names l p = .ok q := by
  cases p with
  | var v =>
      obtain ⟨c, hc, hlive⟩ := h
      have hv : v < s.vars.size := (Array.getElem?_eq_some_iff.mp hc).1
      refine ⟨.var v, rfl, ?_, ?_⟩
      · exact State.requireVar_eq_ok_iff.mpr ⟨c, hc, hlive⟩
      · simp only [State.address, if_pos hv]
  | element a i =>
      cases i with
      | var v => exact h.elim
      | literal n =>
          obtain ⟨b, hb, hlive, hrange⟩ := h
          refine ⟨.cell a n.toInt.toNat, rfl, ?_, ?_⟩
          · exact State.requirePlace_element_iff.mpr ⟨rfl, b, hb, hlive⟩
          · rw [State.address_element names l (j := .literal n) rfl hb, if_pos hrange]

/-- A shift leaves a settled place settled. -/
theorem Place.Settled.shift
    (h : p.Settled s) (d : Int32) (q : Address) :
    p.Settled (s.shift d q) := by
  cases p with
  | var v =>
      obtain ⟨c, hc, hlive⟩ := h
      cases q with
      | cell a j => exact ⟨c, hc, hlive⟩
      | var w =>
          simp only [Place.Settled, State.shift, State.modify, Array.getElem?_modify, hc]
          split_ifs
          · exact ⟨_, rfl, hlive⟩
          · exact ⟨c, rfl, hlive⟩
  | element a j =>
      cases j with
      | var v => exact h.elim
      | literal n =>
          obtain ⟨b, hb, hlive, hrange⟩ := h
          cases q with
          | var w => exact ⟨b, hb, hlive, hrange⟩
          | cell a' k =>
              simp only [Place.Settled, State.shift, State.modify, Array.getElem?_modify, hb]
              split_ifs
              · exact ⟨_, rfl, hlive, by simpa using hrange⟩
              · exact ⟨b, rfl, hlive, hrange⟩

theorem Place.Settled.atPosition
    (h : p.Settled s) (i : Nat) :
    p.Settled { s with pc := i } := by
  cases p with
  | var v => exact h
  | element a j => cases j <;> exact h

/-- A move by a number, to a settled place, shifts the cell of this place. -/
theorem State.move_of_settled
    (h : p.Settled s) (names : Names) (l : OpLine) (direction : Int32 → Int32) (n : Int32) :
    ∃ q, p.cell? = some q ∧
      s.move names l direction (.literal n) p = (s.shift (direction n) q, none) := by
  obtain ⟨q, hcell, hrequire, haddress⟩ := h.found names l
  refine ⟨q, hcell, ?_⟩
  simp only [State.move, State.value, hrequire, haddress, bind, Except.bind, pure, Except.pure]

namespace Op.LiteralMove

variable {op : Op}

theorem shift
    (h : op.LiteralMove s) (d : Int32) (q : Address) :
    op.LiteralMove (s.shift d q) := by
  cases h with
  | add htarget => exact .add (htarget.shift d q)
  | subtract htarget => exact .subtract (htarget.shift d q)

theorem atPosition
    (h : op.LiteralMove s) (i : Nat) :
    op.LiteralMove { s with pc := i } := by
  cases h with
  | add htarget => exact .add (htarget.atPosition i)
  | subtract htarget => exact .subtract (htarget.atPosition i)

end Op.LiteralMove

end Settled

namespace Machine

variable {σ : Type} [NumberSource σ] {m : Machine} {s : State}

/-- A move by a number makes its shift, and nothing else happens. -/
theorem exec_of_literalMove
    {l : OpLine}
    (h : l.op.LiteralMove s) (i : Nat) (input : σ) :
    ∃ d q, l.op.shift? = some (d, q) ∧ m.exec l i s input = Step.next (s.shift d q) input := by
  generalize hop : l.op = op at h
  cases h with
  | @add n target htarget =>
      obtain ⟨q, hcell, hmove⟩ := State.move_of_settled htarget m.program.names l id n
      refine ⟨n, q, by rw [Op.shift?, hcell]; rfl, ?_⟩
      simp only [exec, hop, hmove]
      rfl
  | @subtract n target htarget =>
      obtain ⟨q, hcell, hmove⟩ := State.move_of_settled htarget m.program.names l (- ·) n
      refine ⟨-n, q, by rw [Op.shift?, hcell]; rfl, ?_⟩
      simp only [exec, hop, hmove]
      rfl

/-- A run goes on with an operation that only changes the state. -/
theorem next?_of_exec
    {r : Run σ} {l : OpLine} {s' : State}
    (hl : m.program.ops[r.state.pc]? = some l)
    (hexec : m.exec l r.state.pc { r.state with pc := r.state.pc + 1 } r.input =
      Step.next s' r.input) :
    m.next? r = some ⟨s', r.input, r.output⟩ := by
  have hlt := (Array.getElem?_eq_some_iff.mp hl).1
  refine next?_eq_some_iff.mpr ⟨?_, ?_⟩
  · simp only [atEnd, decide_eq_false_iff_not]
    omega
  · simp only [advance, step, hl, hexec, Step.next]
    simp

/-- The next operation and those after it. -/
theorem ops_of_prefix
    {i : Nat} {l : OpLine} {ls : List OpLine}
    (h : l :: ls <+: m.program.ops.toList.drop i) :
    m.program.ops[i]? = some l ∧ ls <+: m.program.ops.toList.drop (i + 1) := by
  obtain ⟨more, hmore⟩ := h
  constructor
  · rw [← Array.getElem?_toList, ← List.head?_drop, ← hmore]
    rfl
  · refine ⟨more, ?_⟩
    rw [← List.drop_drop, ← hmore]
    rfl

/-- The moves of a list are made one after another, and nothing else happens. -/
theorem after?_of_literalMoves
    {input : σ} {output : Array UInt8} (ls : List OpLine) :
    ∀ {s : State},
      (∀ l ∈ ls, l.op.LiteralMove s) →
      ls <+: m.program.ops.toList.drop s.pc →
      m.after? ls.length ⟨s, input, output⟩ =
        some ⟨{ s with pc := s.pc + ls.length }.shiftAll
          ((ls.map OpLine.op).filterMap Op.shift?), input, output⟩ := by
  induction ls with
  | nil =>
      intro s _ _
      rfl
  | cons l ls ih =>
      intro s hmoves hops
      obtain ⟨hl, hrest⟩ := ops_of_prefix hops
      obtain ⟨d, q, hshift, hexec⟩ := exec_of_literalMove (m := m)
        ((hmoves l List.mem_cons_self).atPosition (s.pc + 1)) s.pc input
      have hnext := next?_of_exec (r := ⟨s, input, output⟩) hl hexec
      have hpc : ({ s with pc := s.pc + 1 }.shift d q).pc = s.pc + 1 := by
        cases q <;> rfl
      -- the moves that are left are moves in the new state as well
      have hlater := ih (s := { s with pc := s.pc + 1 }.shift d q)
        (fun l' hl' => ((hmoves l' (List.mem_cons_of_mem _ hl')).atPosition _).shift d q)
        (by rw [hpc]; exact hrest)
      have hend : { { s with pc := s.pc + 1 }.shift d q with pc := s.pc + 1 + ls.length } =
          { s with pc := s.pc + (ls.length + 1) }.shift d q := by
        rw [Nat.add_assoc, Nat.add_comm 1]
        cases q <;> rfl
      rw [hpc, hend] at hlater
      rw [List.length_cons, after?, hnext, List.map_cons, List.filterMap_cons_some hshift]
      exact hlater

/-- **Moves by numbers commute and cancel.**  Take additions and subtractions of numbers, each
with a target that is a live variable or a live element at a number in range.  Two programs
that have them next, in any two orders, run them all and are in the same state then: the offset
has moved by all of the numbers, and every cell has been moved back by those that have it as
their target.  An addition and the subtraction of the same number restore the state, in
either order. -/
theorem literal_moves_commute_and_cancel
    (s : State) (input : σ) (output : Array UInt8) :
    (∀ (m m' : Machine) (ls ls' : List OpLine),
      (∀ l ∈ ls, l.op.LiteralMove s) →
      (ls.map OpLine.op).Perm (ls'.map OpLine.op) →
      ls <+: m.program.ops.toList.drop s.pc →
      ls' <+: m'.program.ops.toList.drop s.pc →
      ∃ s', m.after? ls.length ⟨s, input, output⟩ = some ⟨s', input, output⟩ ∧
        m'.after? ls'.length ⟨s, input, output⟩ = some ⟨s', input, output⟩ ∧
        s.Moved s' ((ls.map OpLine.op).filterMap Op.shift?)) ∧
    ∀ (m : Machine) (l l' : OpLine) (n : Int32) (target : Place),
      target.Settled s →
      (l.op = .add (.literal n) target ∧ l'.op = .subtract (.literal n) target ∨
        l.op = .subtract (.literal n) target ∧ l'.op = .add (.literal n) target) →
      [l, l'] <+: m.program.ops.toList.drop s.pc →
      m.after? 2 ⟨s, input, output⟩ = some ⟨{ s with pc := s.pc + 2 }, input, output⟩ := by
  constructor
  · intro m m' ls ls' hmoves hperm hops hops'
    have hmoves' : ∀ l ∈ ls', l.op.LiteralMove s := by
      intro l hl
      have hmem := hperm.mem_iff.mpr (List.mem_map_of_mem (f := OpLine.op) hl)
      obtain ⟨o, ho, hop⟩ := List.mem_map.mp hmem
      exact hop ▸ hmoves o ho
    have hlength : ls'.length = ls.length := by
      simpa using hperm.length_eq.symm
    have hmoved := State.moved_shiftAll ((ls.map OpLine.op).filterMap Op.shift?)
      { s with pc := s.pc + ls.length }
    refine ⟨_, after?_of_literalMoves ls hmoves hops, ?_, ⟨hmoved.offset, hmoved.cells,
      hmoved.sizes, hmoved.liveVars, hmoved.liveArrays, hmoved.flags, hmoved.pinned⟩⟩
    rw [after?_of_literalMoves ls' hmoves' hops', hlength,
      State.shiftAll_perm _ (hperm.filterMap Op.shift?)]
  · intro m l l' n target htarget hopposite hops
    obtain ⟨q, hcell, -⟩ := htarget.found m.program.names l
    have hshifts : ∃ d, l.op.shift? = some (d, q) ∧ l'.op.shift? = some (-d, q) := by
      rcases hopposite with ⟨hl, hl'⟩ | ⟨hl, hl'⟩
      · exact ⟨n, by rw [hl, Op.shift?, hcell]; rfl, by rw [hl', Op.shift?, hcell]; rfl⟩
      · exact ⟨-n, by rw [hl, Op.shift?, hcell]; rfl,
          by rw [hl', Op.shift?, hcell, Int32.neg_neg]; rfl⟩
    have hmoves : ∀ o ∈ [l, l'], o.op.LiteralMove s := by
      intro o ho
      simp only [List.mem_cons, List.not_mem_nil, or_false] at ho
      rcases hopposite with ⟨hl, hl'⟩ | ⟨hl, hl'⟩ <;> rcases ho with rfl | rfl
      · exact hl ▸ .add htarget
      · exact hl' ▸ .subtract htarget
      · exact hl ▸ .subtract htarget
      · exact hl' ▸ .add htarget
    obtain ⟨d, hd, hd'⟩ := hshifts
    refine (after?_of_literalMoves [l, l'] hmoves hops).trans ?_
    simp only [List.map_cons, List.map_nil, List.filterMap_cons_some hd,
      List.filterMap_cons_some hd', List.filterMap_nil, State.shiftAll, List.foldl_cons,
      List.foldl_nil, State.shift_neg]
    rfl

/-- A machine with a variable and an array of two that has the given operations. -/
def running (ls : List OpLine) : Machine where
  program := ⟨⟨#[ascii "x"], #[⟨ascii "a", 2⟩], #[]⟩, ls.toArray, ls.length⟩
  closing := Array.replicate ls.length none
  marks := #[]

/-- The variable and the array are alive, and the offset has moved. -/
def movable : State where
  offset := 7
  vars := #[⟨1, true⟩]
  arrays := #[⟨#[2, 3], true⟩]
  flags := #[]
  pinned := none
  pc := 0

/-- Three moves, the first by the least number and two with the same target. -/
def threeMoves : List OpLine :=
  [ ⟨.add (.literal Int32.minValue) (.var 0), 1, ascii "sub"⟩,
    ⟨.subtract (.literal 5) (.element 0 (.literal 1)), 2, ascii "add"⟩,
    ⟨.add (.literal 9) (.var 0), 3, ascii "sub"⟩ ]

/-- A move by the least number and its opposite. -/
def leastMove : List OpLine :=
  [ ⟨.add (.literal Int32.minValue) (.var 0), 1, ascii "sub"⟩,
    ⟨.subtract (.literal Int32.minValue) (.var 0), 2, ascii "add"⟩ ]

/-- The three moves lead to one state from the first or from the last on, and the move by the
least number is taken back. -/
theorem threeMoves_commute :
    (∃ s', (running threeMoves).after? 3 ⟨movable, Scanner.mk [], #[]⟩ =
        some ⟨s', Scanner.mk [], #[]⟩ ∧
      (running threeMoves.reverse).after? 3 ⟨movable, Scanner.mk [], #[]⟩ =
        some ⟨s', Scanner.mk [], #[]⟩ ∧
      s'.offset = 7 + (Int32.minValue + (-5 + (9 + 0)))) ∧
    (running leastMove).after? 2 ⟨movable, Scanner.mk [], #[]⟩ =
      some ⟨{ movable with pc := 2 }, Scanner.mk [], #[]⟩ := by
  obtain ⟨hcommute, hcancel⟩ :=
    literal_moves_commute_and_cancel movable (Scanner.mk []) #[]
  have hvar : (Place.var 0).Settled movable := ⟨⟨1, true⟩, rfl, rfl⟩
  have helement : (Place.element 0 (.literal 1)).Settled movable :=
    ⟨⟨#[2, 3], true⟩, rfl, rfl, by decide⟩
  have hmoves : ∀ l ∈ threeMoves, l.op.LiteralMove movable := by
    intro l hl
    simp only [threeMoves, List.mem_cons, List.not_mem_nil, or_false] at hl
    rcases hl with rfl | rfl | rfl
    · exact .add hvar
    · exact .subtract helement
    · exact .add hvar
  have hperm := (List.reverse_perm threeMoves).symm.map OpLine.op
  obtain ⟨s', hrun, hrun', hmoved⟩ := hcommute (running threeMoves) (running threeMoves.reverse)
    threeMoves threeMoves.reverse hmoves hperm (List.prefix_refl _) (List.prefix_refl _)
  exact ⟨⟨s', hrun, hrun', hmoved.offset⟩,
    hcancel (running leastMove) _ _ Int32.minValue (.var 0) hvar (Or.inl ⟨rfl, rfl⟩)
      (List.prefix_refl _)⟩

end Machine

end Contrary
