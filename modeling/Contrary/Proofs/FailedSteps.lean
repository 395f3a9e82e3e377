import Contrary.Proofs.Safety

/-!
# What a failed step leaves behind

A step that stops the program leaves the state as it was before, except for the position,
which has moved on.  There is one exception, in additions and subtractions: the cell of an
operand is found twice, and the index of an element may have moved in between.

**Finding a cell again.**  A variable is found again where it was, and so is an element with
a number for an index.  An element whose index is the target of the move is found again too,
for the target is moved back with the offset (`indexValue_shift_self`).  Any other index moves
by as much as everything else (`indexValue_shift`).

**Slips.**  `State.Slips` describes the moves whose index leaves the array on the way.  Such a
move stops with the offset and the target moved (`move_of_slips`), and a move that stops
otherwise has changed nothing (`move_keeps`).  Every other operation looks first and changes
the state last (`exec_keeps`).

**Results.**
* `failed_steps_leave_the_state`: what every step that fails has changed.
-/

namespace Contrary

namespace State

/-- A move by the element `a[i]` that stops half way: the index is a variable other than the
target, everything is alive and in range before the move by `d`, and the index is out of
range after it.  The cell of the target is `q`. -/
def Slips (s : State) (names : Names) (l : OpLine) (direction : Int32 → Int32) (v : Operand)
    (target : Place) (d : Int32) (q : Address) : Prop :=
  ∃ a i n k b, v = .stored (.element a (.var i)) ∧ target ≠ .var i ∧
    s.value names l v = .ok n ∧ d = direction n ∧
    s.requirePlace target = .ok () ∧ s.address names l target = .ok q ∧
    s.indexValue (.var i) = .ok k ∧ s.arrays[a]? = some b ∧
    ¬ (0 ≤ (k + d).toInt ∧ (k + d).toInt < b.cells.size)

/-- The offset has moved by `d` and the cell at `q` by as much the other way, and nothing
else has changed but the position, which is the next one. -/
structure Shifted (s s' : State) (d : Int32) (q : Address) : Prop where
  offset : s'.offset = s.offset + d
  target : s'.load q = s.load q - d
  others : ∀ r, r ≠ q → s'.load r = s.load r
  sizes : s'.sizes = s.sizes
  liveVars : s'.vars.map Cell.live = s.vars.map Cell.live
  liveArrays : s'.arrays.map Bank.live = s.arrays.map Bank.live
  flags : s'.flags = s.flags
  pinned : s'.pinned = s.pinned
  pc : s'.pc = s.pc + 1

section Cells

variable {s : State} {q : Address}

theorem load_modify_self
    (hq : q.Within s) (f : Int32 → Int32) :
    (s.modify f q).load q = f (s.load q) := by
  cases q with
  | var v =>
      have hv : v < s.vars.size := hq
      simp [load, modify, Array.getD_eq_getD_getElem?, Array.getElem?_modify,
        Array.getElem?_eq_getElem hv]
  | cell a i =>
      obtain ⟨b, hb, hi⟩ := hq
      simp [load, modify, Array.getD_eq_getD_getElem?, Array.getElem?_modify, hb,
        Array.getElem?_eq_getElem hi]

theorem load_modify_of_ne
    {r : Address}
    (hr : r ≠ q) (f : Int32 → Int32) :
    (s.modify f q).load r = s.load r := by
  cases q with
  | var v =>
      cases r with
      | var w =>
          have hne : ¬ v = w := fun he => hr (congrArg Address.var he.symm)
          simp [load, modify, Array.getD_eq_getD_getElem?, Array.getElem?_modify, hne]
      | cell a i => rfl
  | cell a i =>
      cases r with
      | var w => rfl
      | cell a' j =>
          simp only [load, modify, Array.getD_eq_getD_getElem?, Array.getElem?_modify]
          split_ifs with ha
          · subst ha
            have hne : ¬ i = j := fun he => hr (congrArg (Address.cell a) he.symm)
            cases s.arrays[a]? with
            | none => rfl
            | some b => simp [Array.getElem?_modify, hne]
          · rfl

/-- A change of stored numbers leaves alive what is alive. -/
theorem live_modify
    (s : State) (f : Int32 → Int32) (q : Address) :
    (s.modify f q).vars.map Cell.live = s.vars.map Cell.live ∧
      (s.modify f q).arrays.map Bank.live = s.arrays.map Bank.live := by
  cases q with
  | var v =>
      dsimp only [modify]
      constructor
      · exact map_modify_of_eq s.vars v fun _ => rfl
      · rfl
  | cell a i =>
      dsimp only [modify]
      constructor
      · rfl
      · exact map_modify_of_eq s.arrays a fun _ => rfl

theorem live_shift
    (s : State) (d : Int32) (q : Address) :
    (s.shift d q).vars.map Cell.live = s.vars.map Cell.live ∧
      (s.shift d q).arrays.map Bank.live = s.arrays.map Bank.live :=
  live_modify { s with offset := s.offset + d } (· - d) q

/-- What a move has changed after its first half. -/
theorem shifted_shift
    (hq : q.Within s) (d : Int32) :
    s.Shifted ({ s with pc := s.pc + 1 }.shift d q) d q := by
  have hframe := frame_shift { s with pc := s.pc + 1 } d q
  simp only [frame, Prod.mk.injEq] at hframe
  have hlive := live_shift { s with pc := s.pc + 1 } d q
  exact {
    offset := by cases q <;> rfl
    target := load_modify_self (s := { s with offset := s.offset + d, pc := s.pc + 1 }) hq _
    others := fun r hr =>
      load_modify_of_ne (s := { s with offset := s.offset + d, pc := s.pc + 1 }) hr _
    sizes := hframe.1
    liveVars := hlive.1
    liveArrays := hlive.2
    flags := by cases q <;> rfl
    pinned := hframe.2.1
    pc := hframe.2.2 }

end Cells

section Again

variable {s : State} {names : Names} {l : OpLine} {a i : Nat} {d k : Int32} {b : Bank}
  {q r : Address} {p : Place} {j : Index}

theorem address_element
    (names : Names) (l : OpLine)
    (hk : s.indexValue j = .ok k)
    (hb : s.arrays[a]? = some b) :
    s.address names l (.element a j) =
      if 0 ≤ k.toInt ∧ k.toInt < b.cells.size then .ok (.cell a k.toInt.toNat)
      else .error (.failure l.line l.text
        (.outOfRange k (names.arrayDecl a).name b.cells.size)) := by
  simp only [address, hk, hb, bind, Except.bind]

/-- What is known of an element whose cell is found. -/
theorem index_of_address
    (hr : s.address names l (.element a j) = .ok r) :
    ∃ k b, s.indexValue j = .ok k ∧ s.arrays[a]? = some b := by
  obtain ⟨k, hk, hr⟩ := bind_eq_ok_iff.mp hr
  split at hr
  · cases hr
  · rename_i b hb
    exact ⟨k, b, hk, hb⟩

/-- Only the variable itself has its cell. -/
theorem ne_var_of_address
    (hp : p ≠ .var i)
    (hq : s.address names l p = .ok q) :
    q ≠ .var i := by
  rintro rfl
  cases p with
  | var v =>
      simp only [address] at hq
      split_ifs at hq
      cases hq
      exact hp rfl
  | element a j =>
      obtain ⟨k, b, hk, hb⟩ := index_of_address hq
      rw [address_element names l hk hb] at hq
      split_ifs at hq
      cases hq

/-- A move keeps the number of cells of an array. -/
theorem arrays_shift
    (hb : s.arrays[a]? = some b) :
    ∃ b', (s.shift d q).arrays[a]? = some b' ∧ b'.cells.size = b.cells.size := by
  cases q with
  | var v => exact ⟨b, hb, rfl⟩
  | cell a' i =>
      simp only [shift, modify, Array.getElem?_modify, hb]
      split_ifs
      · exact ⟨_, rfl, by simp⟩
      · exact ⟨b, rfl, rfl⟩

/-- An index moves by as much as everything else, unless its variable is the target. -/
theorem indexValue_shift
    (hk : s.indexValue (.var i) = .ok k)
    (hq : q ≠ .var i) :
    (s.shift d q).indexValue (.var i) = .ok (k + d) := by
  have hvars : (s.shift d q).vars[i]? = s.vars[i]? := by
    cases q with
    | var v =>
        have hne : ¬ v = i := fun he => hq (congrArg Address.var he)
        simp [shift, modify, Array.getElem?_modify, hne]
    | cell a j => rfl
  have hoffset : (s.shift d q).offset = s.offset + d := by
    cases q <;> rfl
  cases hc : s.vars[i]? with
  | none =>
      simp only [indexValue, hc] at hk
      cases hk
  | some c =>
      simp only [indexValue, hc] at hk
      cases hk
      simp only [indexValue, hvars, hc, hoffset, Int32.add_assoc]

/-- An index that is the target stays what it was. -/
theorem indexValue_shift_self
    (s : State) (i : Nat) (d : Int32) :
    (s.shift d (.var i)).indexValue (.var i) = s.indexValue (.var i) := by
  have hback : ∀ x : Int32, x - d + (s.offset + d) = x + s.offset := by
    intro x
    rw [Int32.add_comm s.offset d, ← Int32.add_assoc, Int32.sub_add_cancel]
  simp only [indexValue, shift, modify, Array.getElem?_modify, if_true]
  cases s.vars[i]? with
  | none => rfl
  | some c => exact congrArg Except.ok (hback c.stored)

/-- An element with the same index is found again where it was. -/
theorem address_shift_element
    (hj : (s.shift d q).indexValue j = s.indexValue j)
    (hr : s.address names l (.element a j) = .ok r) :
    (s.shift d q).address names l (.element a j) = .ok r := by
  obtain ⟨k, b, hk, hb⟩ := index_of_address hr
  obtain ⟨b', hb', hsize⟩ := arrays_shift (d := d) (q := q) hb
  rw [address_element names l (hj.trans hk) hb', hsize, ← address_element names l hk hb]
  exact hr

/-- An element whose index has moved is found at the new index, if anywhere. -/
theorem address_shift_index
    (names : Names) (l : OpLine)
    (hk : s.indexValue (.var i) = .ok k)
    (hb : s.arrays[a]? = some b)
    (hq : q ≠ .var i) :
    (s.shift d q).address names l (.element a (.var i)) =
      if 0 ≤ (k + d).toInt ∧ (k + d).toInt < b.cells.size then
        .ok (.cell a (k + d).toInt.toNat)
      else .error (.failure l.line l.text
        (.outOfRange (k + d) (names.arrayDecl a).name b.cells.size)) := by
  obtain ⟨b', hb', hsize⟩ := arrays_shift (d := d) (q := q) hb
  rw [address_element names l (indexValue_shift hk hq) hb', hsize]

theorem address_shift_var
    {v : Nat}
    (hr : s.address names l (.var v) = .ok r) :
    (s.shift d q).address names l (.var v) = .ok r := by
  have hsize : (s.shift d q).vars.size = s.vars.size := by
    cases q <;> simp [shift, modify]
  simp only [address, hsize] at hr ⊢
  exact hr

end Again

section Moves

variable {s : State} {names : Names} {l : OpLine} {direction : Int32 → Int32} {v : Operand}
  {target : Place}

/-- A move that slips stops with the offset and the target moved. -/
theorem move_of_slips
    {d : Int32} {q : Address}
    (h : s.Slips names l direction v target d q) :
    ∃ n array size, s.move names l direction v target =
      (s.shift d q, some (.failure l.line l.text (.outOfRange n array size))) := by
  obtain ⟨a, i, n, k, b, rfl, htarget, hvalue, rfl, hrequire, haddress, hk, hb, hrange⟩ := h
  have hq := ne_var_of_address htarget haddress
  have hagain := address_shift_index (d := direction n) names l hk hb hq
  rw [if_neg hrange] at hagain
  refine ⟨k + direction n, (names.arrayDecl a).name, b.cells.size, ?_⟩
  simp only [move, hvalue, hrequire, haddress, bind, Except.bind, pure, Except.pure]
  rw [hagain]

/-- The cell of an operand is found again after the first half of a move, unless it slips. -/
theorem found_again
    {p : Place} {n : Int32} {q : Address}
    (hvalue : s.value names l (.stored p) = .ok n)
    (hrequire : s.requirePlace target = .ok ())
    (haddress : s.address names l target = .ok q)
    (hslips : ∀ d q, ¬ s.Slips names l direction (.stored p) target d q) :
    ∃ r, (s.shift (direction n) q).address names l p = .ok r := by
  obtain ⟨_, -, hfound⟩ := bind_eq_ok_iff.mp hvalue
  obtain ⟨r, hr, -⟩ := bind_eq_ok_iff.mp hfound
  cases p with
  | var v => exact ⟨r, address_shift_var hr⟩
  | element a j =>
      cases j with
      | literal m => exact ⟨r, address_shift_element rfl hr⟩
      | var i =>
          by_cases htarget : target = .var i
          · -- the index is moved back with the target
            subst htarget
            simp only [address] at haddress
            split_ifs at haddress
            cases haddress
            exact ⟨r, address_shift_element (indexValue_shift_self s i _) hr⟩
          · obtain ⟨k, b, hk, hb⟩ := index_of_address hr
            have hq := ne_var_of_address htarget haddress
            have hagain := address_shift_index (d := direction n) names l hk hb hq
            by_cases hrange : 0 ≤ (k + direction n).toInt ∧ (k + direction n).toInt < b.cells.size
            · rw [if_pos hrange] at hagain
              exact ⟨_, hagain⟩
            · exact absurd ⟨a, i, n, k, b, rfl, htarget, hvalue, rfl, hrequire, haddress, hk, hb,
                hrange⟩ (hslips (direction n) q)

/-- A move that stops and does not slip has changed nothing. -/
theorem move_keeps
    {h : Halt}
    (hh : (s.move names l direction v target).2 = some h)
    (hslips : ∀ d q, ¬ s.Slips names l direction v target d q) :
    (s.move names l direction v target).1 = s := by
  unfold move at hh ⊢
  dsimp only at hh ⊢
  split at hh
  · rfl
  · cases hh
  · rename_i d q p hfound
    obtain ⟨n, hvalue, hfound⟩ := bind_eq_ok_iff.mp hfound
    obtain ⟨_, hrequire, hfound⟩ := bind_eq_ok_iff.mp hfound
    obtain ⟨q', haddress, hfound⟩ := bind_eq_ok_iff.mp hfound
    cases hfound
    split at hh
    · rename_i e hstop
      obtain ⟨r, hr⟩ := found_again hvalue hrequire haddress hslips
      rw [hr] at hstop
      cases hstop
    · cases hh

/-- A move by nothing does not slip. -/
theorem Slips.ne_zero
    {d : Int32} {q : Address}
    (h : s.Slips names l direction v target d q) :
    d ≠ 0 := by
  obtain ⟨a, i, n, k, b, rfl, -, hvalue, -, -, -, hk, hb, hrange⟩ := h
  obtain ⟨_, -, hfound⟩ := bind_eq_ok_iff.mp hvalue
  obtain ⟨r, hr, -⟩ := bind_eq_ok_iff.mp hfound
  rintro rfl
  rw [Int32.add_zero] at hrange
  rw [address_element names l hk hb, if_neg hrange] at hr
  cases hr

end Moves

end State

/-- The move that an operation makes, if it makes one: the direction, the operand and the
target. -/
def Op.move? : Op → Option ((Int32 → Int32) × Operand × Place)
  | .add v target => some (id, v, target)
  | .subtract v target => some ((- ·), v, target)
  | _ => none

namespace Step

variable {σ : Type}

/-- If the program stops, state and input are as they were. -/
def Keeps (s : State) (input : σ) (t : Step σ) : Prop :=
  ∀ h, t.halt = some h → t.state = s ∧ t.input = input

theorem keeps_next
    (s s' : State) (input : σ) :
    Keeps s input (next s' input) := by
  intro h hh
  cases hh

theorem keeps_ofState
    (s : State) (input : σ) (x : Except Halt State) :
    Keeps s input (ofState s input x) := by
  cases x with
  | error e => exact fun _ _ => ⟨rfl, rfl⟩
  | ok s' => exact keeps_next s s' input

theorem keeps_writing
    (s : State) (input : σ) (render : Int32 → Bytes) (x : Except Halt Int32) :
    Keeps s input (writing s input render x) := by
  cases x with
  | error e => exact fun _ _ => ⟨rfl, rfl⟩
  | ok n =>
      intro h hh
      cases hh

end Step

namespace Machine

variable {σ : Type} [NumberSource σ]

/-- The next operation is a move by `d` that stops half way, with its target at `q`. -/
def Slips (m : Machine) (s : State) (d : Int32) (q : Address) : Prop :=
  ∃ l direction v target, m.program.ops[s.pc]? = some l ∧
    l.op.move? = some (direction, v, target) ∧
    s.Slips m.program.names l direction v target d q

theorem exec_of_move
    {m : Machine} {l : OpLine} {direction : Int32 → Int32} {v : Operand} {target : Place}
    (hmove : l.op.move? = some (direction, v, target)) (i : Nat) (s : State) (input : σ) :
    (m.exec l i s input).state = (s.move m.program.names l direction v target).1 ∧
    (m.exec l i s input).halt = (s.move m.program.names l direction v target).2 ∧
    (m.exec l i s input).input = input := by
  cases hop : l.op <;> rw [hop] at hmove <;> cases hmove <;> simp only [exec, hop, and_self]

/-- What an operation that makes no move leaves behind when it stops. -/
theorem exec_keeps
    {m : Machine} {l : OpLine}
    (hmove : l.op.move? = none) (i : Nat) (s : State) (input : σ) :
    (m.exec l i s input).Keeps s input ∨
      ∃ target, l.op = .read target ∧ s.requirePlace target = .ok () ∧
        (m.exec l i s input).Keeps s (NumberSource.draw input).2 := by
  cases hop : l.op with
  | read target =>
      simp only [exec, hop]
      cases hplace : s.requirePlace target with
      | error h => exact Or.inl fun _ _ => ⟨rfl, rfl⟩
      | ok _ =>
          refine Or.inr ⟨target, rfl, hplace, ?_⟩
          obtain ⟨drawn, rest⟩ := NumberSource.draw input
          cases drawn with
          | error e => exact fun _ _ => ⟨rfl, rfl⟩
          | ok n => exact Step.keeps_ofState _ _ _
  | add v target =>
      rw [hop] at hmove
      cases hmove
  | subtract v target =>
      rw [hop] at hmove
      cases hmove
  | print v =>
      simp only [exec, hop]
      exact Or.inl (Step.keeps_writing _ _ _ _)
  | printChar v =>
      simp only [exec, hop]
      exact Or.inl (Step.keeps_writing _ _ _ _)
  | closeBlock a b c =>
      simp only [exec, hop]
      exact Or.inl (Step.keeps_next _ _ _)
  | mark f =>
      simp only [exec, hop]
      exact Or.inl (Step.keeps_next _ _ _)
  | _ =>
      simp only [exec, hop]
      exact Or.inl (Step.keeps_ofState _ _ _)

/-- A step that stops and is no move that stops half way leaves the state as it was. -/
theorem step_keeps
    {m : Machine} {s : State} {input : σ} {h : Halt}
    (hh : (m.step s input).halt = some h)
    (hslips : ∀ d q, ¬ m.Slips s d q) :
    (m.step s input).state = { s with pc := s.pc + 1 } ∧
      ((m.step s input).input = input ∨
        ∃ l target, m.program.ops[s.pc]? = some l ∧ l.op = .read target ∧
          s.requirePlace target = .ok () ∧
          (m.step s input).input = (NumberSource.draw input).2) := by
  cases hl : m.program.ops[s.pc]? with
  | none =>
      simp only [step, hl] at hh
      cases hh
  | some l =>
      simp only [step, hl] at hh ⊢
      cases hmove : l.op.move? with
      | none =>
          rcases exec_keeps hmove s.pc { s with pc := s.pc + 1 } input with hkeeps |
            ⟨target, hread, hplace, hkeeps⟩
          · obtain ⟨hstate, hinput⟩ := hkeeps h hh
            exact ⟨hstate, Or.inl hinput⟩
          · obtain ⟨hstate, hinput⟩ := hkeeps h hh
            exact ⟨hstate, Or.inr ⟨l, target, rfl, hread, hplace, hinput⟩⟩
      | some move =>
          obtain ⟨direction, v, target⟩ := move
          obtain ⟨hstate, hhalt, hinput⟩ :=
            exec_of_move (m := m) hmove s.pc { s with pc := s.pc + 1 } input
          refine ⟨?_, Or.inl hinput⟩
          rw [hstate]
          refine State.move_keeps (hhalt.symm.trans hh) ?_
          intro d q hslip
          exact hslips d q ⟨l, direction, v, target, hl, hmove, hslip⟩

/-- A move that stops half way fails at its line. -/
theorem step_of_slips
    {m : Machine} {s : State} {d : Int32} {q : Address}
    (h : m.Slips s d q) (input : σ) :
    (∃ l n array size, m.program.ops[s.pc]? = some l ∧
      (m.step s input).halt = some (.failure l.line l.text (.outOfRange n array size))) ∧
    (m.step s input).input = input ∧ d ≠ 0 ∧ s.Shifted (m.step s input).state d q := by
  obtain ⟨l, direction, v, target, hl, hmove, hslip⟩ := h
  obtain ⟨hstate, hhalt, hinput⟩ :=
    exec_of_move (m := m) hmove s.pc { s with pc := s.pc + 1 } input
  -- nothing that a move looks at depends on the position
  obtain ⟨n, array, size, hmoved⟩ := State.move_of_slips (s := { s with pc := s.pc + 1 }) hslip
  rw [hmoved] at hstate hhalt
  simp only [step, hl]
  refine ⟨⟨l, n, array, size, rfl, hhalt⟩, hinput, hslip.ne_zero, ?_⟩
  rw [hstate]
  obtain ⟨-, -, -, -, -, -, -, -, -, -, haddress, -⟩ := hslip
  exact State.shifted_shift (State.within_of_address haddress) d

/-- A step that stops leaves the state as it was, with the next position, and the input as
well, unless it has drawn a number.  The exceptions are the moves that stop half way: they
fail because of the index, and have moved the offset and the target. -/
theorem failed_steps_leave_the_state
    (m : Machine) (s : State) (input : σ) :
    (∀ h, (m.step s input).halt = some h → (∀ d q, ¬ m.Slips s d q) →
      (m.step s input).state = { s with pc := s.pc + 1 } ∧
      ((m.step s input).input = input ∨
        ∃ l target, m.program.ops[s.pc]? = some l ∧ l.op = .read target ∧
          s.requirePlace target = .ok () ∧
          (m.step s input).input = (NumberSource.draw input).2)) ∧
    ∀ d q, m.Slips s d q →
      (∃ l n array size, m.program.ops[s.pc]? = some l ∧
        (m.step s input).halt = some (.failure l.line l.text (.outOfRange n array size))) ∧
      (m.step s input).input = input ∧ d ≠ 0 ∧ s.Shifted (m.step s input).state d q := by
  constructor
  · intro h hh hslips
    exact step_keeps hh hslips
  · intro d q hslips
    exact step_of_slips hslips input

/-- Reads an index into an array of two and adds the cell at the index. -/
def addIndexed : Bytes :=
  Listing.join <|
    [ "sub a[x] from y", "sub 1 from y", "print x", "undefine y", "undefine single a[2]",
      "undefine x" ].map ascii

/-- The program of these lines. -/
def ofAddIndexed : Program where
  names := ⟨#[ascii "x", ascii "y"], #[⟨ascii "a", 2⟩], #[]⟩
  ops :=
    #[ ⟨.define 0, 1, ascii "undefine x"⟩,
      ⟨.defineArray 0, 2, ascii "undefine single a[2]"⟩,
      ⟨.define 1, 3, ascii "undefine y"⟩,
      ⟨.read (.var 0), 4, ascii "print x"⟩,
      ⟨.add (.literal 1) (.var 1), 5, ascii "sub 1 from y"⟩,
      ⟨.add (.stored (.element 0 (.var 0))) (.var 1), 6, ascii "sub a[x] from y"⟩ ]
  lineCount := 6

/-- With the index 0 its last step stops half way, and without an index it stops at the
read and leaves the state as it was. -/
theorem addIndexed_stops :
    Program.ofSource addIndexed = .ok ofAddIndexed ∧
    ∃ m r r', Machine.load ofAddIndexed = .ok m ∧
      m.run 5 (Scanner.mk (ascii "0")) = (r, .stepLimit) ∧
      m.Slips r.state 1 (.var 1) ∧
      r.state.Shifted (m.step r.state r.input).state 1 (.var 1) ∧
      m.run 3 (Scanner.mk []) = (r', .stepLimit) ∧
      (m.step r'.state r'.input).halt =
        some (.failure 4 (ascii "print x") (.read .endOfInput)) ∧
      (m.step r'.state r'.input).state = { r'.state with pc := r'.state.pc + 1 } := by
  have hp : Program.ofSource addIndexed = .ok ofAddIndexed := by decide +kernel
  cases hm : Machine.load ofAddIndexed with
  | error e => cases hm
  | ok m =>
      have hslips : m.Slips (m.run 5 (Scanner.mk (ascii "0"))).1.state 1 (.var 1) := by
        refine ⟨⟨.add (.stored (.element 0 (.var 0))) (.var 1), 6, ascii "sub a[x] from y"⟩,
          id, .stored (.element 0 (.var 0)), .var 1, ?_, rfl, 0, 0, 1, 1, ⟨#[0, 0], true⟩, rfl,
          ?_⟩
        · cases hm
          decide +kernel
        · cases hm
          decide +kernel
      have hends : (m.run 5 (Scanner.mk (ascii "0"))).2 = .stepLimit ∧
          (m.run 3 (Scanner.mk [])).2 = .stepLimit := by
        cases hm
        decide +kernel
      have hread : (m.step (m.run 3 (Scanner.mk [])).1.state (m.run 3 (Scanner.mk [])).1.input).halt
          = some (.failure 4 (ascii "print x") (.read .endOfInput)) := by
        cases hm
        decide +kernel
      have hline : m.program.ops[(m.run 3 (Scanner.mk [])).1.state.pc]? =
          some ⟨.read (.var 0), 4, ascii "print x"⟩ := by
        cases hm
        decide +kernel
      obtain ⟨hkeeps, -⟩ := failed_steps_leave_the_state m _ (m.run 3 (Scanner.mk [])).1.input
      obtain ⟨-, hshift⟩ := failed_steps_leave_the_state m _
        (m.run 5 (Scanner.mk (ascii "0"))).1.input
      refine ⟨hp, m, _, _, rfl, Prod.ext rfl hends.1, hslips, (hshift _ _ hslips).2.2.2,
        Prod.ext rfl hends.2, hread, (hkeeps _ hread ?_).1⟩
      rintro d q ⟨l, direction, v, target, hl, hmove, -⟩
      rw [hline] at hl
      cases hl
      cases hmove

end Machine

end Contrary
