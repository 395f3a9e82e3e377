import Contrary.Proofs.Cutting
import Contrary.Proofs.FailedSteps

/-!
# The history of a run

A run goes through operations of its program, in an order that conditions and jumps decide.
The list of the operations that it has gone through is its history.

**Histories.**  `Machine.Executes` relates two runs by the operations that lead from one to
the other.  Every number of operations that a run makes has such a list (`exists_executes`),
and every run with a limit ends after one (`exists_executes_runFor`).

**What an operation does.**  `Liveness` is what is alive in a state, with the pinned flag, and
`Liveness.after` is what an operation does to it, whatever the numbers are.  `Machine.GoesOn`
says where a program goes on after an operation.  Both are read off the operations once, in
`exec_outline`.
-/

namespace Contrary

/-- What is alive in a state, and the flag that is pinned. -/
structure Liveness where
  vars : Array Bool
  arrays : Array Bool
  flags : Array Bool
  pinned : Option Nat
  deriving DecidableEq, Repr

namespace Liveness

/-- What is alive after an operation. -/
def after (w : Liveness) : Op → Liveness
  | .define v => { w with vars := w.vars.setIfInBounds v true }
  | .undefine v => { w with vars := w.vars.setIfInBounds v false }
  | .defineArray a => { w with arrays := w.arrays.setIfInBounds a true }
  | .undefineArray a => { w with arrays := w.arrays.setIfInBounds a false }
  | .unmark f => { w with flags := w.flags.setIfInBounds f false }
  | .pin f => { w with pinned := some f }
  | _ => w

end Liveness

namespace State

/-- What is alive in a state, and the flag that is pinned. -/
def liveness (s : State) : Liveness :=
  ⟨s.vars.map Cell.live, s.arrays.map Bank.live, s.flags, s.pinned⟩

section Effects

variable {s s' : State} {names : Names} {l : OpLine}

/-- A change of one entry is a change of one entry of what it shows. -/
theorem map_modify_eq_setIfInBounds
    {α β : Type} (xs : Array α) (i : Nat) {f : α → α} {g : α → β} {b : β}
    (h : ∀ x, g (f x) = b) :
    (xs.modify i f).map g = (xs.map g).setIfInBounds i b := by
  refine Array.ext_getElem? ?_
  intro j
  simp only [Array.getElem?_map, Array.getElem?_modify, Array.getElem?_setIfInBounds,
    Array.size_map]
  split_ifs with hij hlt
  · simp [Array.getElem?_eq_getElem (hij ▸ hlt), h]
  · simp [Array.getElem?_eq_none (Nat.not_lt.mp (hij ▸ hlt))]
  · rfl

theorem liveness_define
    {v : Nat}
    (h : s.define v = .ok s') :
    s'.liveness = s.liveness.after (.define v) ∧ s'.pc = s.pc := by
  unfold define at h
  split_ifs at h
  cases h
  exact ⟨by simp [liveness, Liveness.after], rfl⟩

theorem liveness_undefine
    {v : Nat}
    (h : s.undefine v = .ok s') :
    s'.liveness = s.liveness.after (.undefine v) ∧ s'.pc = s.pc := by
  unfold undefine at h
  split_ifs at h
  cases h
  have hlive := map_modify_eq_setIfInBounds s.vars v
    (f := fun c => { c with live := false }) (g := Cell.live) fun _ => rfl
  exact ⟨by simp only [liveness, Liveness.after, hlive], rfl⟩

theorem liveness_defineArray
    {a : Nat}
    (h : s.defineArray a = .ok s') :
    s'.liveness = s.liveness.after (.defineArray a) ∧ s'.pc = s.pc := by
  unfold defineArray at h
  split_ifs at h
  cases h
  have hlive := map_modify_eq_setIfInBounds s.arrays a
    (f := fun b => ⟨b.cells.map fun _ => -s.offset, true⟩) (g := Bank.live) fun _ => rfl
  exact ⟨by simp only [liveness, Liveness.after, hlive], rfl⟩

theorem liveness_undefineArray
    {a : Nat}
    (h : s.undefineArray a = .ok s') :
    s'.liveness = s.liveness.after (.undefineArray a) ∧ s'.pc = s.pc := by
  unfold undefineArray at h
  split_ifs at h
  cases h
  have hlive := map_modify_eq_setIfInBounds s.arrays a
    (f := fun b => { b with live := false }) (g := Bank.live) fun _ => rfl
  exact ⟨by simp only [liveness, Liveness.after, hlive], rfl⟩

theorem liveness_unmark
    {f : Nat}
    (h : s.unmark f = .ok s') :
    s'.liveness = s.liveness.after (.unmark f) ∧ s'.pc = s.pc := by
  unfold unmark at h
  split_ifs at h
  cases h
  exact ⟨rfl, rfl⟩

theorem liveness_pin
    {f : Nat}
    (h : s.pin f = .ok s') :
    s'.liveness = s.liveness.after (.pin f) ∧ s'.pc = s.pc := by
  unfold pin at h
  split at h
  · cases h
  · cases h
    exact ⟨rfl, rfl⟩
  · cases h

theorem liveness_modify
    (s : State) (f : Int32 → Int32) (q : Address) :
    (s.modify f q).liveness = s.liveness ∧ (s.modify f q).pc = s.pc := by
  obtain ⟨hvars, harrays⟩ := s.live_modify f q
  refine ⟨?_, by cases q <;> rfl⟩
  unfold liveness
  rw [hvars, harrays]
  cases q <;> rfl

theorem liveness_receive
    {target : Place} {n : Int32}
    (h : s.receive names l target n = .ok s') :
    s'.liveness = s.liveness ∧ s'.pc = s.pc := by
  obtain ⟨q, -, h⟩ := bind_eq_ok_iff.mp h
  cases h
  exact s.liveness_modify _ q

theorem liveness_shift
    (s : State) (d : Int32) (q : Address) :
    (s.shift d q).liveness = s.liveness ∧ (s.shift d q).pc = s.pc :=
  liveness_modify { s with offset := s.offset + d } _ q

theorem liveness_move
    (s : State) (names : Names) (l : OpLine) (direction : Int32 → Int32) (v : Operand)
    (target : Place) :
    (s.move names l direction v target).1.liveness = s.liveness ∧
      (s.move names l direction v target).1.pc = s.pc := by
  unfold move
  dsimp only
  split
  · exact ⟨rfl, rfl⟩
  · exact s.liveness_shift _ _
  · rename_i d q p _
    split
    · exact s.liveness_shift d q
    · rename_i r _
      obtain ⟨hlive, hpc⟩ := (s.shift d q).liveness_modify (· - d) r
      obtain ⟨hlive', hpc'⟩ := s.liveness_shift d q
      exact ⟨hlive.trans hlive', hpc.trans hpc'⟩

end Effects

end State

namespace Machine

variable {σ : Type}

/-- Where a program goes on after an operation at position `i`, in a state whose position is
already the next one: at this position, after the block that it has opened, or where the
pinned flag is placed. -/
inductive GoesOn (m : Machine) (op : Op) (i : Nat) (s : State) : Nat → Prop
  | next :
      op ≠ .goto →
      GoesOn m op i s s.pc
  | skip {j : Nat} {a b : Operand} {c : Comparison} :
      op = .openBlock →
      m.condition? i = some (j, a, b, c) →
      GoesOn m op i s (j + 1)
  | jump {f j : Nat} :
      op = .goto →
      s.pinned = some f →
      m.marks[f]? = some j →
      GoesOn m op i s j

/-- What an operation makes of a state, as far as the numbers do not matter. -/
structure Outline (m : Machine) (op : Op) (i : Nat) (s s' : State) : Prop where
  liveness : s'.liveness = s.liveness.after op
  position : m.GoesOn op i s s'.pc

section Operations

variable {m : Machine} {s s' : State} {op : Op} {l : OpLine} {i : Nat}

/-- An operation after which the program goes on at the next position. -/
theorem Outline.of_eq
    (hop : op ≠ .goto)
    (h : s'.liveness = s.liveness.after op ∧ s'.pc = s.pc) :
    m.Outline op i s s' := by
  refine ⟨h.1, ?_⟩
  rw [h.2]
  exact .next hop

theorem outline_branch
    (h : m.branch l i s = .ok s') :
    m.Outline .openBlock i s s' := by
  unfold branch at h
  split at h
  · cases h
  · rename_i j a b c hcond
    obtain ⟨x, -, h⟩ := bind_eq_ok_iff.mp h
    obtain ⟨y, -, h⟩ := bind_eq_ok_iff.mp h
    cases h
    by_cases hholds : c.holds x y = true
    · rw [if_pos hholds]
      exact .of_eq Op.noConfusion ⟨rfl, rfl⟩
    · rw [if_neg hholds]
      exact ⟨rfl, .skip rfl hcond⟩

theorem outline_jump
    (h : s.jump m.marks = .ok s') :
    m.Outline .goto i s s' := by
  unfold State.jump at h
  split at h
  · cases h
  · rename_i f hf
    split at h
    · cases h
    · rename_i j hj
      cases h
      exact ⟨rfl, .jump rfl hf hj⟩

theorem outline_ofState
    {input : σ} {x : Except Halt State}
    (hx : ∀ s', x = .ok s' → m.Outline op i s s')
    (h : (Step.ofState s input x).halt = none) :
    m.Outline op i s (Step.ofState s input x).state := by
  cases x with
  | ok s' => exact hx s' rfl
  | error e => cases h

theorem outline_writing
    {input : σ} {render : Int32 → Bytes} {x : Except Halt Int32}
    (hs : m.Outline op i s s)
    (h : (Step.writing s input render x).halt = none) :
    m.Outline op i s (Step.writing s input render x).state := by
  cases x with
  | ok n => exact hs
  | error e => cases h

/-- What an operation that does not stop the program makes of a state. -/
theorem exec_outline
    [NumberSource σ] {input : σ} :
    (m.exec l i s input).halt = none → m.Outline l.op i s (m.exec l i s input).state := by
  unfold exec
  generalize l.op = op
  cases op with
  | define v =>
      exact outline_ofState fun s' hs' => .of_eq Op.noConfusion (State.liveness_define hs')
  | defineArray a =>
      exact outline_ofState fun s' hs' => .of_eq Op.noConfusion (State.liveness_defineArray hs')
  | undefine v =>
      exact outline_ofState fun s' hs' => .of_eq Op.noConfusion (State.liveness_undefine hs')
  | undefineArray a =>
      exact outline_ofState fun s' hs' => .of_eq Op.noConfusion (State.liveness_undefineArray hs')
  | read target =>
      dsimp only
      split
      · exact nofun
      · split
        · exact nofun
        · exact outline_ofState fun s' hs' => .of_eq Op.noConfusion (State.liveness_receive hs')
  | print v => exact outline_writing (.of_eq Op.noConfusion ⟨rfl, rfl⟩)
  | printChar v => exact outline_writing (.of_eq Op.noConfusion ⟨rfl, rfl⟩)
  | add v target => exact fun _ => .of_eq Op.noConfusion (s.liveness_move _ l _ v target)
  | subtract v target => exact fun _ => .of_eq Op.noConfusion (s.liveness_move _ l _ v target)
  | openBlock => exact outline_ofState fun s' hs' => outline_branch hs'
  | closeBlock a b c => exact fun _ => .of_eq Op.noConfusion ⟨rfl, rfl⟩
  | mark f => exact fun _ => .of_eq Op.noConfusion ⟨rfl, rfl⟩
  | unmark f =>
      exact outline_ofState fun s' hs' => .of_eq Op.noConfusion (State.liveness_unmark hs')
  | pin f => exact outline_ofState fun s' hs' => .of_eq Op.noConfusion (State.liveness_pin hs')
  | goto => exact outline_ofState fun s' hs' => outline_jump hs'

end Operations

variable [NumberSource σ]

/-- A run comes from one point to another by the operations of a list, none of which stops the
program. -/
inductive Executes (m : Machine) : Run σ → List Op → Run σ → Prop
  | done {r : Run σ} :
      Executes m r [] r
  | next {r r₁ r' : Run σ} {l : OpLine} {ops : List Op} :
      m.program.ops[r.state.pc]? = some l →
      m.next? r = some r₁ →
      Executes m r₁ ops r' →
      Executes m r (l.op :: ops) r'

section Histories

variable {m : Machine} {r r₁ r' : Run σ} {l : OpLine}

/-- A run that goes on has an operation to go on with. -/
theorem exists_op_of_next?
    (h : m.next? r = some r₁) :
    ∃ l, m.program.ops[r.state.pc]? = some l := by
  obtain ⟨hend, -⟩ := next?_eq_some_iff.mp h
  have hlt : r.state.pc < m.program.ops.size := by simpa [atEnd] using hend
  exact ⟨_, Array.getElem?_eq_getElem hlt⟩

/-- What a step that does not stop the program makes of a state. -/
theorem step_outline
    {s : State} {input : σ}
    (hl : m.program.ops[s.pc]? = some l)
    (h : (m.step s input).halt = none) :
    m.Outline l.op s.pc { s with pc := s.pc + 1 } (m.step s input).state := by
  simp only [step, hl] at h ⊢
  exact exec_outline h

/-- What the next operation makes of the state of a run that goes on. -/
theorem next?_outline
    (hl : m.program.ops[r.state.pc]? = some l)
    (h : m.next? r = some r₁) :
    m.Outline l.op r.state.pc { r.state with pc := r.state.pc + 1 } r₁.state := by
  obtain ⟨-, hadvance⟩ := next?_eq_some_iff.mp h
  obtain ⟨rfl, hhalt⟩ := Prod.mk.inj hadvance
  exact step_outline hl hhalt

theorem executes_cons_iff
    {op : Op} {ops : List Op} :
    m.Executes r (op :: ops) r' ↔
      ∃ l r₁, m.program.ops[r.state.pc]? = some l ∧ l.op = op ∧ m.next? r = some r₁ ∧
        m.Executes r₁ ops r' := by
  constructor
  · intro h
    cases h with
    | next hl hnext h => exact ⟨_, _, hl, rfl, hnext, h⟩
  · rintro ⟨l, r₁, hl, rfl, hnext, h⟩
    exact .next hl hnext h

theorem Executes.after?
    {ops : List Op}
    (h : m.Executes r ops r') :
    m.after? ops.length r = some r' := by
  induction h with
  | done => rfl
  | next _ hnext _ ih =>
      rw [List.length_cons, Machine.after?, hnext]
      exact ih

/-- Operations that a run has made are its history. -/
theorem exists_executes
    {n : Nat} :
    ∀ {r : Run σ}, m.after? n r = some r' → ∃ ops, ops.length = n ∧ m.Executes r ops r' := by
  induction n with
  | zero =>
      intro r h
      cases h
      exact ⟨[], rfl, .done⟩
  | succ n ih =>
      intro r h
      obtain ⟨r₁, hnext, hafter⟩ := Option.bind_eq_some_iff.mp h
      obtain ⟨l, hl⟩ := exists_op_of_next? hnext
      obtain ⟨ops, hlength, hops⟩ := ih hafter
      exact ⟨l.op :: ops, by rw [List.length_cons, hlength], .next hl hnext hops⟩

/-- A history consists of operations of the program. -/
theorem Executes.exists_line
    {ops : List Op}
    (h : m.Executes r ops r') :
    ∀ op ∈ ops, ∃ l ∈ m.program.ops.toList, l.op = op := by
  induction h with
  | done => exact fun _ hop => absurd hop List.not_mem_nil
  | @next _ _ _ l _ hl _ _ ih =>
      intro op hop
      rcases List.mem_cons.mp hop with rfl | hop
      · exact ⟨l, List.mem_of_getElem? (by simpa using hl), rfl⟩
      · exact ih op hop

/-- A history can be cut in two anywhere. -/
theorem executes_append_iff
    {ops ops' : List Op} :
    m.Executes r (ops ++ ops') r' ↔ ∃ r₁, m.Executes r ops r₁ ∧ m.Executes r₁ ops' r' := by
  constructor
  · intro h
    induction ops generalizing r with
    | nil => exact ⟨r, .done, h⟩
    | cons op ops ih =>
        cases h with
        | next hl hnext h =>
            obtain ⟨r₂, hops, hops'⟩ := ih h
            exact ⟨r₂, .next hl hnext hops, hops'⟩
  · rintro ⟨r₁, hops, hops'⟩
    induction hops with
    | done => exact hops'
    | next hl hnext _ ih => exact .next hl hnext (ih hops')

/-- A run that reaches the end of its program ends there, if its limit lets it. -/
theorem Executes.runFor
    {ops : List Op} {limit : Nat}
    (h : m.Executes r ops r')
    (hend : m.atEnd r'.state = true)
    (hlimit : ops.length ≤ limit) :
    m.runFor limit r = m.finish r' := by
  obtain ⟨k, rfl⟩ := Nat.exists_eq_add_of_le hlimit
  rw [runFor_of_after? k h.after?, runFor_of_atEnd hend]

/-- A run with a limit goes through operations until the program ends, until one of them stops
it, or until the limit is reached. -/
theorem exists_executes_runFor
    (m : Machine) (limit : Nat) :
    ∀ r : Run σ, ∃ ops r', ops.length ≤ limit ∧ m.Executes r ops r' ∧
      (m.atEnd r'.state = true ∧ m.runFor limit r = m.finish r' ∨
        (∃ r'' h, m.atEnd r'.state = false ∧ m.advance r' = (r'', some h) ∧
          m.runFor limit r = (r'', .halted h)) ∨
        m.runFor limit r = (r', .stepLimit)) := by
  induction limit with
  | zero =>
      intro r
      refine ⟨[], r, Nat.le_refl 0, .done, ?_⟩
      cases hend : m.atEnd r.state with
      | true => exact .inl ⟨rfl, runFor_of_atEnd hend 0⟩
      | false => exact .inr (.inr (by rw [Machine.runFor, hend]; rfl))
  | succ limit ih =>
      intro r
      cases hnext : m.next? r with
      | some r₁ =>
          obtain ⟨l, hl⟩ := exists_op_of_next? hnext
          obtain ⟨ops, r', hlength, hops, hends⟩ := ih r₁
          rw [runFor_of_next? hnext]
          exact ⟨l.op :: ops, r', Nat.succ_le_succ hlength, .next hl hnext hops, hends⟩
      | none =>
          refine ⟨[], r, Nat.zero_le _, .done, ?_⟩
          rcases next?_eq_none_iff.mp hnext with hend | ⟨hend, r'', halt, hadvance⟩
          · exact .inl ⟨hend, runFor_of_atEnd hend _⟩
          · exact .inr (.inl ⟨r'', halt, hend, hadvance, runFor_of_halt hend hadvance limit⟩)

end Histories

end Machine

end Contrary
