import Contrary.Proofs.Display.Basic

/-!
# What the machine shows

`State.display` is the state that a state of the machine shows: every stored
number with the offset added, and all else as it is.  Each operation commutes with
it, so the machine and the machine of shown values show the same after any number
of steps, and stop for the same reason.

**Results.**
* `exec_display`, `step_display`: one operation.
* `runFor_display`, `run_display`: a whole run.
* `offset_is_invisible`: a run from the start, spelled out.
-/

namespace Contrary

/-- What a state shows: every stored number with the offset added. -/
def State.display (s : State) : Display where
  vars := s.vars.map fun c => ⟨c.stored + s.offset, c.live⟩
  arrays := s.arrays.map fun b => ⟨b.cells.map (· + s.offset), b.live⟩
  flags := s.flags
  pinned := s.pinned
  pc := s.pc

namespace State

section Access

variable (s : State)

@[simp] theorem requireVar_display
    (v : Nat) :
    s.display.requireVar v = s.requireVar v := by
  simp only [Display.requireVar, requireVar, display, Array.getElem?_map]
  cases s.vars[v]? <;> rfl

@[simp] theorem requireIndex_display
    (i : Index) :
    s.display.requireIndex i = s.requireIndex i := by
  cases i with
  | literal n => rfl
  | var v => exact s.requireVar_display v

@[simp] theorem requirePlace_display
    (p : Place) :
    s.display.requirePlace p = s.requirePlace p := by
  cases p with
  | var v => exact s.requireVar_display v
  | element a i =>
      simp only [Display.requirePlace, requirePlace, requireIndex_display]
      simp only [display, Array.getElem?_map]
      cases s.arrays[a]? <;> rfl

@[simp] theorem indexValue_display
    (i : Index) :
    s.display.indexValue i = s.indexValue i := by
  cases i with
  | literal n => rfl
  | var v =>
      simp only [Display.indexValue, indexValue, display, Array.getElem?_map]
      cases s.vars[v]? <;> rfl

@[simp] theorem address_display
    (names : Names) (l : OpLine) (p : Place) :
    s.display.address names l p = s.address names l p := by
  cases p with
  | var v => simp [Display.address, address, display]
  | element a i =>
      simp only [Display.address, address, indexValue_display]
      simp only [display, Array.getElem?_map]
      cases s.arrays[a]? with
      | none => rfl
      | some b => simp

variable {s}

theorem load_display
    {q : Address}
    (h : s.display.Has q) :
    s.display.load q = s.load q + s.offset := by
  cases q with
  | var v =>
      have hv : v < s.vars.size := by simpa [Display.Has, display] using h
      simp [Display.load, load, display, Array.getD_eq_getD_getElem?, Array.getElem?_eq_getElem hv]
  | cell a i =>
      obtain ⟨b', hb', hi⟩ := h
      simp only [display, Array.getElem?_map, Option.map_eq_some_iff] at hb'
      obtain ⟨b, hb, rfl⟩ := hb'
      rw [Array.size_map] at hi
      simp [Display.load, load, display, Array.getD_eq_getD_getElem?, hb,
        Array.getElem?_eq_getElem hi]

@[simp] theorem value_display
    (names : Names) (l : OpLine) (v : Operand) :
    s.display.value names l v = s.value names l v := by
  cases v with
  | literal n => rfl
  | stored p =>
      simp only [Display.value, value, requirePlace_display, address_display]
      cases s.requirePlace p with
      | error h => rfl
      | ok _ =>
          cases hq : s.address names l p with
          | error h => rfl
          | ok q =>
              have hload := load_display (Display.has_of_address ((s.address_display names l p).trans hq))
              simp only [bind, Except.bind, hload]

end Access

section Effects

variable (s : State)

/-- A change of a stored number is a change of the shown value, if it commutes with
adding the offset. -/
theorem modify_display
    {f g : Int32 → Int32}
    (hfg : ∀ x, f x + s.offset = g (x + s.offset))
    (q : Address) :
    (s.modify f q).display = s.display.modify g q := by
  cases q with
  | var v =>
      simp only [modify, Display.modify, display, Display.mk.injEq, and_self, and_true]
      apply Array.ext_getElem?
      intro i
      simp only [Array.getElem?_map, Array.getElem?_modify]
      split_ifs
      · cases s.vars[i]? with
        | none => rfl
        | some c => simp [hfg]
      · rfl
  | cell a j =>
      simp only [modify, Display.modify, display, Display.mk.injEq, and_self, and_true, true_and]
      apply Array.ext_getElem?
      intro i
      simp only [Array.getElem?_map, Array.getElem?_modify]
      split_ifs
      · cases s.arrays[i]? with
        | none => rfl
        | some b =>
            simp only [Option.map_some, Option.some.injEq, Bank.mk.injEq, and_true]
            apply Array.ext_getElem?
            intro k
            simp only [Array.getElem?_map, Array.getElem?_modify]
            split_ifs
            · cases b.cells[k]? with
              | none => rfl
              | some x => simp [hfg]
            · rfl
      · rfl

/-- Moving the offset raises every shown value. -/
theorem offset_display
    (t : Int32) :
    { s with offset := s.offset + t }.display = s.display.raise t := by
  simp only [display, Display.raise, Array.map_map, Function.comp_def, Display.mk.injEq, and_true]
  constructor
  · apply Array.map_congr_left
    intro c _
    simp only [Cell.mk.injEq, and_true]
    grind
  · apply Array.map_congr_left
    intro b _
    simp only [Bank.mk.injEq, and_true]
    apply Array.map_congr_left
    intro x _
    grind

theorem shift_display
    (t : Int32) (q : Address) :
    (s.shift t q).display = s.display.raiseBut t q := by
  unfold shift Display.raiseBut
  rw [modify_display, offset_display]
  intro x
  grind

theorem define_display
    (v : Nat) :
    (s.define v).map display = s.display.define v := by
  simp only [define, Display.define, display, Array.size_map]
  split_ifs with hv
  · have hzero : -s.offset + s.offset = 0 := Int32.add_left_neg s.offset
    simp [Except.map, display, Array.map_setIfInBounds, hzero]
  · rfl

theorem undefine_display
    (v : Nat) :
    (s.undefine v).map display = s.display.undefine v := by
  simp only [undefine, Display.undefine, display, Array.size_map]
  split_ifs with hv
  · simp only [Except.map, display, Except.ok.injEq, Display.mk.injEq, and_true]
    apply Array.ext_getElem?
    intro i
    simp only [Array.getElem?_map, Array.getElem?_modify]
    split_ifs
    · cases s.vars[i]? <;> rfl
    · rfl
  · rfl

theorem defineArray_display
    (a : Nat) :
    (s.defineArray a).map display = s.display.defineArray a := by
  simp only [defineArray, Display.defineArray, display, Array.size_map]
  split_ifs with ha
  · simp only [Except.map, display, Except.ok.injEq, Display.mk.injEq, and_true, true_and]
    apply Array.ext_getElem?
    intro i
    have hzero : -s.offset + s.offset = 0 := Int32.add_left_neg s.offset
    simp only [Array.getElem?_map, Array.getElem?_modify]
    split_ifs
    · cases s.arrays[i]? with
      | none => simp only [Option.map_none]
      | some b => simp [Function.comp_def, hzero]
    · rfl
  · rfl

theorem undefineArray_display
    (a : Nat) :
    (s.undefineArray a).map display = s.display.undefineArray a := by
  simp only [undefineArray, Display.undefineArray, display, Array.size_map]
  split_ifs with ha
  · simp only [Except.map, display, Except.ok.injEq, Display.mk.injEq, and_true, true_and]
    apply Array.ext_getElem?
    intro i
    simp only [Array.getElem?_map, Array.getElem?_modify]
    split_ifs
    · cases s.arrays[i]? <;> rfl
    · rfl
  · rfl

theorem unmark_display
    (f : Nat) :
    (s.unmark f).map display = s.display.unmark f := by
  by_cases hf : f < s.flags.size
  · simp [unmark, Display.unmark, display, hf, Except.map]
  · simp [unmark, Display.unmark, display, hf, Except.map]

theorem pin_display
    (f : Nat) :
    (s.pin f).map display = s.display.pin f := by
  simp only [pin, Display.pin, display]
  cases s.flags[f]? with
  | none => rfl
  | some b => cases b <;> rfl

theorem jump_display
    (marks : Array Nat) :
    (s.jump marks).map display = s.display.jump marks := by
  simp only [jump, Display.jump, display]
  cases s.pinned with
  | none => rfl
  | some f => cases hm : marks[f]? <;> simp [hm, Except.map, display]

theorem receive_display
    (names : Names) (l : OpLine) (target : Place) (n : Int32) :
    (s.receive names l target n).map display = s.display.receive names l target n := by
  simp only [receive, Display.receive, address_display]
  cases s.address names l target with
  | error h => rfl
  | ok q =>
      have hmodify := s.modify_display (f := fun _ => n - s.offset) (g := fun _ => n)
        (fun _ => Int32.sub_add_cancel n s.offset) q
      simp only [bind, Except.bind, pure, Except.pure, Except.map, hmodify]

/-- The steps of an addition or subtraction show the same. -/
theorem move_display
    (names : Names) (l : OpLine) (direction : Int32 → Int32) (v : Operand) (target : Place) :
    (s.move names l direction v target).map display id =
      s.display.move names l direction v target := by
  simp only [move, Display.move, value_display, requirePlace_display, address_display]
  generalize hfound : (do
    let n ← s.value names l v
    s.requirePlace target
    let q ← s.address names l target
    return (direction n, q) : Except Halt (Int32 × Address)) = found
  cases found with
  | error h => rfl
  | ok r =>
      obtain ⟨t, q⟩ := r
      cases v with
      | literal n => simp [shift_display]
      | stored p =>
          simp only [← shift_display, address_display]
          cases (s.shift t q).address names l p with
          | error h => rfl
          | ok r =>
              have hback : ∀ x, x - t + (s.shift t q).offset = x + (s.shift t q).offset - t := by
                intro x
                grind
              simp [(s.shift t q).modify_display (f := (· - t)) (g := (· - t)) hback]

end Effects

end State

section Steps

variable {σ : Type}

/-- What the outcome of an operation shows. -/
def Step.display (t : Step σ) : Display.Step σ :=
  ⟨t.state.display, t.input, t.output, t.halt⟩

/-- What a run shows. -/
def Run.display (r : Run σ) : Display.Run σ :=
  ⟨r.state.display, r.input, r.output⟩

theorem ofState_display
    (s : State) (input : σ) {x : Except Halt State} {y : Except Halt Display}
    (h : x.map State.display = y) :
    (Step.ofState s input x).display = .ofDisplay s.display input y := by
  subst h
  cases x <;> rfl

theorem writing_display
    (s : State) (input : σ) (render : Int32 → Bytes) (x : Except Halt Int32) :
    (Step.writing s input render x).display = .writing s.display input render x := by
  cases x <;> rfl

namespace Machine

theorem branch_display
    (m : Machine) (l : OpLine) (i : Nat) (s : State) :
    (m.branch l i s).map State.display = s.display.branch m l i := by
  simp only [branch, Display.branch, State.value_display]
  cases m.condition? i with
  | none => rfl
  | some r =>
      obtain ⟨j, a, b, c⟩ := r
      simp only
      cases s.value m.program.names l a with
      | error h => rfl
      | ok x =>
          cases s.value m.program.names l b with
          | error h => rfl
          | ok y =>
              simp only [bind, Except.bind, pure, Except.pure, Except.map]
              cases c.holds x y <;> rfl

/-- Every operation shows the same on both machines. -/
theorem exec_display [NumberSource σ]
    (m : Machine) (l : OpLine) (i : Nat) (s : State) (input : σ) :
    (m.exec l i s input).display = Display.exec m l i s.display input := by
  unfold exec Display.exec
  cases l.op with
  | define v => exact ofState_display s input (s.define_display v)
  | defineArray a => exact ofState_display s input (s.defineArray_display a)
  | undefine v => exact ofState_display s input (s.undefine_display v)
  | undefineArray a => exact ofState_display s input (s.undefineArray_display a)
  | read target =>
      simp only [State.requirePlace_display]
      cases s.requirePlace target with
      | error h => rfl
      | ok u =>
          obtain ⟨x, rest⟩ := NumberSource.draw input
          cases x with
          | error e => rfl
          | ok n => exact ofState_display s rest (s.receive_display m.program.names l target n)
  | print v =>
      simp only [State.value_display]
      exact writing_display s input _ _
  | printChar v =>
      simp only [State.value_display]
      exact writing_display s input _ _
  | add v target =>
      simp only [← State.move_display]
      rfl
  | subtract v target =>
      simp only [← State.move_display]
      rfl
  | openBlock => exact ofState_display s input (m.branch_display l i s)
  | closeBlock a b c => rfl
  | mark f => rfl
  | unmark f => exact ofState_display s input (s.unmark_display f)
  | pin f => exact ofState_display s input (s.pin_display f)
  | goto => exact ofState_display s input (s.jump_display m.marks)

theorem step_display [NumberSource σ]
    (m : Machine) (s : State) (input : σ) :
    (m.step s input).display = Display.step m s.display input := by
  unfold step Display.step
  have hpc : s.display.pc = s.pc := rfl
  rw [hpc]
  cases m.program.ops[s.pc]? with
  | none => rfl
  | some l => exact m.exec_display l s.pc { s with pc := s.pc + 1 } input

theorem leaked?_display
    (m : Machine) (s : State) :
    Display.leaked? m s.display = m.leaked? s := by
  have hvars : s.display.vars.toList.map Cell.live = s.vars.toList.map Cell.live := by
    simp [State.display, Function.comp_def]
  have harrays : s.display.arrays.toList.map Bank.live = s.arrays.toList.map Bank.live := by
    simp [State.display, Function.comp_def]
  have hflags : s.display.flags = s.flags := rfl
  simp only [Display.leaked?, leaked?, hvars, harrays, hflags]

theorem finish_display
    (m : Machine) (r : Run σ) :
    (m.finish r).map Run.display id = Display.finish m r.display := by
  have hleak : Display.leaked? m r.display.display = m.leaked? r.state :=
    m.leaked?_display r.state
  simp only [finish, finalHalt?, Display.finish, hleak]
  cases m.leaked? r.state <;> rfl

/-- Every run shows the same on both machines. -/
theorem runFor_display [NumberSource σ]
    (m : Machine) (limit : Nat) (r : Run σ) :
    (m.runFor limit r).map Run.display id = Display.runFor m limit r.display := by
  induction limit generalizing r with
  | zero =>
      have hpc : r.display.display.pc = r.state.pc := rfl
      simp only [runFor, Display.runFor, atEnd, hpc, decide_eq_true_eq]
      split_ifs
      · exact m.finish_display r
      · rfl
  | succ limit ih =>
      have hpc : r.display.display.pc = r.state.pc := rfl
      have hinput : r.display.input = r.input := rfl
      simp only [runFor, Display.runFor, atEnd, hpc, decide_eq_true_eq]
      split_ifs
      · exact m.finish_display r
      · have hstep := m.step_display r.state r.input
        rw [show Display.step m r.display.display r.display.input = _ from hstep.symm]
        simp only [advance, Step.display]
        cases (m.step r.state r.input).halt with
        | some h => rfl
        | none => exact ih _

theorem start_display
    (m : Machine) :
    m.start.display = Display.start m := by
  simp only [start, State.display, Display.start, Display.mk.injEq, and_true]
  constructor
  · simp
  · simp [Function.comp_def]

theorem run_display [NumberSource σ]
    (m : Machine) (limit : Nat) (input : σ) :
    Display.run m limit input = (m.run limit input).map Run.display id := by
  have hstart : (⟨m.start, input, #[]⟩ : Run σ).display = ⟨Display.start m, input, #[]⟩ := by
    simp [Run.display, m.start_display]
  have hrun := m.runFor_display limit ⟨m.start, input, #[]⟩
  rw [hstart] at hrun
  exact hrun.symm

end Machine

/-- **The offset is invisible.**  After any number of steps, on any input, the machine
and the machine of shown values have stopped for the same reason or not at all,
have written the same and drawn the same, and stand at the same operation with the
same flag pinned and the same things alive; and each shown value is the stored
number plus the offset.

On the machine of shown values, a cell that is neither the target of an addition
nor the cell of its operand gains the number added; the target keeps its value, and
so does a variable that is the operand; a variable added to itself becomes 0. -/
theorem offset_is_invisible {σ : Type} [NumberSource σ]
    (m : Machine) (limit : Nat) (input : σ) :
    ((Display.run m limit input).2 = (m.run limit input).2 ∧
      (Display.run m limit input).1.output = (m.run limit input).1.output ∧
      (Display.run m limit input).1.input = (m.run limit input).1.input ∧
      let s := (m.run limit input).1.state
      let d := (Display.run m limit input).1.display
      d.pc = s.pc ∧ d.pinned = s.pinned ∧ d.flags = s.flags ∧
      (∀ v : Nat, d.vars[v]? = s.vars[v]?.map fun c => ⟨c.stored + s.offset, c.live⟩) ∧
      (∀ a : Nat, d.arrays[a]? =
        s.arrays[a]?.map fun b => ⟨b.cells.map (· + s.offset), b.live⟩)) ∧
    ∀ (d d' : Display) (names : Names) (l : OpLine) (direction : Int32 → Int32) (v : Operand)
      (target : Place),
      d.move names l direction v target = (d', none) →
      ∃ n q, d.value names l v = .ok n ∧ d.address names l target = .ok q ∧
        (∀ x, d.Has x → x ≠ q →
          (∀ p, v = .stored p → (d.raiseBut (direction n) q).address names l p ≠ .ok x) →
          d'.load x = d.load x + direction n) ∧
        ((∀ p, v = .stored p → (d.raiseBut (direction n) q).address names l p ≠ .ok q) →
          d'.load q = d.load q) ∧
        (∀ w, v = .stored (.var w) → .var w ≠ q → d'.load (.var w) = d.load (.var w)) ∧
        (∀ w, v = .stored (.var w) → .var w = q → direction = id → d'.load (.var w) = 0) := by
  constructor
  · rw [m.run_display]
    refine ⟨rfl, rfl, rfl, rfl, rfl, rfl, ?_, ?_⟩
    · intro v
      simp [Run.display, State.display]
    · intro a
      simp [Run.display, State.display]
  · intro d d' names l direction v target h
    obtain ⟨n, q, r, hn, hq, hr, hload⟩ := Display.load_move h
    have hnot : ∀ x, (∀ p, v = .stored p →
        (d.raiseBut (direction n) q).address names l p ≠ .ok x) → some x ≠ r := by
      intro x hsource he
      obtain ⟨p, hp, haddr⟩ := (hr x).mp he.symm
      exact hsource p hp haddr
    refine ⟨n, q, hn, hq, ?_, ?_, ?_, ?_⟩
    · intro x hx hne hsource
      rw [hload x hx, if_neg hne, if_neg (hnot x hsource)]
      grind
    · intro hsource
      rw [hload q (Display.has_of_address hq), if_pos rfl, if_neg (hnot q hsource)]
      grind
    · intro w hv hne
      subst hv
      obtain ⟨hhas, -, haddr⟩ := Display.value_var hn
      have hsome : some (Address.var w) = r := ((hr _).mpr ⟨_, rfl, haddr _ _⟩).symm
      rw [hload _ hhas, if_neg hne, if_pos hsome]
      grind
    · intro w hv he hid
      subst hv hid
      obtain ⟨hhas, hval, haddr⟩ := Display.value_var hn
      have hsome : some (Address.var w) = r := ((hr _).mpr ⟨_, rfl, haddr _ _⟩).symm
      rw [hload _ hhas, if_pos he, if_pos hsome, hval]
      simp only [id_eq]
      grind

end Steps

end Contrary
