import Contrary.Proofs.Display.Simulation

/-!
# Dead storage is irrelevant

A program can use only what is alive.  So it cannot tell two states apart that show the
same values of everything alive, whatever numbers are left in dead variables and arrays,
and whatever the offsets are.

**Views.**  `Cell.view` and `Bank.view` are what a program can tell of a variable and of an
array.  Two displays are alike if they give the same views (`Display.Alike`).

**Reads.**  Everything that is read has been checked to be alive, so the checks and the
reads behind them have the same results on displays that are alike.  The one read without
a check of its own is the operand that is found again after an addition; it was checked
before, and an addition kills nothing (`requirePlace_raiseBut`).

**Changes.**  A change of a table goes entry by entry, and it keeps displays alike if the
view of a new entry depends on the view of the old one only (`map_modify_congr`).

**Results.**
* `exec_alike`, `step_alike`: one operation.
* `runFor_alike`: a whole run.
* `dead_storage_is_irrelevant`: a run of the machine, with its offset.
-/

namespace Contrary

/-- What a program can tell of a variable: its value, if it is alive. -/
def Cell.view (c : Cell) : Option Int32 :=
  if c.live then some c.stored else none

/-- What a program can tell of an array: its size, and its values if it is alive. -/
def Bank.view (b : Bank) : Nat × Option (Array Int32) :=
  (b.cells.size, if b.live then some b.cells else none)

/-- Displays that agree on everything but the values of what is dead. -/
structure Display.Alike (d d' : Display) : Prop where
  vars : d.vars.map Cell.view = d'.vars.map Cell.view
  arrays : d.arrays.map Bank.view = d'.arrays.map Bank.view
  flags : d.flags = d'.flags
  pinned : d.pinned = d'.pinned
  pc : d.pc = d'.pc

section Views

theorem Cell.view_eq_iff
    {c c' : Cell} :
    c.view = c'.view ↔ c.live = c'.live ∧ (c.live = true → c.stored = c'.stored) := by
  unfold Cell.view
  cases c.live <;> cases c'.live <;> simp

theorem Bank.view_eq_iff
    {b b' : Bank} :
    b.view = b'.view ↔
      b.live = b'.live ∧ b.cells.size = b'.cells.size ∧
        (b.live = true → b.cells = b'.cells) := by
  unfold Bank.view
  cases b.live <;> cases b'.live <;> simp

end Views

section Tables

variable {α β : Type} {xs ys : Array α} {view : α → β}

/-- A change of all entries that respects the views. -/
theorem map_map_congr
    (f : α → α)
    (hf : ∀ x y, view x = view y → view (f x) = view (f y))
    (h : xs.map view = ys.map view) :
    (xs.map f).map view = (ys.map f).map view := by
  apply Array.ext_getElem?
  intro i
  simp only [Array.getElem?_map]
  rcases getElem?_of_map_eq h i with ⟨hx, hy⟩ | ⟨x, y, hx, hy, hview⟩
  · simp [hx, hy]
  · simp [hx, hy, hf x y hview]

/-- A change of one entry that respects the views. -/
theorem map_modify_congr
    (f : α → α)
    (hf : ∀ x y, view x = view y → view (f x) = view (f y))
    (h : xs.map view = ys.map view) (k : Nat) :
    (xs.modify k f).map view = (ys.modify k f).map view := by
  apply Array.ext_getElem?
  intro i
  simp only [Array.getElem?_map, Array.getElem?_modify]
  rcases getElem?_of_map_eq h i with ⟨hx, hy⟩ | ⟨x, y, hx, hy, hview⟩
  · simp [hx, hy]
  · split_ifs
    · simp [hx, hy, hf x y hview]
    · simp [hx, hy, hview]

end Tables

namespace Display

variable {d d' : Display}

section Reads

theorem Alike.size_vars
    (h : d.Alike d') :
    d.vars.size = d'.vars.size := by
  simpa using congrArg Array.size h.vars

theorem Alike.size_arrays
    (h : d.Alike d') :
    d.arrays.size = d'.arrays.size := by
  simpa using congrArg Array.size h.arrays

theorem requireVar_alike
    (h : d.Alike d') (v : Nat) :
    d.requireVar v = d'.requireVar v := by
  rcases getElem?_of_map_eq h.vars v with ⟨hc, hc'⟩ | ⟨c, c', hc, hc', hview⟩
  · simp only [requireVar, hc, hc']
  · simp only [requireVar, hc, hc', (Cell.view_eq_iff.mp hview).1]

theorem requireIndex_alike
    (h : d.Alike d') (i : Index) :
    d.requireIndex i = d'.requireIndex i := by
  cases i with
  | literal n => rfl
  | var v => exact requireVar_alike h v

theorem requirePlace_alike
    (h : d.Alike d') (p : Place) :
    d.requirePlace p = d'.requirePlace p := by
  cases p with
  | var v => exact requireVar_alike h v
  | element a i =>
      simp only [requirePlace, requireIndex_alike h i]
      rcases getElem?_of_map_eq h.arrays a with ⟨hb, hb'⟩ | ⟨b, b', hb, hb', hview⟩
      · simp only [hb, hb']
      · simp only [hb, hb', (Bank.view_eq_iff.mp hview).1]

theorem live_of_requireVar
    {v : Nat} {c : Cell}
    (hlive : d.requireVar v = .ok ())
    (hc : d.vars[v]? = some c) :
    c.live = true := by
  simp only [requireVar, hc] at hlive
  split_ifs at hlive with hc
  exact hc

theorem requirePlace_element
    {a : Nat} {i : Index}
    (hlive : d.requirePlace (.element a i) = .ok ()) :
    d.requireIndex i = .ok () ∧ ∃ b, d.arrays[a]? = some b ∧ b.live = true := by
  simp only [requirePlace] at hlive
  obtain ⟨u, hindex, hlive⟩ := bind_eq_ok_iff.mp hlive
  cases hb : d.arrays[a]? with
  | none => simp [hb] at hlive
  | some b =>
      simp only [hb] at hlive
      split_ifs at hlive with hb
      exact ⟨hindex, b, rfl, hb⟩

theorem indexValue_alike
    (h : d.Alike d')
    {i : Index}
    (hlive : d.requireIndex i = .ok ()) :
    d.indexValue i = d'.indexValue i := by
  cases i with
  | literal n => rfl
  | var v =>
      rcases getElem?_of_map_eq h.vars v with ⟨hc, hc'⟩ | ⟨c, c', hc, hc', hview⟩
      · simp only [indexValue, hc, hc']
      · have hvalue := (Cell.view_eq_iff.mp hview).2 (live_of_requireVar hlive hc)
        simp only [indexValue, hc, hc', hvalue]

/-- A place that is alive has the same cell on both displays. -/
theorem address_alike
    (h : d.Alike d') (names : Names) (l : OpLine)
    {p : Place}
    (hlive : d.requirePlace p = .ok ()) :
    d.address names l p = d'.address names l p := by
  cases p with
  | var v => simp only [address, h.size_vars]
  | element a i =>
      obtain ⟨hindex, -⟩ := requirePlace_element hlive
      simp only [address, indexValue_alike h hindex]
      rcases getElem?_of_map_eq h.arrays a with ⟨hb, hb'⟩ | ⟨b, b', hb, hb', hview⟩
      · simp only [hb, hb']
      · simp only [hb, hb', (Bank.view_eq_iff.mp hview).2.1]

/-- The cell of a place that is alive holds the same on both displays. -/
theorem load_alike
    (h : d.Alike d')
    {names : Names} {l : OpLine} {p : Place} {q : Address}
    (hlive : d.requirePlace p = .ok ())
    (hq : d.address names l p = .ok q) :
    d.load q = d'.load q := by
  cases p with
  | var v =>
      simp only [address] at hq
      split_ifs at hq with hv
      cases hq
      rcases getElem?_of_map_eq h.vars v with ⟨hc, -⟩ | ⟨c, c', hc, hc', hview⟩
      · exact absurd (Array.getElem?_eq_none_iff.mp hc) (Nat.not_le.mpr hv)
      · have hvalue := (Cell.view_eq_iff.mp hview).2 (live_of_requireVar hlive hc)
        simp only [load, Array.getD_eq_getD_getElem?, hc, hc', Option.getD_some, hvalue]
  | element a i =>
      obtain ⟨-, b, hb, hbank⟩ := requirePlace_element hlive
      simp only [address] at hq
      obtain ⟨n, -, hq⟩ := bind_eq_ok_iff.mp hq
      simp only [hb] at hq
      split_ifs at hq
      cases hq
      rcases getElem?_of_map_eq h.arrays a with ⟨hnone, -⟩ | ⟨x, b', hx, hb', hview⟩
      · rw [hb] at hnone
        cases hnone
      · rw [hb] at hx
        cases hx
        have hcells := (Bank.view_eq_iff.mp hview).2.2 hbank
        simp only [load, Array.getD_eq_getD_getElem?, hb, hb', Option.getD_some, hcells]

theorem value_alike
    (h : d.Alike d') (names : Names) (l : OpLine) (v : Operand) :
    d.value names l v = d'.value names l v := by
  cases v with
  | literal n => rfl
  | stored p =>
      simp only [value, ← requirePlace_alike h p]
      cases hlive : d.requirePlace p with
      | error e => rfl
      | ok u =>
          simp only [← address_alike h names l hlive]
          cases hq : d.address names l p with
          | error e => rfl
          | ok q => simp only [bind, Except.bind, load_alike h hlive hq]

end Reads

section Changes

theorem modify_alike
    (h : d.Alike d') (f : Int32 → Int32) (q : Address) :
    (d.modify f q).Alike (d'.modify f q) := by
  cases q with
  | var v =>
      refine ⟨map_modify_congr (fun c => Cell.mk (f c.stored) c.live) ?_ h.vars v, h.arrays,
        h.flags, h.pinned, h.pc⟩
      intro c c' hview
      rw [Cell.view_eq_iff] at hview ⊢
      exact ⟨hview.1, fun hlive => congrArg f (hview.2 hlive)⟩
  | cell a i =>
      refine ⟨h.vars, map_modify_congr (fun b => Bank.mk (b.cells.modify i f) b.live) ?_ h.arrays a,
        h.flags, h.pinned, h.pc⟩
      intro b b' hview
      rw [Bank.view_eq_iff] at hview ⊢
      obtain ⟨hlive, hsize, hcells⟩ := hview
      exact ⟨hlive, by simpa using hsize, fun hb => congrArg (·.modify i f) (hcells hb)⟩

theorem raise_alike
    (h : d.Alike d') (t : Int32) :
    (d.raise t).Alike (d'.raise t) := by
  refine ⟨map_map_congr _ ?_ h.vars, map_map_congr _ ?_ h.arrays, h.flags, h.pinned, h.pc⟩
  · intro c c' hview
    rw [Cell.view_eq_iff] at hview ⊢
    exact ⟨hview.1, fun hlive => congrArg (· + t) (hview.2 hlive)⟩
  · intro b b' hview
    rw [Bank.view_eq_iff] at hview ⊢
    obtain ⟨hlive, hsize, hcells⟩ := hview
    exact ⟨hlive, by simpa using hsize, fun hb => congrArg (Array.map (· + t)) (hcells hb)⟩

theorem raiseBut_alike
    (h : d.Alike d') (t : Int32) (q : Address) :
    (d.raiseBut t q).Alike (d'.raiseBut t q) :=
  modify_alike (raise_alike h t) _ q

theorem requireVar_raiseBut
    (d : Display) (t : Int32) (q : Address) (v : Nat) :
    (d.raiseBut t q).requireVar v = d.requireVar v := by
  cases q with
  | cell a i =>
      simp only [requireVar, raiseBut, modify, raise, Array.getElem?_map]
      cases d.vars[v]? <;> rfl
  | var w =>
      simp only [requireVar, raiseBut, modify, raise, Array.getElem?_modify, Array.getElem?_map]
      cases d.vars[v]? <;> split_ifs <;> rfl

/-- An addition kills nothing. -/
theorem requirePlace_raiseBut
    (d : Display) (t : Int32) (q : Address) (p : Place) :
    (d.raiseBut t q).requirePlace p = d.requirePlace p := by
  cases p with
  | var v => exact d.requireVar_raiseBut t q v
  | element a i =>
      have hindex : (d.raiseBut t q).requireIndex i = d.requireIndex i := by
        cases i with
        | literal n => rfl
        | var v => exact d.requireVar_raiseBut t q v
      simp only [requirePlace, hindex]
      cases q with
      | var w =>
          simp only [raiseBut, modify, raise, Array.getElem?_map]
          cases d.arrays[a]? <;> rfl
      | cell a' i' =>
          simp only [raiseBut, modify, raise, Array.getElem?_modify, Array.getElem?_map]
          cases d.arrays[a]? <;> split_ifs <;> rfl

/-- Both displays change to displays that are alike, or both stop for the same reason. -/
inductive AlikeOutcomes : Except Halt Display → Except Halt Display → Prop
  | ok {d d' : Display} : d.Alike d' → AlikeOutcomes (.ok d) (.ok d')
  | error {e : Halt} : AlikeOutcomes (.error e) (.error e)

/-- A change that has to find its entry in a table. -/
theorem alikeOutcomes_ite
    {n n' k : Nat} {x x' : Display} (e : Halt)
    (hn : n = n')
    (hx : x.Alike x') :
    AlikeOutcomes (if k < n then .ok x else .error e) (if k < n' then .ok x' else .error e) := by
  subst hn
  split_ifs
  · exact .ok hx
  · exact .error

theorem define_alike
    (h : d.Alike d') (v : Nat) :
    AlikeOutcomes (d.define v) (d'.define v) := by
  refine alikeOutcomes_ite _ h.size_vars ⟨?_, h.arrays, h.flags, h.pinned, h.pc⟩
  rw [Array.map_setIfInBounds, Array.map_setIfInBounds, h.vars]

theorem undefine_alike
    (h : d.Alike d') (v : Nat) :
    AlikeOutcomes (d.undefine v) (d'.undefine v) := by
  refine alikeOutcomes_ite _ h.size_vars
    ⟨map_modify_congr (fun c => ⟨c.stored, false⟩) ?_ h.vars v, h.arrays, h.flags, h.pinned, h.pc⟩
  intro c c' hview
  rfl

/-- A new definition leaves nothing of what was in an array. -/
theorem defineArray_alike
    (h : d.Alike d') (a : Nat) :
    AlikeOutcomes (d.defineArray a) (d'.defineArray a) := by
  refine alikeOutcomes_ite _ h.size_arrays
    ⟨h.vars, map_modify_congr (fun b => ⟨b.cells.map fun _ => 0, true⟩) ?_ h.arrays a, h.flags,
      h.pinned, h.pc⟩
  intro b b' hview
  obtain ⟨-, hsize, -⟩ := Bank.view_eq_iff.mp hview
  rw [Bank.view_eq_iff]
  refine ⟨rfl, by simpa using hsize, fun _ => ?_⟩
  rw [Array.map_const', Array.map_const', hsize]

theorem undefineArray_alike
    (h : d.Alike d') (a : Nat) :
    AlikeOutcomes (d.undefineArray a) (d'.undefineArray a) := by
  refine alikeOutcomes_ite _ h.size_arrays
    ⟨h.vars, map_modify_congr (fun b => ⟨b.cells, false⟩) ?_ h.arrays a, h.flags, h.pinned, h.pc⟩
  intro b b' hview
  obtain ⟨-, hsize, -⟩ := Bank.view_eq_iff.mp hview
  exact Bank.view_eq_iff.mpr ⟨rfl, hsize, fun hlive => absurd hlive Bool.false_ne_true⟩

theorem unmark_alike
    (h : d.Alike d') (f : Nat) :
    AlikeOutcomes (d.unmark f) (d'.unmark f) := by
  refine alikeOutcomes_ite _ (congrArg Array.size h.flags)
    ⟨h.vars, h.arrays, ?_, h.pinned, h.pc⟩
  rw [h.flags]

theorem pin_alike
    (h : d.Alike d') (f : Nat) :
    AlikeOutcomes (d.pin f) (d'.pin f) := by
  simp only [pin, h.flags]
  cases d'.flags[f]? with
  | none => exact .error
  | some alive =>
      cases alive with
      | false => exact .error
      | true => exact .ok ⟨h.vars, h.arrays, rfl, rfl, h.pc⟩

theorem jump_alike
    (h : d.Alike d') (marks : Array Nat) :
    AlikeOutcomes (d.jump marks) (d'.jump marks) := by
  simp only [jump, h.pinned]
  cases d'.pinned with
  | none => exact .error
  | some f =>
      cases hmark : marks[f]? with
      | none =>
          simp only [hmark]
          exact .error
      | some i =>
          simp only [hmark]
          exact .ok ⟨h.vars, h.arrays, h.flags, rfl, rfl⟩

theorem receive_alike
    (h : d.Alike d') (names : Names) (l : OpLine)
    {target : Place}
    (hlive : d.requirePlace target = .ok ()) (n : Int32) :
    AlikeOutcomes (d.receive names l target n) (d'.receive names l target n) := by
  simp only [receive, ← address_alike h names l hlive]
  cases d.address names l target with
  | error e => exact .error
  | ok q => exact .ok (modify_alike h _ q)

theorem branch_alike
    (h : d.Alike d') (m : Machine) (l : OpLine) (i : Nat) :
    AlikeOutcomes (d.branch m l i) (d'.branch m l i) := by
  unfold branch
  cases m.condition? i with
  | none => exact .error
  | some r =>
      obtain ⟨j, a, b, c⟩ := r
      simp only [value_alike h]
      cases d'.value m.program.names l a with
      | error e => exact .error
      | ok x =>
          cases d'.value m.program.names l b with
          | error e => exact .error
          | ok y =>
              simp only [bind, Except.bind, pure, Except.pure]
              cases c.holds x y with
              | true => exact .ok h
              | false => exact .ok ⟨h.vars, h.arrays, h.flags, h.pinned, rfl⟩

/-- Additions and subtractions keep displays alike, also where they stop half way. -/
theorem move_alike
    (h : d.Alike d') (names : Names) (l : OpLine) (direction : Int32 → Int32) (v : Operand)
    (target : Place) :
    (d.move names l direction v target).1.Alike (d'.move names l direction v target).1 ∧
      (d.move names l direction v target).2 = (d'.move names l direction v target).2 := by
  simp only [move, ← value_alike h, ← requirePlace_alike h]
  cases hn : d.value names l v with
  | error e => exact ⟨h, rfl⟩
  | ok n =>
      cases hlive : d.requirePlace target with
      | error e => exact ⟨h, rfl⟩
      | ok u =>
          simp only [← address_alike h names l hlive]
          cases d.address names l target with
          | error e => exact ⟨h, rfl⟩
          | ok q =>
              simp only [bind, Except.bind, pure, Except.pure]
              have hraised := raiseBut_alike h (direction n) q
              cases v with
              | literal k => exact ⟨hraised, rfl⟩
              | stored p =>
                  -- the operand has been read, so its place is alive
                  obtain ⟨u', hplace, -⟩ := bind_eq_ok_iff.mp hn
                  have hagain : (d.raiseBut (direction n) q).requirePlace p = .ok () := by
                    rw [requirePlace_raiseBut]
                    exact hplace
                  simp only [← address_alike hraised names l hagain]
                  cases (d.raiseBut (direction n) q).address names l p with
                  | error e => exact ⟨hraised, rfl⟩
                  | ok r => exact ⟨modify_alike hraised (· - direction n) r, rfl⟩

end Changes

section Steps

variable {σ : Type}

/-- Outcomes of an operation that differ in dead storage only. -/
structure Step.Alike (t t' : Step σ) : Prop where
  display : t.display.Alike t'.display
  input : t.input = t'.input
  output : t.output = t'.output
  halt : t.halt = t'.halt

theorem stop_alike
    (h : d.Alike d') (input : σ) (e : Halt) :
    (Step.stop d input e).Alike (Step.stop d' input e) :=
  ⟨h, rfl, rfl, rfl⟩

theorem ofDisplay_alike
    (h : d.Alike d') (input : σ)
    {x x' : Except Halt Display}
    (hx : AlikeOutcomes x x') :
    (Step.ofDisplay d input x).Alike (Step.ofDisplay d' input x') := by
  cases hx with
  | ok hd => exact ⟨hd, rfl, rfl, rfl⟩
  | error => exact stop_alike h input _

theorem writing_alike
    (h : d.Alike d') (input : σ) (render : Int32 → Bytes) (x : Except Halt Int32) :
    (Step.writing d input render x).Alike (Step.writing d' input render x) := by
  cases x with
  | ok n => exact ⟨h, rfl, rfl, rfl⟩
  | error e => exact stop_alike h input e

variable [NumberSource σ]

/-- Every operation keeps displays alike and does the same outside of them. -/
theorem exec_alike
    (h : d.Alike d') (m : Machine) (l : OpLine) (i : Nat) (input : σ) :
    (exec m l i d input).Alike (exec m l i d' input) := by
  unfold exec
  cases l.op with
  | define v => exact ofDisplay_alike h input (define_alike h v)
  | defineArray a => exact ofDisplay_alike h input (defineArray_alike h a)
  | undefine v => exact ofDisplay_alike h input (undefine_alike h v)
  | undefineArray a => exact ofDisplay_alike h input (undefineArray_alike h a)
  | read target =>
      simp only [← requirePlace_alike h]
      cases hlive : d.requirePlace target with
      | error e => exact stop_alike h input e
      | ok u =>
          obtain ⟨x, rest⟩ := NumberSource.draw input
          cases x with
          | error e => exact stop_alike h rest _
          | ok n => exact ofDisplay_alike h rest (receive_alike h m.program.names l hlive n)
  | print v =>
      simp only [value_alike h]
      exact writing_alike h input _ _
  | printChar v =>
      simp only [value_alike h]
      exact writing_alike h input _ _
  | add v target =>
      obtain ⟨hdisplay, hhalt⟩ := move_alike h m.program.names l id v target
      exact ⟨hdisplay, rfl, congrArg (fun e => (e.map Halt.output).getD []) hhalt, hhalt⟩
  | subtract v target =>
      obtain ⟨hdisplay, hhalt⟩ := move_alike h m.program.names l (- ·) v target
      exact ⟨hdisplay, rfl, congrArg (fun e => (e.map Halt.output).getD []) hhalt, hhalt⟩
  | openBlock => exact ofDisplay_alike h input (branch_alike h m l i)
  | closeBlock a b c => exact ⟨h, rfl, rfl, rfl⟩
  | mark f => exact ⟨h, rfl, rfl, rfl⟩
  | unmark f => exact ofDisplay_alike h input (unmark_alike h f)
  | pin f => exact ofDisplay_alike h input (pin_alike h f)
  | goto => exact ofDisplay_alike h input (jump_alike h m.marks)

theorem step_alike
    (h : d.Alike d') (m : Machine) (input : σ) :
    (step m d input).Alike (step m d' input) := by
  unfold step
  rw [h.pc]
  cases m.program.ops[d'.pc]? with
  | none => exact ⟨h, rfl, rfl, rfl⟩
  | some l =>
      have hnext : Alike { d with pc := d'.pc + 1 } { d' with pc := d'.pc + 1 } :=
        ⟨h.vars, h.arrays, h.flags, h.pinned, rfl⟩
      exact exec_alike hnext m l d'.pc input

end Steps

section Runs

variable {σ : Type}

/-- Runs that differ in dead storage only. -/
structure Run.Alike (r r' : Run σ) : Prop where
  display : r.display.Alike r'.display
  input : r.input = r'.input
  output : r.output = r'.output

theorem leaked?_alike
    (h : d.Alike d') (m : Machine) :
    leaked? m d = leaked? m d' := by
  have hvars : d.vars.toList.map Cell.live = d'.vars.toList.map Cell.live := by
    have hviews := congrArg (fun xs => xs.toList.map Option.isSome) h.vars
    have hlive : ∀ c : Cell, c.view.isSome = c.live := by
      intro c
      cases hc : c.live <;> simp [Cell.view, hc]
    simpa [Function.comp_def, hlive] using hviews
  have harrays : d.arrays.toList.map Bank.live = d'.arrays.toList.map Bank.live := by
    have hviews := congrArg (fun xs => xs.toList.map fun v => v.2.isSome) h.arrays
    have hlive : ∀ b : Bank, b.view.2.isSome = b.live := by
      intro b
      cases hb : b.live <;> simp [Bank.view, hb]
    simpa [Function.comp_def, hlive] using hviews
  simp only [leaked?, hvars, harrays, h.flags]

theorem finish_alike
    {r r' : Run σ}
    (h : r.Alike r') (m : Machine) :
    (finish m r).1.Alike (finish m r').1 ∧ (finish m r).2 = (finish m r').2 := by
  unfold finish
  rw [leaked?_alike h.display]
  cases leaked? m r'.display with
  | none => exact ⟨h, rfl⟩
  | some name => exact ⟨⟨h.display, h.input, by rw [h.output]⟩, rfl⟩

/-- Every run keeps displays alike and ends in the same way. -/
theorem runFor_alike [NumberSource σ]
    (m : Machine) (limit : Nat) :
    ∀ {r r' : Run σ}, r.Alike r' →
      (runFor m limit r).1.Alike (runFor m limit r').1 ∧
        (runFor m limit r).2 = (runFor m limit r').2 := by
  induction limit with
  | zero =>
      intro r r' h
      simp only [runFor, h.display.pc]
      split_ifs
      · exact finish_alike h m
      · exact ⟨h, rfl⟩
  | succ limit ih =>
      intro r r' h
      simp only [runFor, h.display.pc]
      split_ifs
      · exact finish_alike h m
      · have hstep := step_alike h.display m r.input
        rw [h.input] at hstep
        have hnext : (Run.mk (step m r.display r'.input).display (step m r.display r'.input).input
            (r.output ++ (step m r.display r'.input).output)).Alike
            ⟨(step m r'.display r'.input).display, (step m r'.display r'.input).input,
              r'.output ++ (step m r'.display r'.input).output⟩ :=
          ⟨hstep.display, hstep.input, by rw [h.output, hstep.output]⟩
        simp only [h.input, hstep.halt]
        cases (step m r'.display r'.input).halt with
        | some e => exact ⟨hnext, rfl⟩
        | none => exact ih hnext

end Runs

end Display

/-- **Dead storage is irrelevant.**  Two states stand at the same operation with the same
flag pinned and the same things alive, and show the same values of all variables and array
cells that are alive; what they store in dead variables and arrays, and their offsets, may
differ.  Then any program runs from both alike, on any input and for any number of steps:
it ends in the same way, writes and draws the same, and leaves states that are again
related so. -/
theorem dead_storage_is_irrelevant {σ : Type} [NumberSource σ]
    (m : Machine) {s s' : State}
    (h : s.display.Alike s'.display)
    (limit : Nat) (input : σ) (output : Array UInt8) :
    (m.runFor limit ⟨s, input, output⟩).2 = (m.runFor limit ⟨s', input, output⟩).2 ∧
      (m.runFor limit ⟨s, input, output⟩).1.output =
        (m.runFor limit ⟨s', input, output⟩).1.output ∧
      (m.runFor limit ⟨s, input, output⟩).1.input =
        (m.runFor limit ⟨s', input, output⟩).1.input ∧
      (m.runFor limit ⟨s, input, output⟩).1.state.display.Alike
        (m.runFor limit ⟨s', input, output⟩).1.state.display := by
  have hstart : (Run.mk s input output).display.Alike (Run.mk s' input output).display :=
    ⟨h, rfl, rfl⟩
  obtain ⟨hrun, hends⟩ := Display.runFor_alike m limit hstart
  rw [← Machine.runFor_display, ← Machine.runFor_display] at hrun hends
  exact ⟨hends, hrun.output, hrun.input, hrun.display⟩

/-- Defines its array anew, adds `x` everywhere but to `x` and to `a[1]`, shows `a[0]`, and
then tries to show `y`. -/
def reuse : Machine where
  program :=
    { names := ⟨#[ascii "x", ascii "y"], #[⟨ascii "a", 2⟩], #[]⟩
      ops :=
        #[ ⟨.defineArray 0, 1, ascii "undefine single a[2]"⟩,
          ⟨.add (.stored (.var 0)) (.element 0 (.literal 1)), 2, ascii "sub x from a[1]"⟩,
          ⟨.print (.stored (.element 0 (.literal 0))), 3, ascii "read to a[0]"⟩,
          ⟨.print (.stored (.var 1)), 4, ascii "read to y"⟩ ]
      lineCount := 4 }
  closing := #[none, none, none, none]
  marks := #[]

/-- Only `x` is alive, with value 5. -/
def cleanStart : State where
  offset := 0
  vars := #[⟨5, true⟩, ⟨0, false⟩]
  arrays := #[⟨#[0, 0], false⟩]
  flags := #[]
  pinned := none
  pc := 0

/-- Shows the same as `cleanStart`, over other leftovers and another offset. -/
def dirtyStart : State :=
  { cleanStart with
    offset := -100
    vars := #[⟨105, true⟩, ⟨42, false⟩]
    arrays := #[⟨#[7, -7], false⟩] }

/-- The array is shown as new, and `y` is as dead, whatever was left in them. -/
theorem reuse_from_dirtyStart :
    cleanStart.display.Alike dirtyStart.display ∧
    (reuse.runFor 9 ⟨dirtyStart, Scanner.mk [], #[]⟩).1.output =
      (ascii "5\n" ++ Abort.undefinedUse.message).toArray ∧
    (reuse.runFor 9 ⟨dirtyStart, Scanner.mk [], #[]⟩).2 = .halted (.abort .undefinedUse) ∧
    (reuse.runFor 9 ⟨cleanStart, Scanner.mk [], #[]⟩).1.state.display.Alike
      (reuse.runFor 9 ⟨dirtyStart, Scanner.mk [], #[]⟩).1.state.display := by
  have halike : cleanStart.display.Alike dirtyStart.display :=
    ⟨by decide +kernel, by decide +kernel, rfl, rfl, rfl⟩
  obtain ⟨hends, houtput, -, hstates⟩ :=
    dead_storage_is_irrelevant reuse halike 9 (Scanner.mk []) #[]
  refine ⟨halike, ?_, ?_, hstates⟩
  · rw [← houtput]
    decide +kernel
  · rw [← hends]
    decide +kernel

end Contrary
