import Contrary.Machine.Run

/-!
# Cutting runs

A run with a limit can be stopped and taken up again, and a limit that is not reached makes
no difference.

**Going on.**  `Machine.next?` is the run after one more operation, if there is one and it
does not stop the program; `Machine.after?` is the run after a number of them.  A run with a
limit goes through the same runs: as long as it can go on it uses up its limit
(`runFor_of_next?`), and where it cannot go on it ends, with every limit in the same way
(`runFor_of_stuck`).

**No limit.**  `Machine.Ends` is the loop without a limit.  It relates a run to its end, and
relates a run that goes on forever to nothing.

**Results.**
* `runFor_eq_stepLimit_iff`: when the limit ends a run.
* `ends_iff`: a run without a limit ends as it does with some limit.
* `runs_can_be_cut`: both, and that a run goes on after its limit as if it had none.
-/

namespace Contrary
namespace Machine

/-- The end of a program is no limit. -/
theorem finish_ne_stepLimit
    {σ : Type} (m : Machine) (r : Run σ) :
    (m.finish r).2 ≠ .stepLimit := by
  unfold finish
  cases m.finalHalt? r.state with
  | none => exact Ending.noConfusion
  | some h => exact Ending.noConfusion

variable {σ : Type} [NumberSource σ]

/-- The run after the next operation, if there is one and it does not stop the program. -/
def next? (m : Machine) (r : Run σ) : Option (Run σ) :=
  if m.atEnd r.state then none
  else
    match m.advance r with
    | (r', none) => some r'
    | (_, some _) => none

/-- The run after a number of operations, if there are so many and none of them stops the
program. -/
def after? (m : Machine) : Nat → Run σ → Option (Run σ)
  | 0, r => some r
  | n + 1, r => (m.next? r).bind (after? m n)

/-- How a run without a limit ends. -/
inductive Ends (m : Machine) : Run σ → Run σ × Ending → Prop
  | finish {r : Run σ} :
      m.atEnd r.state = true →
      Ends m r (m.finish r)
  | halt {r r' : Run σ} {h : Halt} :
      m.atEnd r.state = false →
      m.advance r = (r', some h) →
      Ends m r (r', .halted h)
  | next {r r' : Run σ} {out : Run σ × Ending} :
      m.next? r = some r' →
      Ends m r' out →
      Ends m r out

section Turns

variable {m : Machine} {r r' : Run σ}

theorem next?_eq_some_iff :
    m.next? r = some r' ↔ m.atEnd r.state = false ∧ m.advance r = (r', none) := by
  unfold next?
  cases m.atEnd r.state with
  | true => simp
  | false =>
      obtain ⟨r₁, halt⟩ := m.advance r
      cases halt <;> simp

/-- A run that cannot go on is at the end of the program, or is stopped by its next
operation. -/
theorem next?_eq_none_iff :
    m.next? r = none ↔
      m.atEnd r.state = true ∨
        m.atEnd r.state = false ∧ ∃ r' h, m.advance r = (r', some h) := by
  unfold next?
  cases m.atEnd r.state with
  | true => simp
  | false =>
      obtain ⟨r₁, halt⟩ := m.advance r
      cases halt <;> simp

theorem runFor_of_atEnd
    (h : m.atEnd r.state = true) (limit : Nat) :
    m.runFor limit r = m.finish r := by
  cases limit <;> rw [runFor, if_pos h]

theorem runFor_of_halt
    {h : Halt}
    (hend : m.atEnd r.state = false)
    (hadvance : m.advance r = (r', some h)) (limit : Nat) :
    m.runFor (limit + 1) r = (r', .halted h) := by
  rw [runFor, hend, hadvance]
  rfl

/-- A run that goes on uses up its limit. -/
theorem runFor_of_next?
    (h : m.next? r = some r') (limit : Nat) :
    m.runFor (limit + 1) r = m.runFor limit r' := by
  obtain ⟨hend, hadvance⟩ := next?_eq_some_iff.mp h
  rw [runFor, hend, hadvance]
  rfl

/-- A run that cannot go on ends, and in the same way with every limit. -/
theorem runFor_of_stuck
    (h : m.next? r = none) :
    ∃ out : Run σ × Ending, out.2 ≠ .stepLimit ∧ m.Ends r out ∧
      ∀ limit, m.runFor (limit + 1) r = out := by
  rcases next?_eq_none_iff.mp h with hend | ⟨hend, r', halt, hadvance⟩
  · exact ⟨m.finish r, m.finish_ne_stepLimit r, .finish hend, fun _ => runFor_of_atEnd hend _⟩
  · exact ⟨(r', .halted halt), Ending.noConfusion, .halt hend hadvance, runFor_of_halt hend hadvance⟩

end Turns

section Runs

variable {m : Machine} {r r' : Run σ}

/-- Operations that a run has made count as part of its limit. -/
theorem runFor_of_after?
    (k : Nat) {j : Nat} :
    ∀ {r : Run σ}, m.after? j r = some r' → m.runFor (j + k) r = m.runFor k r' := by
  induction j with
  | zero =>
      intro r h
      cases h
      rw [Nat.zero_add]
  | succ j ih =>
      intro r h
      obtain ⟨r₁, hnext, hafter⟩ := Option.bind_eq_some_iff.mp h
      rw [Nat.succ_add, runFor_of_next? hnext, ih hafter]

/-- The limit ends a run exactly if so many operations have run without stopping the program
and there are more of them. -/
theorem runFor_eq_stepLimit_iff
    {j : Nat} :
    ∀ {r : Run σ}, m.runFor j r = (r', .stepLimit) ↔
      m.after? j r = some r' ∧ m.atEnd r'.state = false := by
  induction j with
  | zero =>
      intro r
      rw [runFor, after?, Option.some.injEq]
      cases hend : m.atEnd r.state with
      | true =>
          rw [if_pos rfl]
          constructor
          · intro h
            exact absurd (congrArg Prod.snd h) (m.finish_ne_stepLimit r)
          · rintro ⟨rfl, hmore⟩
            rw [hend] at hmore
            cases hmore
      | false =>
          rw [if_neg Bool.false_ne_true]
          constructor
          · intro h
            cases h
            exact ⟨rfl, hend⟩
          · rintro ⟨rfl, -⟩
            rfl
  | succ j ih =>
      intro r
      rw [after?]
      cases hnext : m.next? r with
      | some r₁ =>
          rw [runFor_of_next? hnext]
          exact ih
      | none =>
          obtain ⟨out, hout, -, hruns⟩ := runFor_of_stuck hnext
          rw [hruns j]
          constructor
          · intro h
            exact absurd (congrArg Prod.snd h) hout
          · rintro ⟨hafter, -⟩
            cases hafter

/-- A limit that a run does not reach makes no difference. -/
theorem runFor_of_le
    {j n : Nat}
    (hle : j ≤ n) :
    ∀ {r : Run σ}, (m.runFor j r).2 ≠ .stepLimit → m.runFor n r = m.runFor j r := by
  induction j generalizing n with
  | zero =>
      intro r h
      cases hend : m.atEnd r.state with
      | true => rw [runFor_of_atEnd hend, runFor_of_atEnd hend]
      | false =>
          rw [runFor, hend] at h
          exact absurd rfl h
  | succ j ih =>
      intro r h
      obtain ⟨n, rfl⟩ : ∃ k, n = k + 1 := ⟨n - 1, by omega⟩
      cases hnext : m.next? r with
      | none =>
          obtain ⟨out, -, -, hruns⟩ := runFor_of_stuck hnext
          rw [hruns, hruns]
      | some r₁ =>
          rw [runFor_of_next? hnext] at h
          rw [runFor_of_next? hnext, runFor_of_next? hnext]
          exact ih (by omega) h

/-- A run without a limit ends as it does with some limit that it does not reach. -/
theorem ends_iff
    {out : Run σ × Ending} :
    m.Ends r out ↔ ∃ n, m.runFor n r = out ∧ out.2 ≠ .stepLimit := by
  constructor
  · intro h
    induction h with
    | @finish r hend => exact ⟨0, runFor_of_atEnd hend 0, m.finish_ne_stepLimit r⟩
    | halt hend hadvance => exact ⟨1, runFor_of_halt hend hadvance 0, Ending.noConfusion⟩
    | next hnext _ ih =>
        obtain ⟨n, hrun, hout⟩ := ih
        exact ⟨n + 1, (runFor_of_next? hnext n).trans hrun, hout⟩
  · rintro ⟨n, rfl, hout⟩
    induction n generalizing r with
    | zero =>
        cases hend : m.atEnd r.state with
        | true =>
            rw [runFor_of_atEnd hend]
            exact .finish hend
        | false =>
            rw [runFor, hend] at hout
            exact absurd rfl hout
    | succ n ih =>
        cases hnext : m.next? r with
        | none =>
            obtain ⟨out, -, hends, hruns⟩ := runFor_of_stuck hnext
            rw [hruns]
            exact hends
        | some r₁ =>
            rw [runFor_of_next? hnext] at hout ⊢
            exact .next hnext (ih hout)

/-- A run that does not reach its limit is the run without a limit. -/
theorem ends_iff_of_ne_stepLimit
    {j : Nat}
    (h : (m.runFor j r).2 ≠ .stepLimit)
    {out : Run σ × Ending} :
    m.Ends r out ↔ out = m.runFor j r := by
  constructor
  · intro hends
    obtain ⟨n, rfl, hout⟩ := ends_iff.mp hends
    rcases Nat.le_total j n with hle | hle
    · exact runFor_of_le hle h
    · exact (runFor_of_le hle hout).symm
  · rintro rfl
    exact ends_iff.mpr ⟨j, rfl, h⟩

end Runs

/-- **Runs can be cut anywhere.**  A run that its limit has ended goes on as if it had been
given both limits at once.  A run that ends otherwise ends in the same way with every larger
limit, and without a limit that is the one way in which it ends.  The limit ends a run exactly
if so many operations have run without stopping the program and there are more of them. -/
theorem runs_can_be_cut
    (m : Machine) (r : Run σ) (j k : Nat) :
    ((m.runFor j r).2 = .stepLimit →
      m.runFor k (m.runFor j r).1 = m.runFor (j + k) r) ∧
    ((m.runFor j r).2 ≠ .stepLimit →
      (∀ n, j ≤ n → m.runFor n r = m.runFor j r) ∧
      ∀ out, m.Ends r out ↔ out = m.runFor j r) ∧
    ∀ r', m.runFor j r = (r', .stepLimit) ↔
      m.after? j r = some r' ∧ m.atEnd r'.state = false := by
  refine ⟨?_, ?_, fun r' => runFor_eq_stepLimit_iff⟩
  · intro h
    obtain ⟨hafter, -⟩ := runFor_eq_stepLimit_iff.mp (Prod.ext rfl h)
    exact (runFor_of_after? k hafter).symm
  · intro h
    exact ⟨fun n hle => runFor_of_le hle h, fun out => ends_iff_of_ne_stepLimit h⟩

/-- Defines a variable, shows it and undefines it. -/
def showZero : Machine where
  program :=
    { names := ⟨#[ascii "x"], #[], #[]⟩
      ops :=
        #[ ⟨.define 0, 1, ascii "undefine x"⟩,
          ⟨.print (.stored (.var 0)), 2, ascii "read to x"⟩,
          ⟨.undefine 0, 3, ascii "define x"⟩ ]
      lineCount := 3 }
  closing := #[none, none, none]
  marks := #[]

/-- It is cut before its last operation.  With a limit of three operations it finishes, and
so it does with a thousand and without a limit. -/
theorem showZero_cut :
    (showZero.run 2 (Scanner.mk [])).2 = .stepLimit ∧
    showZero.runFor 1 (showZero.run 2 (Scanner.mk [])).1 = showZero.run 3 (Scanner.mk []) ∧
    (showZero.run 3 (Scanner.mk [])).2 = .finished ∧
    (showZero.run 3 (Scanner.mk [])).1.output = (ascii "0\n").toArray ∧
    showZero.run 1000 (Scanner.mk []) = showZero.run 3 (Scanner.mk []) ∧
    showZero.Ends ⟨showZero.start, Scanner.mk [], #[]⟩ (showZero.run 3 (Scanner.mk [])) := by
  have hlimit : (showZero.run 2 (Scanner.mk [])).2 = .stepLimit := by decide +kernel
  have hfinished : (showZero.run 3 (Scanner.mk [])).2 = .finished := by decide +kernel
  have houtput : (showZero.run 3 (Scanner.mk [])).1.output = (ascii "0\n").toArray := by
    decide +kernel
  obtain ⟨hcut, -, -⟩ := runs_can_be_cut showZero ⟨showZero.start, Scanner.mk [], #[]⟩ 2 1
  obtain ⟨-, hmore, -⟩ := runs_can_be_cut showZero ⟨showZero.start, Scanner.mk [], #[]⟩ 3 0
  obtain ⟨hlarger, hends⟩ := hmore (fun h => Ending.noConfusion (hfinished.symm.trans h))
  exact ⟨hlimit, hcut hlimit, hfinished, houtput, hlarger 1000 (by decide), (hends _).mpr rfl⟩

end Machine
end Contrary
