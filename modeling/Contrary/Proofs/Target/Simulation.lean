import Contrary.Proofs.Target.Ends
import Contrary.Proofs.Target.Lines
import Contrary.Proofs.Target.Position

/-!
# The generated C follows the machine

`Follows` relates a run of the machine to a configuration of the generated
program: the process mirrors the state, input and output are the same, and the
blocks that are left to run are those from the position of the machine on.

One step of the machine is one step of the generated program (`step_follows`): a
line, the head of a block, or the end of one.  At the end of the program the last
block is left and the leak checks follow.
-/

namespace Contrary
namespace Target

variable {σ : Type}

/-- The configuration holds the run. -/
structure Follows (m : Machine) (r : Run σ) (k : Config σ) : Prop where
  mirrors : Mirrors m.program.names r.state k.process
  input : k.process.input = r.input
  output : k.process.output = r.output
  rest : ∃ ns, k.rest = ns.map (block m.program.names) ∧ m.Resumes r.state.pc ns

/-- What the outcome of a step of the machine says about a step of the generated
program. -/
def Matches (m : Machine) (o : Outcome σ) : Run σ × Option Halt → Prop
  | (r, none) => ∃ k, o = .running k ∧ Follows m r k
  | (r, some (.abort _)) => o = .exited r.output 1
  | (_, some _) => True

theorem Mirrors.setPc
    {names : Names} {s : State} {c : Process σ}
    (hm : Mirrors names s c) (pc : Nat) :
    Mirrors names { s with pc := pc } c :=
  ⟨hm.defs, hm.distinct, ⟨hm.fits.vars, hm.fits.arrays, hm.fits.flags, hm.fits.cells⟩, hm.global,
    hm.label, hm.memory⟩

section Steps

variable [NumberSource σ] {m : Machine} {r : Run σ} {k : Config σ} {body : Block}
  {leaks : List LeakCheck}

theorem advance_eq
    {l : OpLine}
    (hl : m.program.ops[r.state.pc]? = some l) :
    m.advance r =
      let t := m.exec l r.state.pc { r.state with pc := r.state.pc + 1 } r.input
      (⟨t.state, t.input, r.output ++ t.output⟩, t.halt) := by
  unfold Machine.advance Machine.step
  rw [hl]

section Outcomes

variable {l : OpLine} {s : State} {o : Outcome σ}
  (hl : m.program.ops[r.state.pc]? = some l)

include hl

theorem matches_next
    (hexec : m.exec l r.state.pc { r.state with pc := r.state.pc + 1 } r.input =
      Step.next s r.input)
    (ho : o = .running k)
    (hf : Follows m ⟨s, r.input, r.output⟩ k) :
    Matches m o (m.advance r) := by
  rw [advance_eq hl, hexec]
  refine ⟨k, ho, hf.mirrors, hf.input, ?_, hf.rest⟩
  simpa [Step.next] using hf.output

theorem matches_abort
    (cause : Abort)
    (hexec : m.exec l r.state.pc { r.state with pc := r.state.pc + 1 } r.input =
      Step.stop s r.input (.abort cause))
    (ho : o = .exited (r.output ++ cause.message) 1) :
    Matches m o (m.advance r) := by
  rw [advance_eq hl, hexec, ho]
  rfl

theorem matches_other
    {h : Halt}
    (hexec : m.exec l r.state.pc { r.state with pc := r.state.pc + 1 } r.input =
      Step.stop s r.input h)
    (habort : ∀ cause, h ≠ .abort cause) :
    Matches m o (m.advance r) := by
  rw [advance_eq hl, hexec]
  cases h with
  | abort cause => exact absurd rfl (habort cause)
  | failure line text cause => trivial
  | stray => trivial

end Outcomes

/-- The end of a block. -/
theorem matches_done
    {n : Nesting} {ns : List Nesting}
    (hf : Follows m r k)
    (hrest : k.rest = (.done :: n :: ns).map (block m.program.names))
    (hns : m.Resumes r.state.pc (.done :: n :: ns)) :
    Matches m (k.step body leaks) (m.advance r) := by
  obtain ⟨⟨l, a, b, c, hl, hop⟩, hresumes⟩ := hns.done
  refine matches_next hl (k := ⟨k.process, (n :: ns).map (block m.program.names)⟩)
    (s := { r.state with pc := r.state.pc + 1 }) ?_ ?_ ?_
  · simp only [Machine.exec, hop]
  · exact Config.step_done hrest
  · exact ⟨hf.mirrors.setPc _, hf.input, hf.output, _, rfl, hresumes⟩

/-- A line that is not a jump. -/
theorem matches_line
    {l : OpLine} {next : Nesting} {ns : List Nesting}
    (hf : Follows m r k)
    (hrest : k.rest = (.op l next :: ns).map (block m.program.names))
    (hns : m.Resumes r.state.pc (.op l next :: ns))
    (hgoto : l.op ≠ .goto) :
    Matches m (k.step body leaks) (m.advance r) := by
  obtain ⟨hl, hplain, hresumes⟩ := hns.op
  have hagrees := agrees_line (i := r.state.pc) rfl (hf.mirrors.setPc (r.state.pc + 1)) hplain hgoto
  have hstep : k.step body leaks =
      ((line m.program.names l).exec k.process).resume body
        ((next :: ns).map (block m.program.names)) :=
    Config.step_line hrest
  rw [hstep, advance_eq hl, ← hf.input]
  unfold Agrees at hagrees
  simp only
  split at hagrees
  · rename_i hhalt
    obtain ⟨hpc, c', hexec, hm', hin, hout⟩ := hagrees
    rw [hhalt, hexec]
    refine ⟨_, rfl, hm', hin, ?_, _, rfl, ?_⟩
    · simp [hout, hf.output]
    · rw [hpc]
      exact hresumes
  · rename_i cause hhalt
    obtain ⟨c', hexec, hout⟩ := hagrees
    rw [hhalt, hexec]
    simp [Matches, Effect.resume, hout, hf.output]
  · rename_i h habort hhalt
    rw [hhalt]
    cases h with
    | abort cause => exact absurd rfl (habort cause)
    | failure line text cause => trivial
    | stray => trivial

/-- A jump, which leads to the same place in both programs. -/
theorem matches_goto
    {lines : List TokenLine} {below : Nat} {n next : Nesting} {l : OpLine} {ns : List Nesting}
    (hp : m.program.ReadFrom lines below)
    (hstart : m.Resumes 0 [n])
    (hmarks : m.marks = Machine.placeFlags m.program)
    (hf : Follows m r k)
    (hrest : k.rest = (.op l next :: ns).map (block m.program.names))
    (hns : m.Resumes r.state.pc (.op l next :: ns))
    (hgoto : l.op = .goto) :
    Matches m (k.step (block m.program.names n) leaks) (m.advance r) := by
  obtain ⟨hl, -, -⟩ := hns.op
  have hstep : k.step (block m.program.names n) leaks =
      ((line m.program.names l).exec k.process).resume (block m.program.names n)
        ((next :: ns).map (block m.program.names)) :=
    Config.step_line hrest
  have hexec : (line m.program.names l).exec k.process = Stmt.goto.exec k.process := by
    simp only [line, Line.exec, hgoto, isBraced, statements, execAll]
    cases Stmt.goto.exec k.process <;> rfl
  rw [hstep, hexec]
  simp only [Stmt.exec, hf.mirrors.label]
  cases hpinned : r.state.pinned with
  | none =>
      refine matches_abort hl (s := { r.state with pc := r.state.pc + 1 }) .nothingToPin ?_ ?_
      · simp [Machine.exec, hgoto, State.jump, hpinned, Step.ofState]
      · simp only [Effect.resume, Process.write, hf.mirrors.defs, hf.output, unpinnedText_generated]
        rfl
  | some f =>
      cases hmark : m.marks[f]? with
      | none =>
          refine matches_other hl (s := { r.state with pc := r.state.pc + 1 }) (h := .stray) ?_ ?_
          · simp [Machine.exec, hgoto, State.jump, hpinned, hmark, Step.ofState]
          · simp
      | some t =>
          obtain ⟨ks, hfind, hresumes⟩ := Machine.resumes_find? hp hstart hmarks hmark
          refine matches_next hl (k := ⟨k.process, ks.map (block m.program.names)⟩)
            (s := { r.state with pc := t }) ?_ ?_ ?_
          · simp [Machine.exec, hgoto, State.jump, hpinned, hmark, Step.ofState]
          · simp [Effect.resume, hfind]
          · exact ⟨hf.mirrors.setPc t, hf.input, hf.output, ks, rfl, hresumes⟩

/-- The two values that a head compares, or the halt of the first that has none. -/
theorem head_values
    {names : Names} {s : State} {c : Process σ} (l : OpLine)
    (hm : Mirrors names s c) (a b : Operand) :
    (∃ h, (s.value names l a = .error h ∨
        ∃ x, s.value names l a = .ok x ∧ s.value names l b = .error h) ∧
      Guards c (.error h : Except Halt Int32) (execAll c (check names a ++ check names b))) ∨
    ∃ x y, s.value names l a = .ok x ∧ s.value names l b = .ok y ∧
      execAll c (check names a ++ check names b) = .next c := by
  have hguards := Guards.append (guards_check (l := l) hm a) fun _ _ => guards_check (l := l) hm b
  cases hx : s.value names l a with
  | error h =>
      rw [hx] at hguards
      exact .inl ⟨h, .inl rfl, hguards⟩
  | ok x =>
      cases hy : s.value names l b with
      | error h =>
          rw [hx, hy] at hguards
          exact .inl ⟨h, .inr ⟨x, rfl, rfl⟩, hguards⟩
      | ok y =>
          rw [hx, hy] at hguards
          exact .inr ⟨x, y, rfl, rfl, hguards⟩

/-- The head of a block. -/
theorem matches_block
    {a b : Operand} {cmp : Comparison} {inner next : Nesting} {ns : List Nesting}
    (hf : Follows m r k)
    (hrest : k.rest = (.block a b cmp inner next :: ns).map (block m.program.names))
    (hns : m.Resumes r.state.pc (.block a b cmp inner next :: ns)) :
    Matches m (k.step body leaks) (m.advance r) := by
  obtain ⟨⟨l, hl, hop⟩, hcond, hinner, hnext⟩ := hns.block
  have hm := hf.mirrors.setPc (r.state.pc + 1)
  have hexec : m.exec l r.state.pc { r.state with pc := r.state.pc + 1 } r.input =
      Step.ofState { r.state with pc := r.state.pc + 1 } r.input
        (m.branch l r.state.pc { r.state with pc := r.state.pc + 1 }) := by
    simp only [Machine.exec, hop]
  simp only [Machine.branch, hcond] at hexec
  rcases head_values l hm a b with ⟨h, hvalues, hguards⟩ | ⟨x, y, hx, hy, hchecks⟩
  · have hstop : m.exec l r.state.pc { r.state with pc := r.state.pc + 1 } r.input =
        Step.stop { r.state with pc := r.state.pc + 1 } r.input h := by
      rcases hvalues with hx | ⟨x, hx, hy⟩
      · rw [hx] at hexec
        exact hexec
      · rw [hx, hy] at hexec
        exact hexec
    cases h with
    | abort cause =>
        refine matches_abort hl cause hstop ?_
        rw [Config.step_quit hrest hguards]
        simp [Process.write, hf.output]
    | failure line text cause => exact matches_other hl hstop (by simp)
    | stray => exact matches_other hl hstop (by simp)
  · rw [hx, hy] at hexec
    have hchoose : (head m.program.names a b cmp).choose k.process = some (cmp.holds x y) := by
      simp [head, Head.choose, eval_of_value hm hx, eval_of_value hm hy]
    cases hholds : cmp.holds x y with
    | true =>
        rw [hholds] at hchoose
        refine matches_next hl (k := ⟨k.process, (inner :: next :: ns).map (block m.program.names)⟩)
          (s := { r.state with pc := r.state.pc + 1 }) ?_
          (Config.step_choose hrest hchecks hchoose) ?_
        · rw [hexec]
          simp [hholds, Step.ofState, bind, Except.bind, pure, Except.pure]
        · exact ⟨hm, hf.input, hf.output, _, rfl, hinner⟩
    | false =>
        rw [hholds] at hchoose
        refine matches_next hl (k := ⟨k.process, (next :: ns).map (block m.program.names)⟩)
          (s := { r.state with pc := r.state.pc + inner.width + 1 + 1 }) ?_
          (Config.step_choose hrest hchecks hchoose) ?_
        · rw [hexec]
          simp [hholds, Step.ofState, bind, Except.bind, pure, Except.pure]
        · exact ⟨hf.mirrors.setPc _, hf.input, hf.output, _, rfl, hnext⟩

/-- **One step.**  As long as the machine is not at the end, one step of it is one
step of the generated program. -/
theorem step_follows
    {lines : List TokenLine} {below : Nat} {n : Nesting}
    (hp : m.program.ReadFrom lines below)
    (hstart : m.Resumes 0 [n])
    (hmarks : m.marks = Machine.placeFlags m.program)
    (leaks : List LeakCheck)
    (hf : Follows m r k)
    (hend : m.atEnd r.state = false) :
    Matches m (k.step (block m.program.names n) leaks) (m.advance r) := by
  obtain ⟨ns, hrest, hns⟩ := hf.rest
  cases ns with
  | nil => cases hns
  | cons n₀ ns =>
      cases n₀ with
      | done =>
          cases ns with
          | nil =>
              have hpc := hns.atEnd
              simp [Machine.atEnd, hpc] at hend
          | cons n₁ ns => exact matches_done hf hrest hns
      | op l next =>
          by_cases hgoto : l.op = .goto
          · exact matches_goto hp hstart hmarks hf hrest hns hgoto
          · exact matches_line hf hrest hns hgoto
      | block a b cmp inner next => exact matches_block hf hrest hns

end Steps

/-- At the end of the program, its last block is left. -/
theorem rest_atEnd
    {m : Machine} {r : Run σ} {k : Config σ}
    (hf : Follows m r k)
    (hend : m.atEnd r.state = true) :
    k.rest = [.done] := by
  obtain ⟨ns, hrest, hns⟩ := hf.rest
  have hnone : ∀ l, m.program.ops[r.state.pc]? ≠ some l := by
    intro l hl
    have hlt := (Array.getElem?_eq_some_iff.mp hl).1
    simp only [Machine.atEnd, decide_eq_true_eq] at hend
    omega
  cases ns with
  | nil => cases hns
  | cons n₀ ns =>
      cases n₀ with
      | done =>
          cases ns with
          | nil => exact hrest
          | cons n₁ ns =>
              obtain ⟨⟨l, -, -, -, hl, -⟩, -⟩ := hns.done
              exact absurd hl (hnone l)
      | op l next => exact absurd hns.op.1 (hnone l)
      | block a b cmp inner next =>
          obtain ⟨⟨l, hl, -⟩, -⟩ := hns.block
          exact absurd hl (hnone l)

section Runs

/-- What the ending of a run of at most `limit` steps says about the generated program,
given by its outcome after every number of steps: it ends with what the machine has
written, with status 0 if the machine has finished and 1 if it has aborted, and it
runs as long as the machine does. -/
def EndsAs (outcome : Nat → Outcome σ) (limit : Nat) : Run σ × Ending → Prop
  | (r, .finished) => ∃ n, outcome n = .exited r.output 0
  | (r, .halted (.abort _)) => ∃ n, outcome n = .exited r.output 1
  | (_, .halted _) => True
  | (_, .stepLimit) => ∃ k, outcome limit = .running k

/-- An ending is reached one step later from one step before. -/
theorem EndsAs.of_step
    {outcome later : Nat → Outcome σ} {limit : Nat} {ending : Run σ × Ending}
    (hstep : ∀ n, outcome (n + 1) = later n)
    (h : EndsAs later limit ending) :
    EndsAs outcome (limit + 1) ending := by
  obtain ⟨r, e⟩ := ending
  cases e with
  | finished =>
      obtain ⟨n, hn⟩ := h
      exact ⟨n + 1, (hstep n).trans hn⟩
  | halted cause =>
      cases cause with
      | abort cause =>
          obtain ⟨n, hn⟩ := h
          exact ⟨n + 1, (hstep n).trans hn⟩
      | failure line text cause => trivial
      | stray => trivial
  | stepLimit =>
      obtain ⟨k, hk⟩ := h
      exact ⟨k, (hstep limit).trans hk⟩

variable [NumberSource σ] {m : Machine} {body : Block}

/-- At the end of the program, the last block is left and the leak checks follow. -/
theorem finish_ends
    {r : Run σ} {k : Config σ}
    (limit : Nat)
    (hf : Follows m r k)
    (hend : m.atEnd r.state = true) :
    EndsAs (k.runFor body (leakChecks m.program.names)) limit (m.finish r) := by
  have hrun : k.runFor body (leakChecks m.program.names) 2 =
      checkLeaks k.process (leakChecks m.program.names) := by
    obtain ⟨process, rest⟩ := k
    obtain rfl : rest = [.done] := rest_atEnd hf hend
    simp only [Config.runFor, Config.step]
    split <;> simp_all
  rw [checkLeaks_eq hf.mirrors, hf.output] at hrun
  unfold Machine.finish Machine.finalHalt?
  cases hleak : m.leaked? r.state with
  | none =>
      rw [hleak] at hrun
      exact ⟨2, hrun⟩
  | some name =>
      rw [hleak] at hrun
      exact ⟨2, hrun⟩

/-- **A whole run.**  The generated program ends as the machine does, and runs as
long as it does. -/
theorem run_ends
    {lines : List TokenLine} {below : Nat} {n : Nesting}
    (hp : m.program.ReadFrom lines below)
    (hstart : m.Resumes 0 [n])
    (hmarks : m.marks = Machine.placeFlags m.program)
    (limit : Nat) :
    ∀ {r : Run σ} {k : Config σ},
      Follows m r k →
      EndsAs (k.runFor (block m.program.names n) (leakChecks m.program.names)) limit
        (m.runFor limit r) := by
  induction limit with
  | zero =>
      intro r k hf
      unfold Machine.runFor
      cases hend : m.atEnd r.state with
      | true => exact finish_ends 0 hf hend
      | false => exact ⟨k, rfl⟩
  | succ limit ih =>
      intro r k hf
      unfold Machine.runFor
      cases hend : m.atEnd r.state with
      | true => exact finish_ends (limit + 1) hf hend
      | false =>
          have hstep := step_follows hp hstart hmarks (leakChecks m.program.names) hf hend
          cases hadvance : m.advance r with
          | mk r' halt =>
              rw [hadvance] at hstep
              cases halt with
              | none =>
                  obtain ⟨k', hk', hf'⟩ := hstep
                  refine EndsAs.of_step (fun i => ?_) (ih hf')
                  simp only [Config.runFor, hk']
              | some h =>
                  cases h with
                  | abort cause =>
                      have hexit : k.step (block m.program.names n) (leakChecks m.program.names) =
                          .exited r'.output 1 := hstep
                      exact ⟨1, by simp only [Config.runFor, hexit]⟩
                  | failure line text cause => trivial
                  | stray => trivial

end Runs

section Programs

variable [NumberSource σ] {lines : List TokenLine} {below : Nat} {p : Program}

/-- A program without operations has no names, so nothing is left alive. -/
theorem leaked?_of_empty
    {m : Machine}
    (hp : m.program.ReadFrom lines below)
    (hempty : m.program.ops = #[])
    (s : State) :
    m.leaked? s = none := by
  have htable : ∀ k, m.program.names.table k = [] := by
    intro k
    cases htable : m.program.names.table k with
    | nil => rfl
    | cons x xs =>
        obtain ⟨i, l, -, hl, -⟩ := hp.introduced k 0 (by simp [htable])
        simp [hempty] at hl
  have hvars : m.program.names.vars.toList = [] := htable .variable
  have harrays : m.program.names.arrays.toList.map ArrayDecl.name = [] := htable .array
  have hflags : m.program.names.flags.toList = [] := htable .flag
  simp [Machine.leaked?, hvars, harrays, hflags]

theorem endsAs_empty
    {m : Machine}
    (hp : m.program.ReadFrom lines below)
    (hempty : m.program.ops = #[])
    (limit : Nat) (input : σ) :
    EndsAs (File.empty.run · input) limit (m.run limit input) := by
  have hend : ∀ s, m.atEnd s = true := by
    intro s
    simp [Machine.atEnd, hempty]
  have hfinish : m.run limit input = (⟨m.start, input, #[]⟩, .finished) := by
    unfold Machine.run
    cases limit <;>
      simp [Machine.runFor, hend, Machine.finish, Machine.finalHalt?, leaked?_of_empty hp hempty]
  rw [hfinish]
  exact ⟨0, rfl⟩

theorem endsAs_main
    {m : Machine} {n : Nesting}
    (hp : m.program.ReadFrom lines below)
    (hsizes : ∀ d ∈ m.program.names.arrays.toList, 0 ≤ d.size)
    (hstart : m.Resumes 0 [n])
    (hmarks : m.marks = Machine.placeFlags m.program)
    (hspells : n.Spells m.program.ops.toList)
    (limit : Nat) (input : σ) :
    EndsAs ((Code.main (declarations m.program.names) (block m.program.names n)
      (leakChecks m.program.names)).file.run · input) limit (m.run limit input) := by
  obtain ⟨memory, hmemory, hmirrors⟩ := mirrors_start input hp.distinct hsizes
  have hlabels := Machine.labels_nodup hp hspells
  have hfollows : Follows m ⟨m.start, input, #[]⟩
      ⟨⟨.generated, memory, 0, none, none, none, input, #[]⟩, [block m.program.names n]⟩ :=
    ⟨hmirrors, rfl, rfl, [n], rfl, hstart⟩
  have hrun : ∀ limit, (Code.main (declarations m.program.names) (block m.program.names n)
      (leakChecks m.program.names)).file.run limit input =
        Config.runFor (block m.program.names n) (leakChecks m.program.names) limit
          ⟨⟨.generated, memory, 0, none, none, none, input, #[]⟩, [block m.program.names n]⟩ := by
    intro limit
    simp [Code.file, File.run, hmemory, hlabels, Definitions.generated]
  rw [funext hrun]
  exact run_ends hp hstart hmarks limit hfollows

/-- **The generated code does what the machine does,** whatever the input is. -/
theorem ofProgram_ends
    (hp : p.ReadFrom lines below)
    (hsizes : ∀ d ∈ p.names.arrays.toList, 0 ≤ d.size)
    {code : Code}
    (hcode : Code.ofProgram p = .ok code) :
    ∃ m, Machine.load p = .ok m ∧
      ∀ (limit : Nat) (input : σ), EndsAs (code.file.run · input) limit (m.run limit input) := by
  unfold Code.ofProgram at hcode
  cases hempty : p.ops.isEmpty with
  | true =>
      have hops : p.ops = #[] := by simpa using hempty
      rw [hempty] at hcode
      cases hcode
      have hload : Machine.load p = .ok ⟨p, #[], Machine.placeFlags p⟩ := by
        simp [Machine.load, hops, Pairing.ofOps, Pairing.scan, Except.map]
      exact ⟨_, hload, endsAs_empty (m := ⟨p, #[], Machine.placeFlags p⟩) hp hops⟩
  | false =>
      rw [hempty] at hcode
      obtain ⟨n, hn, rfl⟩ := map_eq_ok_iff.mp hcode
      obtain ⟨m, hload, rfl, hmarks, hstart⟩ := Machine.resumes_load hn
      obtain ⟨hspells, -⟩ := ofOps_of_nesting hn
      exact ⟨m, hload, endsAs_main hp hsizes hstart hmarks hspells⟩

end Programs

end Target
end Contrary
