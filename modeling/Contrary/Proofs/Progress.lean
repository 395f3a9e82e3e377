import Contrary.Proofs.Conditions
import Contrary.Proofs.Histories
import Contrary.Proofs.Matching

/-!
# Only jumps go back

Every operation but a jump leads on to a later one.  A program without jumps therefore makes
each of its operations once at most, and a program with jumps makes no more operations from
one jump to the next than it has.

**Steps.**  A block is closed after it is opened, so also the operation that leaves a block out
goes forward (`lt_of_condition?`, `step_forward`).

**Runs.**  As long as there is no jump, the position counts the operations
(`Executes.add_length_le`).

**Endings.**  A program whose handles are in their tables never stops for a stray one, whether
it was read from a source or not (`fitted_load`).

**Results.**
* `only_jumps_go_back`: steps, runs of programs without jumps, and what stands between two jumps.
-/

namespace Contrary

namespace Program

/-- No array has a negative size, and every handle is in its table. -/
structure InRange (p : Program) : Prop where
  sized : ∀ d ∈ p.names.arrays.toList, 0 ≤ d.size
  covered : ∀ l ∈ p.ops.toList, p.names.Covers l.op.mentions

theorem inRange_ofSource
    {source : Bytes} {p : Program}
    (hp : ofSource source = .ok p) :
    p.InRange := by
  obtain ⟨lines, hread, hsized, -⟩ := readFrom_ofSource hp
  exact ⟨hsized, hread.covered⟩

end Program

namespace Machine

section Loading

variable {p : Program} {m : Machine}

/-- The block that is opened at a position is closed at a later one. -/
theorem closes_of_entry
    (hm : Machine.load p = .ok m)
    {i j : Nat}
    (hj : m.closing[i]? = some (some j)) :
    m.Closes i j := by
  obtain ⟨rfl, hpairs⟩ := load_eq_ok hm
  have hencloses := (Pairing.encloses_of_ofOps hpairs).mp hj
  obtain ⟨a, b, c, hclose⟩ := hencloses.closing
  rw [List.getElem?_map, Option.map_eq_some_iff] at hclose
  obtain ⟨l, hl, hop⟩ := hclose
  exact ⟨hencloses.lt, hj, l, a, b, c, by simpa using hl, hop⟩

theorem exists_closes
    (hm : Machine.load p = .ok m)
    {i : Nat} {l : OpLine}
    (hl : m.program.ops[i]? = some l)
    (hop : l.op = .openBlock) :
    ∃ j, m.Closes i j := by
  obtain ⟨rfl, hpairs⟩ := load_eq_ok hm
  have hopens : Op.OpensAt (m.program.ops.toList.map OpLine.op) i := by
    simp [Op.OpensAt, hl, hop]
  by_contra hnone
  refine (Pairing.exists_ofOps_iff.mp ⟨_, hpairs⟩).not_unclosed i
    ⟨hopens, fun j hj => hnone ⟨j, ?_⟩⟩
  exact closes_of_entry hm ((Pairing.encloses_of_ofOps hpairs).mpr hj)

/-- The entry of a flag is a position of the program, or its start. -/
theorem mark_le
    {f i : Nat}
    (h : (placeFlags p)[f]? = some i) :
    i ≤ p.ops.size := by
  have hf : f < p.names.flags.size := by
    have hlt := (Array.getElem?_eq_some_iff.mp h).1
    rwa [size_placeFlags] at hlt
  rcases foldl_marks p.ops.toList 0 (Array.replicate p.names.flags.size 0)
    (by simpa using hf) with ⟨j, o, ho, -, htable⟩ | ⟨-, htable⟩
  · have hij : i = j := by simpa using h.symm.trans htable
    have hlt := (List.getElem?_eq_some_iff.mp ho).1
    rw [Array.length_toList] at hlt
    omega
  · have hzero : i = 0 := by simpa [hf] using h.symm.trans htable
    omega

/-- A program whose handles are in their tables is fit to run. -/
theorem fitted_load
    (hp : p.InRange)
    (hm : Machine.load p = .ok m) :
    m.Fitted := by
  have hprogram := (load_eq_ok hm).1
  have hmarks : m.marks = placeFlags p := by
    obtain ⟨t, -, rfl⟩ := map_eq_ok_iff.mp hm
    rfl
  refine ⟨by rw [hprogram]; exact hp.covered, fun i l hl hop => exists_closes hm hl hop, ?_⟩
  intro f hf
  rw [hprogram] at hf ⊢
  rw [hmarks]
  obtain ⟨i, hi⟩ : ∃ i, (placeFlags p)[f]? = some i :=
    ⟨_, Array.getElem?_eq_getElem (by rwa [size_placeFlags])⟩
  exact ⟨i, hi, mark_le hi⟩

end Loading

section Forward

variable {σ : Type} [NumberSource σ] {p : Program} {m : Machine} {r r' : Run σ}

/-- The operation that closes a block stands after the one that opens it. -/
theorem lt_of_condition?
    (hm : Machine.load p = .ok m)
    {i j : Nat} {a b : Operand} {c : Comparison}
    (h : m.condition? i = some (j, a, b, c)) :
    i < j ∧ j < p.ops.size := by
  obtain ⟨k, hk⟩ : ∃ k, m.closing[i]? = some (some k) := by
    unfold condition? at h
    split at h
    · exact ⟨_, by assumption⟩
    · cases h
  have hcloses := closes_of_entry hm hk
  obtain ⟨l, a', b', c', hl, -, hcond⟩ := condition?_of_closes hcloses
  obtain rfl : k = j := congrArg Prod.fst (Option.some.inj (hcond.symm.trans h))
  rw [(load_eq_ok hm).1] at hl
  exact ⟨hcloses.1, (Array.getElem?_eq_some_iff.mp hl).1⟩

/-- Where a program goes on after an operation that is no jump. -/
theorem GoesOn.forward
    (hm : Machine.load p = .ok m)
    {op : Op} {i j : Nat} {s : State}
    (h : m.GoesOn op i s j)
    (hop : op ≠ .goto)
    (hi : i < p.ops.size)
    (hs : s.pc = i + 1) :
    i < j ∧ j ≤ p.ops.size := by
  cases h with
  | next _ => omega
  | skip _ hcond =>
      have hlt := lt_of_condition? hm hcond
      omega
  | jump hgoto _ _ => exact absurd hgoto hop

/-- A step that is no jump goes forward. -/
theorem step_forward
    (hm : Machine.load p = .ok m)
    {s : State} {l : OpLine} {input : σ}
    (hl : p.ops[s.pc]? = some l)
    (hop : l.op ≠ .goto)
    (h : (m.step s input).halt = none) :
    s.pc < (m.step s input).state.pc ∧ (m.step s input).state.pc ≤ p.ops.size := by
  rw [← (load_eq_ok hm).1] at hl
  have hlt := (Array.getElem?_eq_some_iff.mp hl).1
  rw [(load_eq_ok hm).1] at hlt
  exact (step_outline hl h).position.forward hm hop hlt rfl

/-- Without a jump, the position grows with every operation, up to the end of the program. -/
theorem Executes.add_length_le
    (hm : Machine.load p = .ok m)
    {ops : List Op}
    (h : m.Executes r ops r')
    (hops : .goto ∉ ops) :
    r.state.pc + ops.length ≤ r'.state.pc ∧ r'.state.pc ≤ max r.state.pc p.ops.size := by
  induction h with
  | done => exact ⟨Nat.le_refl _, Nat.le_max_left _ _⟩
  | @next r r₁ r' l ops hl hnext _ ih =>
      rw [List.mem_cons, not_or] at hops
      obtain ⟨hlow, hhigh⟩ := ih hops.2
      have hlt := (Array.getElem?_eq_some_iff.mp hl).1
      rw [(load_eq_ok hm).1] at hlt
      have hforward := (next?_outline hl hnext).position.forward hm (Ne.symm hops.1) hlt rfl
      rw [List.length_cons]
      omega

/-- A run without a jump makes no more operations than the program has, and fewer if there is
another one to come. -/
theorem Executes.length_le
    (hm : Machine.load p = .ok m)
    {ops : List Op}
    (h : m.Executes r ops r')
    (hops : .goto ∉ ops) :
    ops.length ≤ p.ops.size ∧ (r'.state.pc < p.ops.size → ops.length < p.ops.size) := by
  have hpc := h.add_length_le hm hops
  omega

/-- A program without jumps comes to its end within as many operations as it has. -/
theorem run_ne_stepLimit
    (hm : Machine.load p = .ok m)
    (hops : ∀ l ∈ p.ops.toList, l.op ≠ .goto)
    {limit : Nat}
    (hlimit : p.ops.size ≤ limit) (input : σ) :
    (m.run limit input).2 ≠ .stepLimit := by
  intro hending
  obtain ⟨hafter, hmore⟩ := runFor_eq_stepLimit_iff.mp (Prod.ext rfl hending)
  obtain ⟨ops, hlength, hrun⟩ := exists_executes hafter
  have hprogram := (load_eq_ok hm).1
  have hgoto : .goto ∉ ops := by
    intro hmem
    obtain ⟨l, hl, hop⟩ := hrun.exists_line _ hmem
    rw [hprogram] at hl
    exact hops l hl hop
  have hlt : (m.runFor limit ⟨m.start, input, #[]⟩).1.state.pc < p.ops.size := by
    simpa [atEnd, hprogram] using hmore
  have hfewer := (hrun.length_le hm hgoto).2 hlt
  omega

/-- A run that its limit does not end finishes, aborts or fails, if all handles are in their
tables. -/
theorem ending_cases
    (hp : p.InRange)
    (hm : Machine.load p = .ok m)
    {limit : Nat} {input : σ}
    (h : (m.run limit input).2 ≠ .stepLimit) :
    (m.run limit input).2 = .finished ∨
      (∃ cause, (m.run limit input).2 = .halted (.abort cause)) ∨
      ∃ line text cause, (m.run limit input).2 = .halted (.failure line text cause) := by
  have hsized : ∀ d ∈ m.program.names.arrays.toList, 0 ≤ d.size := by
    rw [(load_eq_ok hm).1]
    exact hp.sized
  have hlawful : (m.run limit input).2.Lawful m.program :=
    (runFor_safe (fitted_load hp hm) limit _ (sound_start hsized)).2
  cases hending : (m.run limit input).2 with
  | finished => exact .inl rfl
  | stepLimit => exact absurd hending h
  | halted halt =>
      rw [hending] at hlawful
      cases halt with
      | abort cause => exact .inr (.inl ⟨cause, rfl⟩)
      | failure line text cause => exact .inr (.inr ⟨line, text, cause, rfl⟩)
      | stray =>
          obtain ⟨l, -, hstray⟩ := hlawful
          exact hstray.elim

end Forward

/-- **Only jumps go back.**  A step of any other operation that does not stop the program leads
to a later position, at most to the end.  A program without jumps therefore ends within as many
operations as it has; if its handles are in their tables, it finishes, aborts or fails.  And in
every run, from one jump to the next there are fewer operations than the program has, and
without a next one there are no more. -/
theorem only_jumps_go_back
    {σ : Type} [NumberSource σ] {p : Program} {m : Machine}
    (hm : Machine.load p = .ok m) :
    (∀ (s : State) (l : OpLine) (input : σ), p.ops[s.pc]? = some l → l.op ≠ .goto →
      (m.step s input).halt = none →
      s.pc < (m.step s input).state.pc ∧ (m.step s input).state.pc ≤ p.ops.size) ∧
    ((∀ l ∈ p.ops.toList, l.op ≠ .goto) →
      ∀ (limit : Nat) (input : σ), p.ops.size ≤ limit →
        (m.run limit input).2 ≠ .stepLimit ∧
        (p.InRange →
          (m.run limit input).2 = .finished ∨
          (∃ cause, (m.run limit input).2 = .halted (.abort cause)) ∨
          ∃ line text cause, (m.run limit input).2 = .halted (.failure line text cause))) ∧
    ∀ (r r' : Run σ) (before between : List Op),
      m.Executes r (before ++ .goto :: between) r' → .goto ∉ between →
      between.length ≤ p.ops.size ∧
      ∀ l, p.ops[r'.state.pc]? = some l → l.op = .goto → between.length < p.ops.size := by
  refine ⟨fun s l input => step_forward hm, ?_, ?_⟩
  · intro hops limit input hlimit
    have hlimited := run_ne_stepLimit hm hops hlimit input
    exact ⟨hlimited, fun hp => ending_cases hp hm hlimited⟩
  · intro r r' before between hrun hbetween
    obtain ⟨r₁, -, hrun⟩ := executes_append_iff.mp hrun
    obtain ⟨-, r₂, -, -, -, hrun⟩ := executes_cons_iff.mp hrun
    obtain ⟨hle, hlt⟩ := hrun.length_le hm hbetween
    exact ⟨hle, fun l hl _ => hlt (Array.getElem?_eq_some_iff.mp hl).1⟩

/-- Jumps to its start forever. -/
def spin : Program where
  names := ⟨#[], #[], #[ascii "L"]⟩
  ops :=
    #[ ⟨.mark 0, 1, ascii "unmark L"⟩,
      ⟨.pin 0, 2, ascii "forget L"⟩,
      ⟨.goto, 3, ascii "halt"⟩ ]
  lineCount := 3

/-- The block within a block has no jumps and eight operations, so eight of them are enough.  The
program that spins makes two operations from one jump to the next, and has three. -/
theorem blockInBlock_ends :
    (∃ m, Machine.load ofBlockInBlock = .ok m ∧
      (m.run 8 (Scanner.mk [])).2 ≠ .stepLimit ∧ (m.run 1000 (Scanner.mk [])).2 ≠ .stepLimit ∧
      ((m.run 8 (Scanner.mk [])).2 = .finished ∨
        (∃ cause, (m.run 8 (Scanner.mk [])).2 = .halted (.abort cause)) ∨
        ∃ line text cause, (m.run 8 (Scanner.mk [])).2 = .halted (.failure line text cause))) ∧
    ∃ m r', Machine.load spin = .ok m ∧
      m.Executes ⟨m.start, Scanner.mk [], #[]⟩ [.mark 0, .pin 0, .goto, .mark 0, .pin 0] r' ∧
      (spin.ops[r'.state.pc]?).map OpLine.op = some .goto ∧
      [Op.mark 0, Op.pin 0].length < spin.ops.size := by
  constructor
  · have hp : Program.ofSource blockInBlock = .ok ofBlockInBlock := by decide +kernel
    cases hm : Machine.load ofBlockInBlock with
    | error e => cases hm
    | ok m =>
        obtain ⟨-, hends, -⟩ := only_jumps_go_back (σ := Scanner) hm
        have hops : ∀ l ∈ ofBlockInBlock.ops.toList, l.op ≠ .goto := by decide
        obtain ⟨hlimited, hcases⟩ := hends hops 8 (Scanner.mk []) (by decide)
        exact ⟨m, rfl, hlimited, (hends hops 1000 (Scanner.mk []) (by decide)).1,
          hcases (Program.inRange_ofSource hp)⟩
  · let m : Machine := ⟨spin, #[none, none, none], #[0]⟩
    let point (pinned : Option Nat) (pc : Nat) : Run Scanner :=
      ⟨⟨0, #[], #[], #[true], pinned, pc⟩, Scanner.mk [], #[]⟩
    have hstart : m.start = ⟨0, #[], #[], #[true], none, 0⟩ := by decide +kernel
    have hrun : m.Executes (point none 0) [.mark 0, .pin 0, .goto, .mark 0, .pin 0]
        (point (some 0) 2) := by
      refine executes_cons_iff.mpr ⟨_, point none 1, rfl, rfl, rfl, ?_⟩
      refine executes_cons_iff.mpr ⟨_, point (some 0) 2, rfl, rfl, rfl, ?_⟩
      refine executes_cons_iff.mpr ⟨_, point (some 0) 0, rfl, rfl, rfl, ?_⟩
      refine executes_cons_iff.mpr ⟨_, point (some 0) 1, rfl, rfl, rfl, ?_⟩
      exact executes_cons_iff.mpr ⟨_, point (some 0) 2, rfl, rfl, rfl, .done⟩
    have hm : Machine.load spin = .ok m := rfl
    obtain ⟨-, -, hjumps⟩ := only_jumps_go_back (σ := Scanner) hm
    obtain ⟨-, hfewer⟩ := hjumps _ _ [.mark 0, .pin 0] [.mark 0, .pin 0] hrun (by decide)
    exact ⟨m, _, hm, by rw [hstart]; exact hrun, rfl, hfewer _ rfl rfl⟩

end Machine

end Contrary
