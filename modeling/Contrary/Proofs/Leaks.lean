import Contrary.Proofs.Histories
import Contrary.Proofs.Names

/-!
# What a run leaves alive

What is alive in a running program is told by its history alone: a variable or an array by its
last definition or undefinition, a flag by whether it was ever unmarked, and the pinned flag by
the last pin.

**Histories.**  `InForce` says that an operation of a history has not been called off since,
and `LeftAlive` says with it what a history leaves alive.  Both have one rule for one more
operation, and `Liveness.after` follows the same rule (`lives_after_iff`).

**Leaks.**  At the end of a program the first entry that is alive is a leak, in the order
`NameKind.rank` of the kinds and then by handles (`leaked?_eq_some_iff`).

**Results.**
* `Executes.remembers`: what is alive after a history is what the history has left alive.
* `liveness_is_the_history`: hence which runs finish, and what the others leak.
-/

namespace Contrary

/-- The place of a kind in the search for leaks. -/
def NameKind.rank : NameKind → Nat
  | .variable => 0
  | .array => 1
  | .flag => 2

/-- An operation of a history that no later one has called off. -/
def InForce (history : List Op) (op : Op) (off : Op → Prop) : Prop :=
  ∃ before later, history = before ++ op :: later ∧ ∀ op' ∈ later, ¬ off op'

/-- What a history leaves alive: the variables and arrays that were defined and have not been
undefined since, and the flags that were never unmarked. -/
def LeftAlive (history : List Op) : NameKind → Nat → Prop
  | .variable, v => InForce history (.define v) (· = .undefine v)
  | .array, a => InForce history (.defineArray a) (· = .undefineArray a)
  | .flag, f => .unmark f ∉ history

/-- An operation that brings an entry to life.  No operation does so for a flag. -/
def NameKind.Starts (op : Op) : NameKind → Nat → Prop
  | .variable, v => op = .define v
  | .array, a => op = .defineArray a
  | .flag, _ => False

/-- The operation that kills an entry. -/
def NameKind.stop : NameKind → Nat → Op
  | .variable, v => .undefine v
  | .array, a => .undefineArray a
  | .flag, f => .unmark f

/-- A history that leaves nothing alive. -/
def Released (names : Names) (history : List Op) : Prop :=
  ∀ k h, h < (names.table k).length → ¬ LeftAlive history k h

/-- The first name that a history leaves alive: of the variables, the arrays and the flags in
this order, and of one kind by the handles. -/
def FirstLeft (names : Names) (history : List Op) (name : Bytes) : Prop :=
  ∃ k h, (names.table k)[h]? = some name ∧ LeftAlive history k h ∧
    ∀ k' h', h' < (names.table k').length → (k'.rank < k.rank ∨ k' = k ∧ h' < h) →
      ¬ LeftAlive history k' h'

section Rules

variable {history : List Op} {op : Op}

theorem not_inForce_nil
    {off : Op → Prop} :
    ¬ InForce [] op off := by
  rintro ⟨before, later, h, -⟩
  exact List.append_ne_nil_of_right_ne_nil _ (List.cons_ne_nil _ _) h.symm

/-- One more operation is in force, and so is what was, unless it is called off. -/
theorem inForce_concat_iff
    {on : Op} {off : Op → Prop} :
    InForce (history ++ [op]) on off ↔ op = on ∨ InForce history on off ∧ ¬ off op := by
  constructor
  · rintro ⟨before, later, hsplit, hlater⟩
    rcases List.eq_nil_or_concat later with rfl | ⟨later, last, rfl⟩
    · obtain ⟨-, hop⟩ := List.append_inj' hsplit rfl
      exact .inl (List.cons.inj hop).1
    · rw [List.concat_eq_append, ← List.cons_append, ← List.append_assoc] at hsplit
      obtain ⟨hhistory, hop⟩ := List.append_inj' hsplit rfl
      obtain rfl : op = last := (List.cons.inj hop).1
      refine .inr ⟨⟨before, later, hhistory, ?_⟩, hlater _ (by simp)⟩
      intro op' hop'
      exact hlater op' (by simp [hop'])
  · rintro (rfl | ⟨⟨before, later, rfl, hlater⟩, hop⟩)
    · exact ⟨history, [], rfl, by simp⟩
    · refine ⟨before, later ++ [op], by simp, ?_⟩
      intro op' hop'
      rcases List.mem_append.mp hop' with hmem | hmem
      · exact hlater op' hmem
      · rwa [List.mem_singleton.mp hmem]

theorem leftAlive_nil_iff
    {k : NameKind} {h : Nat} :
    LeftAlive [] k h ↔ k = .flag := by
  cases k <;> simp [LeftAlive, not_inForce_nil]

theorem leftAlive_concat_iff
    {k : NameKind} {h : Nat} :
    LeftAlive (history ++ [op]) k h ↔
      NameKind.Starts op k h ∨ LeftAlive history k h ∧ op ≠ k.stop h := by
  cases k with
  | «variable» => exact inForce_concat_iff
  | array => exact inForce_concat_iff
  | flag => simp [LeftAlive, NameKind.Starts, NameKind.stop, eq_comm]

end Rules

namespace Liveness

/-- What is alive of a kind, in the order of the handles. -/
def table (w : Liveness) : NameKind → Array Bool
  | .variable => w.vars
  | .array => w.arrays
  | .flag => w.flags

/-- The entry of a kind with a handle is alive. -/
def Lives (w : Liveness) (k : NameKind) (h : Nat) : Prop :=
  (w.table k)[h]? = some true

section After

variable {w : Liveness} {op : Op} {k : NameKind} {h : Nat}

theorem size_table_after
    (w : Liveness) (op : Op) (k : NameKind) :
    ((w.after op).table k).size = (w.table k).size := by
  cases op <;> cases k <;> simp [after, table]

theorem getElem?_setIfInBounds_true
    {bits : Array Bool} {i : Nat}
    (hlt : h < bits.size) :
    (bits.setIfInBounds i true)[h]? = some true ↔ i = h ∨ bits[h]? = some true := by
  rw [Array.getElem?_setIfInBounds]
  split_ifs with hi hsize
  · simp [hi]
  · exact absurd (hi ▸ hlt) hsize
  · simp [hi]

theorem getElem?_setIfInBounds_false
    {bits : Array Bool} {i : Nat} :
    (bits.setIfInBounds i false)[h]? = some true ↔ bits[h]? = some true ∧ ¬ i = h := by
  rw [Array.getElem?_setIfInBounds]
  split_ifs with hi <;> simp [hi]

/-- What is alive follows the rule of `leftAlive_concat_iff`. -/
theorem lives_after_iff
    (hlt : h < (w.table k).size) :
    (w.after op).Lives k h ↔ NameKind.Starts op k h ∨ w.Lives k h ∧ op ≠ k.stop h := by
  cases k with
  | «variable» =>
      have hset {v : Nat} := getElem?_setIfInBounds_true (i := v) (show h < w.vars.size from hlt)
      cases op <;> simp [after, table, Lives, NameKind.Starts, NameKind.stop, hset,
        getElem?_setIfInBounds_false]
  | array =>
      have hset {a : Nat} := getElem?_setIfInBounds_true (i := a) (show h < w.arrays.size from hlt)
      cases op <;> simp [after, table, Lives, NameKind.Starts, NameKind.stop, hset,
        getElem?_setIfInBounds_false]
  | flag =>
      cases op <;> simp [after, table, Lives, NameKind.Starts, NameKind.stop,
        getElem?_setIfInBounds_false]

theorem pinned_after_iff
    {f : Nat} :
    (w.after op).pinned = some f ↔ op = .pin f ∨ w.pinned = some f ∧ ¬ ∃ g, op = .pin g := by
  cases op <;> simp [after]

end After

/-- A liveness that a history has brought about, in tables of the given names: what is alive is
what the history has left alive, and pinned is the flag of its last pin. -/
structure Remembers (w : Liveness) (names : Names) (history : List Op) : Prop where
  size : ∀ k, (w.table k).size = (names.table k).length
  lives : ∀ k h, h < (names.table k).length → (w.Lives k h ↔ LeftAlive history k h)
  pinned : ∀ f, w.pinned = some f ↔ InForce history (.pin f) fun op => ∃ g, op = .pin g

/-- One more operation. -/
theorem Remembers.after
    {w : Liveness} {names : Names} {history : List Op}
    (hw : w.Remembers names history) (op : Op) :
    (w.after op).Remembers names (history ++ [op]) where
  size k := (w.size_table_after op k).trans (hw.size k)
  lives k h hlt := by
    rw [lives_after_iff (by rwa [hw.size]), leftAlive_concat_iff, hw.lives k h hlt]
  pinned f := by
    rw [pinned_after_iff, inForce_concat_iff, hw.pinned f]

end Liveness

namespace Machine

variable {σ : Type} {m : Machine} {r r' : Run σ} {ops : List Op}

/-- Before the first operation, the flags are alive and nothing else is. -/
theorem remembers_start
    (m : Machine) :
    m.start.liveness.Remembers m.program.names [] where
  size k := by cases k <;> simp [start, State.liveness, Liveness.table, Names.table]
  lives k h hlt := by
    rw [leftAlive_nil_iff]
    cases k with
    | «variable» => simp [start, State.liveness, Liveness.Lives, Liveness.table]
    | array => simp [start, State.liveness, Liveness.Lives, Liveness.table]
    | flag =>
        have hflag : h < m.program.names.flags.size := hlt
        simp [start, State.liveness, Liveness.Lives, Liveness.table,
          Array.getElem?_eq_getElem hflag]
  pinned f := by simp [start, State.liveness, not_inForce_nil]

section Runs

variable [NumberSource σ]

/-- What is alive after some operations of a run is what the whole history has left alive. -/
theorem Executes.remembers
    {history : List Op}
    (h : m.Executes r ops r')
    (hr : r.state.liveness.Remembers m.program.names history) :
    r'.state.liveness.Remembers m.program.names (history ++ ops) := by
  induction h generalizing history with
  | done => rwa [List.append_nil]
  | @next r r₁ r' l ops hl hnext _ ih =>
      have hr₁ : r₁.state.liveness.Remembers m.program.names (history ++ [l.op]) := by
        rw [(next?_outline hl hnext).liveness]
        exact hr.after l.op
      rw [List.append_cons]
      exact ih hr₁

/-- A step that stops the program leaves alive what is alive. -/
theorem step_liveness_of_halt
    {s : State} {input : σ} {halt : Halt}
    (h : (m.step s input).halt = some halt) :
    (m.step s input).state.liveness = s.liveness := by
  by_cases hslips : ∃ d q, m.Slips s d q
  · obtain ⟨d, q, hslips⟩ := hslips
    obtain ⟨-, -, -, hshifted⟩ := step_of_slips hslips input
    simp only [State.liveness, hshifted.liveVars, hshifted.liveArrays, hshifted.flags,
      hshifted.pinned]
  · have hslips : ∀ d q, ¬ m.Slips s d q := fun d q hq => hslips ⟨d, q, hq⟩
    rw [(step_keeps h hslips).1]
    rfl

end Runs

section Leaks

/-- The first name of a kind that is alive. -/
def leakedOf? (m : Machine) (s : State) (k : NameKind) : Option Bytes :=
  (((m.program.names.table k).zip (s.liveness.table k).toList).find? (·.2)).map (·.1)

theorem leaked?_eq
    (m : Machine) (s : State) :
    m.leaked? s =
      (m.leakedOf? s .variable).or ((m.leakedOf? s .array).or (m.leakedOf? s .flag)) := by
  simp [leaked?, leakedOf?, Names.table, Liveness.table, State.liveness]

variable {s : State} {k : NameKind} {name : Bytes}

theorem mem_zip_iff
    {h : Nat} {alive : Bool} :
    ((m.program.names.table k).zip (s.liveness.table k).toList)[h]? = some (name, alive) ↔
      (m.program.names.table k)[h]? = some name ∧ (s.liveness.table k)[h]? = some alive := by
  have hbit : (s.liveness.table k).toList[h]? = (s.liveness.table k)[h]? := Array.getElem?_toList
  rw [List.getElem?_zip_eq_some, hbit]

theorem leakedOf?_eq_none_iff :
    m.leakedOf? s k = none ↔
      ∀ h, h < (m.program.names.table k).length → ¬ s.liveness.Lives k h := by
  rw [leakedOf?, Option.map_eq_none_iff, List.find?_eq_none]
  constructor
  · intro hdead h hlt hlives
    have hentry := mem_zip_iff.mpr ⟨List.getElem?_eq_getElem hlt, hlives⟩
    exact hdead _ (List.mem_of_getElem? hentry) rfl
  · rintro hdead ⟨name, alive⟩ hmem halive
    obtain ⟨h, hh⟩ := List.mem_iff_getElem?.mp hmem
    obtain ⟨hname, hbit⟩ := mem_zip_iff.mp hh
    obtain ⟨hlt, -⟩ := List.getElem?_eq_some_iff.mp hname
    exact hdead h hlt (by rwa [show alive = true from halive] at hbit)

theorem leakedOf?_eq_some_iff :
    m.leakedOf? s k = some name ↔
      ∃ h, (m.program.names.table k)[h]? = some name ∧ s.liveness.Lives k h ∧
        ∀ h' < h, ¬ s.liveness.Lives k h' := by
  rw [leakedOf?, Option.map_eq_some_iff]
  constructor
  · rintro ⟨⟨_, alive⟩, hfind, rfl⟩
    obtain ⟨halive, h, hlt, hh, hbefore⟩ := List.find?_eq_some_iff_getElem.mp hfind
    obtain ⟨hname, hbit⟩ := mem_zip_iff.mp (List.getElem?_eq_some_iff.mpr ⟨hlt, hh⟩)
    refine ⟨h, hname, by rwa [show alive = true from halive] at hbit, ?_⟩
    intro h' hh' hlives
    obtain ⟨hlt', -⟩ := List.getElem?_eq_some_iff.mp hname
    have hentry := mem_zip_iff.mpr ⟨List.getElem?_eq_getElem (Nat.lt_trans hh' hlt'), hlives⟩
    obtain ⟨_, hentry⟩ := List.getElem?_eq_some_iff.mp hentry
    simpa [hentry] using hbefore h' hh'
  · rintro ⟨h, hname, hlives, hbefore⟩
    obtain ⟨hlt, hentry⟩ := List.getElem?_eq_some_iff.mp (mem_zip_iff.mpr ⟨hname, hlives⟩)
    refine ⟨(name, true), List.find?_eq_some_iff_getElem.mpr ⟨rfl, h, hlt, hentry, ?_⟩, rfl⟩
    intro h' hh'
    obtain ⟨-, hbit⟩ := mem_zip_iff.mp (List.getElem?_eq_getElem (Nat.lt_trans hh' hlt))
    rw [Bool.not_eq_true', ← Bool.not_eq_true]
    exact fun halive => hbefore h' hh' (hbit.trans (congrArg some halive))

theorem leaked?_eq_none_iff :
    m.leaked? s = none ↔
      ∀ k h, h < (m.program.names.table k).length → ¬ s.liveness.Lives k h := by
  rw [leaked?_eq, Option.or_eq_none_iff, Option.or_eq_none_iff, leakedOf?_eq_none_iff,
    leakedOf?_eq_none_iff, leakedOf?_eq_none_iff]
  constructor
  · rintro ⟨hvars, harrays, hflags⟩ k
    cases k with
    | «variable» => exact hvars
    | array => exact harrays
    | flag => exact hflags
  · exact fun hdead => ⟨hdead .variable, hdead .array, hdead .flag⟩

/-- The kinds are searched by rank. -/
theorem leaked?_eq_some_iff_leakedOf? :
    m.leaked? s = some name ↔
      ∃ k, m.leakedOf? s k = some name ∧ ∀ k', k'.rank < k.rank → m.leakedOf? s k' = none := by
  rw [leaked?_eq, Option.or_eq_some_iff, Option.or_eq_some_iff]
  constructor
  · rintro (hvar | ⟨hvar, harray | ⟨harray, hflag⟩⟩)
    · exact ⟨.variable, hvar, fun k' hk' => absurd hk' (Nat.not_lt_zero _)⟩
    · refine ⟨.array, harray, fun k' hk' => ?_⟩
      cases k' with
      | «variable» => exact hvar
      | array => exact absurd hk' (Nat.lt_irrefl _)
      | flag => exact absurd hk' (by decide)
    · refine ⟨.flag, hflag, fun k' hk' => ?_⟩
      cases k' with
      | «variable» => exact hvar
      | array => exact harray
      | flag => exact absurd hk' (Nat.lt_irrefl _)
  · rintro ⟨k, hk, hbefore⟩
    cases k with
    | «variable» => exact .inl hk
    | array => exact .inr ⟨hbefore .variable (by decide), .inl hk⟩
    | flag =>
        exact .inr ⟨hbefore .variable (by decide), .inr ⟨hbefore .array (by decide), hk⟩⟩

/-- The first entry that is alive: what is of an earlier kind, or of the same kind with a
smaller handle, is dead. -/
theorem leaked?_eq_some_iff :
    m.leaked? s = some name ↔
      ∃ k h, (m.program.names.table k)[h]? = some name ∧ s.liveness.Lives k h ∧
        ∀ k' h', h' < (m.program.names.table k').length →
          (k'.rank < k.rank ∨ k' = k ∧ h' < h) → ¬ s.liveness.Lives k' h' := by
  simp only [leaked?_eq_some_iff_leakedOf?, leakedOf?_eq_some_iff, leakedOf?_eq_none_iff]
  constructor
  · rintro ⟨k, ⟨h, hname, hlives, hsmaller⟩, hearlier⟩
    refine ⟨k, h, hname, hlives, ?_⟩
    rintro k' h' hlt (hrank | ⟨rfl, hh'⟩)
    · exact hearlier k' hrank h' hlt
    · exact hsmaller h' hh'
  · rintro ⟨k, h, hname, hlives, hbefore⟩
    obtain ⟨hlt, -⟩ := List.getElem?_eq_some_iff.mp hname
    refine ⟨k, ⟨h, hname, hlives, fun h' hh' => ?_⟩, fun k' hrank h' hlt' => ?_⟩
    · exact hbefore k h' (Nat.lt_trans hh' hlt) (.inr ⟨rfl, hh'⟩)
    · exact hbefore k' h' hlt' (.inl hrank)

/-- What leaks is the first name that the history has left alive. -/
theorem leaked?_eq_some_iff_firstLeft
    (hs : s.liveness.Remembers m.program.names ops) :
    m.leaked? s = some name ↔ FirstLeft m.program.names ops name := by
  rw [leaked?_eq_some_iff]
  constructor
  · rintro ⟨k, h, hname, hlives, hbefore⟩
    obtain ⟨hlt, -⟩ := List.getElem?_eq_some_iff.mp hname
    refine ⟨k, h, hname, (hs.lives k h hlt).mp hlives, fun k' h' hlt' hfirst hleft => ?_⟩
    exact hbefore k' h' hlt' hfirst ((hs.lives k' h' hlt').mpr hleft)
  · rintro ⟨k, h, hname, hleft, hbefore⟩
    obtain ⟨hlt, -⟩ := List.getElem?_eq_some_iff.mp hname
    refine ⟨k, h, hname, (hs.lives k h hlt).mpr hleft, fun k' h' hlt' hfirst hlives => ?_⟩
    exact hbefore k' h' hlt' hfirst ((hs.lives k' h' hlt').mp hlives)

theorem leaked?_eq_none_iff_released
    (hs : s.liveness.Remembers m.program.names ops) :
    m.leaked? s = none ↔ Released m.program.names ops := by
  rw [leaked?_eq_none_iff]
  exact forall₃_congr fun k h hlt => not_congr (hs.lives k h hlt)

theorem finish_of_released
    (hr : r.state.liveness.Remembers m.program.names ops)
    (h : Released m.program.names ops) :
    m.finish r = (r, .finished) := by
  simp only [finish, finalHalt?, (leaked?_eq_none_iff_released hr).mpr h, Option.map_none]

theorem finish_of_firstLeft
    (hr : r.state.liveness.Remembers m.program.names ops)
    (h : FirstLeft m.program.names ops name) :
    m.finish r =
      ({ r with output := r.output ++ (ascii "ABORTED\nMemory leaked: " ++ name ++
          ascii ". Everything should be undefined at the end using \"define\"") },
        .halted (.abort (.leak name))) := by
  simp only [finish, finalHalt?, (leaked?_eq_some_iff_firstLeft hr).mpr h, Option.map_some,
    Halt.output, Abort.message]

/-- A history leaves nothing alive, or there is a first name that it does. -/
theorem released_or_firstLeft
    (hs : s.liveness.Remembers m.program.names ops) :
    Released m.program.names ops ∨ ∃ name, FirstLeft m.program.names ops name := by
  cases hleaked : m.leaked? s with
  | none => exact .inl ((leaked?_eq_none_iff_released hs).mp hleaked)
  | some name => exact .inr ⟨name, (leaked?_eq_some_iff_firstLeft hs).mp hleaked⟩

end Leaks

section Endings

variable [NumberSource σ] {input : σ} {limit : Nat}

/-- Where the history of a run with a limit ends, and what is alive there. -/
theorem exists_executes_run
    (m : Machine) (limit : Nat) (input : σ) :
    ∃ ops r, ops.length ≤ limit ∧ m.Executes ⟨m.start, input, #[]⟩ ops r ∧
      (m.run limit input).1.state.liveness = r.state.liveness := by
  obtain ⟨ops, r, hlength, hrun, hends⟩ := m.exists_executes_runFor limit ⟨m.start, input, #[]⟩
  refine ⟨ops, r, hlength, hrun, ?_⟩
  rcases hends with ⟨-, hout⟩ | ⟨r', halt, -, hadvance, hout⟩ | hout
  · rw [run, hout, finish]
    cases m.finalHalt? r.state <;> rfl
  · rw [run, hout]
    obtain ⟨rfl, hhalt⟩ := Prod.mk.inj hadvance
    exact step_liveness_of_halt hhalt
  · rw [run, hout]

/-- A run finishes with a history that leads to the end and leaves nothing alive. -/
theorem run_eq_finished_iff :
    m.run limit input = (r, .finished) ↔
      ∃ ops, ops.length ≤ limit ∧ m.Executes ⟨m.start, input, #[]⟩ ops r ∧
        m.atEnd r.state = true ∧ Released m.program.names ops := by
  constructor
  · intro h
    obtain ⟨ops, r', hlength, hrun, hends⟩ := m.exists_executes_runFor limit ⟨m.start, input, #[]⟩
    have hr' := hrun.remembers m.remembers_start
    rcases hends with ⟨hend, hout⟩ | ⟨r'', halt, -, -, hout⟩ | hout
    · rcases released_or_firstLeft hr' with hreleased | ⟨name, hfirst⟩
      · rw [finish_of_released hr' hreleased] at hout
        obtain ⟨rfl, -⟩ := Prod.mk.inj (hout.symm.trans h)
        exact ⟨ops, hlength, hrun, hend, hreleased⟩
      · rw [finish_of_firstLeft hr' hfirst] at hout
        exact Ending.noConfusion (Prod.mk.inj (hout.symm.trans h)).2
    · exact Ending.noConfusion (Prod.mk.inj (hout.symm.trans h)).2
    · exact Ending.noConfusion (Prod.mk.inj (hout.symm.trans h)).2
  · rintro ⟨ops, hlength, hrun, hend, hreleased⟩
    exact (hrun.runFor hend hlength).trans
      (finish_of_released (hrun.remembers m.remembers_start) hreleased)

/-- The same without a limit. -/
theorem ends_finished_iff :
    m.Ends ⟨m.start, input, #[]⟩ (r, .finished) ↔
      ∃ ops, m.Executes ⟨m.start, input, #[]⟩ ops r ∧ m.atEnd r.state = true ∧
        Released m.program.names ops := by
  rw [ends_iff]
  constructor
  · rintro ⟨limit, h, -⟩
    obtain ⟨ops, -, hrun, hend, hreleased⟩ := run_eq_finished_iff.mp h
    exact ⟨ops, hrun, hend, hreleased⟩
  · rintro ⟨ops, hrun, hend, hreleased⟩
    exact ⟨ops.length, run_eq_finished_iff.mpr ⟨ops, Nat.le_refl _, hrun, hend, hreleased⟩,
      Ending.noConfusion⟩

end Endings

/-- **Liveness is the history.**  After every history of a run, alive is exactly what the history
has left alive, and pinned is the flag of the last pin; a flag that is dead stays dead.  A run
that a limit or an operation stops is no exception.  Hence a run finishes exactly if it reaches
the end with a history that leaves nothing alive: every variable and array dead, every flag
unmarked.  If it reaches the end otherwise, it aborts, and the last thing that it writes is the
message with the first name that is left. -/
theorem liveness_is_the_history
    [NumberSource σ] (m : Machine) (input : σ) :
    (∀ ops r, m.Executes ⟨m.start, input, #[]⟩ ops r →
      r.state.liveness.Remembers m.program.names ops ∧
      (∀ ops' r' f, m.Executes r ops' r' → f < (m.program.names.table .flag).length →
        ¬ r.state.liveness.Lives .flag f → ¬ r'.state.liveness.Lives .flag f) ∧
      (m.atEnd r.state = true →
        (Released m.program.names ops ∧
          ∀ limit, ops.length ≤ limit → m.run limit input = (r, .finished)) ∨
        ∃ name, FirstLeft m.program.names ops name ∧
          ∀ limit, ops.length ≤ limit →
            m.run limit input =
              ({ r with output := r.output ++ (ascii "ABORTED\nMemory leaked: " ++ name ++
                  ascii ". Everything should be undefined at the end using \"define\"") },
                .halted (.abort (.leak name))))) ∧
    (∀ limit, ∃ ops r, ops.length ≤ limit ∧ m.Executes ⟨m.start, input, #[]⟩ ops r ∧
      (m.run limit input).1.state.liveness = r.state.liveness) ∧
    ∀ r,
      (∀ limit, m.run limit input = (r, .finished) ↔
        ∃ ops, ops.length ≤ limit ∧ m.Executes ⟨m.start, input, #[]⟩ ops r ∧
          m.atEnd r.state = true ∧ Released m.program.names ops) ∧
      (m.Ends ⟨m.start, input, #[]⟩ (r, .finished) ↔
        ∃ ops, m.Executes ⟨m.start, input, #[]⟩ ops r ∧ m.atEnd r.state = true ∧
          Released m.program.names ops) := by
  refine ⟨fun ops r hrun => ?_, fun limit => m.exists_executes_run limit input,
    fun r => ⟨fun limit => run_eq_finished_iff, ends_finished_iff⟩⟩
  have hr := hrun.remembers m.remembers_start
  refine ⟨hr, fun ops' r' f hrun' hf hdead hlives => ?_, fun hend => ?_⟩
  · have hnever : .unmark f ∉ ops ++ ops' := ((hrun'.remembers hr).lives .flag f hf).mp hlives
    exact hdead ((hr.lives .flag f hf).mpr fun hmem => hnever (List.mem_append_left _ hmem))
  · rcases released_or_firstLeft hr with hreleased | ⟨name, hfirst⟩
    · refine .inl ⟨hreleased, fun limit hlimit => ?_⟩
      exact (hrun.runFor hend hlimit).trans (finish_of_released hr hreleased)
    · refine .inr ⟨name, hfirst, fun limit hlimit => ?_⟩
      exact (hrun.runFor hend hlimit).trans (finish_of_firstLeft hr hfirst)

/-- Leaves a variable and a flag alive, and another variable dead. -/
def leaveTwo : Machine where
  program :=
    { names := ⟨#[ascii "x", ascii "y"], #[], #[ascii "L"]⟩
      ops :=
        #[ ⟨.define 0, 1, ascii "undefine x"⟩,
          ⟨.undefine 0, 2, ascii "define x"⟩,
          ⟨.define 1, 3, ascii "undefine y"⟩,
          ⟨.mark 0, 4, ascii "unmark L"⟩ ]
      lineCount := 4 }
  closing := #[none, none, none, none]
  marks := #[3]

/-- It leaks the variable.  The program that shows a variable leaks nothing. -/
theorem leaveTwo_leaks :
    (∃ r, leaveTwo.Executes ⟨leaveTwo.start, Scanner.mk [], #[]⟩
        [.define 0, .undefine 0, .define 1, .mark 0] r ∧
      FirstLeft leaveTwo.program.names [.define 0, .undefine 0, .define 1, .mark 0] (ascii "y") ∧
      leaveTwo.run 1000 (Scanner.mk []) =
        ({ r with output := (ascii
            "ABORTED\nMemory leaked: y. Everything should be undefined at the end using \"define\""
            ).toArray },
          .halted (.abort (.leak (ascii "y"))))) ∧
    ∃ ops, ops.length ≤ 3 ∧
      showZero.Executes ⟨showZero.start, Scanner.mk [], #[]⟩ ops
        (showZero.run 3 (Scanner.mk [])).1 ∧
      Released showZero.program.names ops := by
  constructor
  · let point (x y : Cell) (pc : Nat) : Run Scanner :=
      ⟨⟨0, #[x, y], #[], #[true], none, pc⟩, Scanner.mk [], #[]⟩
    have hstart : leaveTwo.start = (point ⟨0, false⟩ ⟨0, false⟩ 0).state := by decide +kernel
    have hrun : leaveTwo.Executes ⟨leaveTwo.start, Scanner.mk [], #[]⟩
        [.define 0, .undefine 0, .define 1, .mark 0] (point ⟨-0, false⟩ ⟨-0, true⟩ 4) := by
      rw [hstart]
      refine executes_cons_iff.mpr ⟨_, point ⟨-0, true⟩ ⟨0, false⟩ 1, rfl, rfl, rfl, ?_⟩
      refine executes_cons_iff.mpr ⟨_, point ⟨-0, false⟩ ⟨0, false⟩ 2, rfl, rfl, rfl, ?_⟩
      refine executes_cons_iff.mpr ⟨_, point ⟨-0, false⟩ ⟨-0, true⟩ 3, rfl, rfl, rfl, ?_⟩
      exact executes_cons_iff.mpr ⟨_, point ⟨-0, false⟩ ⟨-0, true⟩ 4, rfl, rfl, rfl, .done⟩
    have hending : (leaveTwo.run 4 (Scanner.mk [])).2 = .halted (.abort (.leak (ascii "y"))) := by
      decide +kernel
    obtain ⟨hhistory, -⟩ := liveness_is_the_history leaveTwo (Scanner.mk [])
    obtain ⟨-, -, hends⟩ := hhistory _ _ hrun
    rcases hends rfl with ⟨-, hout⟩ | ⟨name, hfirst, hout⟩
    · rw [hout 4 (Nat.le_refl 4)] at hending
      cases hending
    · rw [hout 4 (Nat.le_refl 4)] at hending
      cases hending
      have houtput : (#[] : Array UInt8) ++ (ascii "ABORTED\nMemory leaked: " ++ ascii "y" ++
          ascii ". Everything should be undefined at the end using \"define\"") =
            (ascii
              "ABORTED\nMemory leaked: y. Everything should be undefined at the end using \"define\""
              ).toArray := by
        decide +kernel
      refine ⟨_, hrun, hfirst, (hout 1000 (by decide)).trans ?_⟩
      rw [← houtput]
  · have hending : (showZero.run 3 (Scanner.mk [])).2 = .finished := by decide +kernel
    obtain ⟨-, -, hfinished⟩ := liveness_is_the_history showZero (Scanner.mk [])
    obtain ⟨ops, hlength, hrun, -, hreleased⟩ :=
      ((hfinished (showZero.run 3 (Scanner.mk [])).1).1 3).mp (Prod.ext rfl hending)
    exact ⟨ops, hlength, hrun, hreleased⟩

end Machine

end Contrary
