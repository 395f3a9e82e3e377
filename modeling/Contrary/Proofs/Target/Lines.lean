import Contrary.Proofs.Blocks
import Contrary.Proofs.Target.Mirror

/-!
# A line of the generated C does what its operation does

`Agrees` compares the outcome of an operation with the effect of statements: if
the operation goes on, so do they, with the same output and with a process that
mirrors the new state; if it aborts, they quit after the same message.

Every operation that is not a bound of a block and not a jump agrees with its
line (`agrees_line`).  The statements of an operation are checks, which guard it,
and then what it does; `agrees_of_guards` takes the checks off.
-/

namespace Contrary
namespace Target

variable {σ : Type} {names : Names} {s s' : State} {c : Process σ} {l : OpLine} {pc : Nat}

/-- Statements that start with the process `c` have the outcome `t` of an
operation, after which the machine is at position `pc`. -/
def Agrees (names : Names) (c : Process σ) (pc : Nat) (t : Step σ) (e : Effect σ) : Prop :=
  match t.halt with
  | none =>
      t.state.pc = pc ∧ ∃ c', e = .next c' ∧ Mirrors names t.state c' ∧ c'.input = t.input ∧
        c'.output = c.output ++ t.output
  | some (.abort _) => ∃ c', e = .quit c' 1 ∧ c'.output = c.output ++ t.output
  | some _ => True

theorem agrees_next
    {e : Effect σ} (memory : Memory)
    (he : e = .next { c with memory := memory })
    (hm : Mirrors names s' { c with memory := memory })
    (hpc : s'.pc = pc) :
    Agrees names c pc (Step.next s' c.input) e :=
  ⟨hpc, _, he, hm, rfl, by simp [Step.next]⟩

/-- Where a place is not found, the operation fails, and nothing is asked. -/
theorem agrees_of_address_error
    {t : Step σ} {e : Effect σ} {target : Place} {h : Halt}
    (haddr : s.address names l target = .error h)
    (hhalt : t.halt = some h) :
    Agrees names c pc t e := by
  unfold Agrees
  rw [hhalt]
  cases h with
  | abort cause => exact absurd haddr address_ne_abort
  | failure line text cause => trivial
  | stray => trivial

section Guarded

variable [NumberSource σ]

/-- Checks that guard an operation can be left out. -/
theorem agrees_of_guards
    {α : Type} {r : Except Halt α} {t : Step σ} {ss ts : List Stmt}
    (hguards : Guards c r (execAll c ss))
    (herror : ∀ h, r = .error h → t.halt = some h ∧ t.output = h.output)
    (hok : ∀ a, r = .ok a → Agrees names c pc t (execAll c ts)) :
    Agrees names c pc t (execAll c (ss ++ ts)) := by
  rw [execAll_append]
  cases r with
  | ok a =>
      have hnext : execAll c ss = .next c := hguards
      rw [hnext]
      exact hok a rfl
  | error h =>
      obtain ⟨hhalt, hout⟩ := herror h rfl
      unfold Agrees
      rw [hhalt]
      cases h with
      | abort cause =>
          have hquit : execAll c ss = .quit (c.write cause.message) 1 := hguards
          rw [hquit]
          exact ⟨_, rfl, by rw [hout]; rfl⟩
      | failure line text cause => trivial
      | stray => trivial

/-- A liveness variable is set. -/
theorem exec_setLive
    (it : Item) {b b' : Bool}
    (hm : Mirrors names s c)
    (hold : it.object? s = some (.bool b))
    (hu : Updates names s it (.bool b') s') :
    ∃ memory, (Stmt.setLive (it.ident names) b').exec c = .next { c with memory := memory } ∧
      Mirrors names s' { c with memory := memory } := by
  refine ⟨_, ?_, hm.put hu⟩
  simp [Stmt.exec, hm.bool? it hold, Effect.ofOption]

theorem agrees_setLive
    (it : Item) {b b' : Bool}
    (hm : Mirrors names s c)
    (hold : it.object? s = some (.bool b))
    (hu : Updates names s it (.bool b') s') :
    Agrees names c s.pc (Step.next s' c.input) (execAll c [.setLive (it.ident names) b']) := by
  obtain ⟨memory, hexec, hm'⟩ := exec_setLive it hm hold hu
  refine agrees_next memory ?_ hm' hu.pc
  simp only [execAll, hexec]

end Guarded

/-- The loop over an array stores the number in every element. -/
theorem fill_eq_map
    (n : Int32) (cells : Array Int32) :
    ∀ count ≤ cells.size, ∃ filled, fill n count cells = some filled ∧
      filled.size = cells.size ∧
      ∀ i < cells.size, filled[i]? = if i < count then some n else cells[i]? := by
  intro count
  induction count with
  | zero =>
      intro _
      exact ⟨cells, rfl, rfl, by simp⟩
  | succ count ih =>
      intro hle
      obtain ⟨filled, hfill, hsize, hentries⟩ := ih (by omega)
      have hlt : count < filled.size := by omega
      refine ⟨filled.setIfInBounds count n, ?_, by simpa using hsize, ?_⟩
      · simp [fill, hfill, hlt]
      · intro i hi
        by_cases heq : count = i
        · subst heq
          simp [hlt]
        · rw [Array.getElem?_setIfInBounds_ne heq, hentries i hi]
          have hiff : i < count ↔ i < count + 1 := by omega
          simp only [hiff]

theorem fill_all
    (n : Int32) (cells : Array Int32) :
    fill n cells.size cells = some (cells.map fun _ => n) := by
  obtain ⟨filled, hfill, hsize, hentries⟩ := fill_eq_map n cells cells.size (Nat.le_refl _)
  rw [hfill]
  congr 1
  refine Array.ext (by simpa using hsize) ?_
  intro i hi _
  have hentry := hentries i (by omega)
  rw [if_pos (by omega), Array.getElem?_eq_getElem hi] at hentry
  simpa using hentry

section Definitions

variable [NumberSource σ] (hm : Mirrors names s c)

include hm

theorem agrees_define (v : Nat) :
    Agrees names c s.pc (Step.ofState s c.input (s.define v))
      (execAll c (statements names (.define v))) := by
  unfold State.define
  split_ifs with hv
  · have hcell : s.vars[v]? = some s.vars[v] := Array.getElem?_eq_getElem hv
    obtain ⟨memory, hassign, hm'⟩ := hm.assign (q := .var v) ⟨_, hcell⟩ (fun _ => -c.global)
    have hcell' : (s.modify (fun _ => -c.global) (.var v)).vars[v]? =
        some ⟨-c.global, s.vars[v].live⟩ := by
      simp [State.modify, Array.getElem?_modify, hcell]
    have hu := updates_varLive hm'.fits (g := fun c => { c with live := true }) hcell' rfl
    obtain ⟨memory', hlive, hm''⟩ := exec_setLive (.varLive v) hm'
      (b := s.vars[v].live) (by simp [Item.object?, hcell']) hu
    have hclear : (Stmt.clear (varCell (names.varName v))).exec c =
        .next { c with memory := memory } :=
      congrArg Effect.ofOption hassign
    refine agrees_next memory' ?_ ?_ rfl
    · simp only [Item.ident] at hlive
      simp only [statements, execAll, hclear, hlive]
    · have hvars : s.vars.setIfInBounds v ⟨-s.offset, true⟩ =
          (s.modify (fun _ => -c.global) (.var v)).vars.modify v fun c => { c with live := true } := by
        refine Array.ext_getElem? ?_
        intro w
        by_cases hvw : v = w
        · subst hvw
          simp [hv, State.modify, Array.getElem_modify, hm.global]
        · simp [hvw, State.modify, Array.getElem?_modify]
      rw [hvars]
      exact hm''
  · trivial

theorem agrees_undefine (v : Nat) :
    Agrees names c s.pc (Step.ofState s c.input (s.undefine v))
      (execAll c (statements names (.undefine v))) := by
  unfold State.undefine
  split_ifs with hv
  · have hcell : s.vars[v]? = some s.vars[v] := Array.getElem?_eq_getElem hv
    exact agrees_setLive (.varLive v) hm (b := s.vars[v].live) (by simp [Item.object?, hcell])
      (updates_varLive hm.fits (g := fun c => { c with live := false }) hcell rfl)
  · trivial

theorem agrees_defineArray (a : Nat) :
    Agrees names c s.pc (Step.ofState s c.input (s.defineArray a))
      (execAll c (statements names (.defineArray a))) := by
  unfold State.defineArray
  split_ifs with ha
  · have hbank : s.arrays[a]? = some s.arrays[a] := Array.getElem?_eq_getElem ha
    have hfill : fill (-c.global) (names.arrayDecl a).size.toNat s.arrays[a].cells =
        some (s.arrays[a].cells.map fun _ => -c.global) := by
      rw [← hm.fits.cells a _ hbank]
      exact fill_all _ _
    have hu := updates_array hm.fits
      (g := fun b => { b with cells := b.cells.map fun _ => -c.global }) hbank rfl (by simp)
    obtain ⟨memory, hclear, hm'⟩ : ∃ memory,
        (Stmt.clearAll (arrayCell (names.arrayDecl a).name) (names.arrayDecl a).size).exec c =
            .next { c with memory := memory } ∧
          Mirrors names { s with arrays := s.arrays.modify a fun b =>
            { b with cells := b.cells.map fun _ => -c.global } } { c with memory := memory } := by
      refine ⟨_, ?_, hm.put hu⟩
      simp [Stmt.exec, hm.cells? hbank, hfill, Effect.ofOption, Item.ident]
    have hbank' :
        (s.arrays.modify a fun b => { b with cells := b.cells.map fun _ => -c.global })[a]? =
          some ⟨s.arrays[a].cells.map fun _ => -c.global, s.arrays[a].live⟩ := by
      simp [Array.getElem?_modify, hbank]
    have hu' := updates_arrayLive hu.fits (g := fun b => { b with live := true }) hbank' rfl
    obtain ⟨memory', hlive, hm''⟩ := exec_setLive (.arrayLive a) hm'
      (b := s.arrays[a].live) (by simp [Item.object?, hbank']) hu'
    refine agrees_next memory' ?_ ?_ rfl
    · simp only [Item.ident] at hlive
      simp only [statements, execAll, hclear, hlive]
    · have harrays : (s.arrays.modify a fun b => ⟨b.cells.map fun _ => -s.offset, true⟩) =
          (s.arrays.modify a fun b => { b with cells := b.cells.map fun _ => -c.global }).modify a
            fun b => { b with live := true } := by
        refine Array.ext_getElem? ?_
        intro w
        by_cases haw : a = w
        · subst haw
          simp [Array.getElem?_modify, hbank, hm.global]
        · simp [haw, Array.getElem?_modify]
      rw [harrays]
      exact hm''
  · trivial

theorem agrees_undefineArray (a : Nat) :
    Agrees names c s.pc (Step.ofState s c.input (s.undefineArray a))
      (execAll c (statements names (.undefineArray a))) := by
  unfold State.undefineArray
  split_ifs with ha
  · have hbank : s.arrays[a]? = some s.arrays[a] := Array.getElem?_eq_getElem ha
    exact agrees_setLive (.arrayLive a) hm (b := s.arrays[a].live)
      (by simp [Item.object?, hbank])
      (updates_arrayLive hm.fits (g := fun b => { b with live := false }) hbank rfl)
  · trivial

theorem agrees_unmark (f : Nat) :
    Agrees names c s.pc (Step.ofState s c.input (s.unmark f))
      (execAll c (statements names (.unmark f))) := by
  unfold State.unmark
  split_ifs with hf
  · exact agrees_setLive (.flagLive f) hm (b := s.flags[f]) (by simp [Item.object?, hf])
      (updates_flagLive hm.fits hf)
  · trivial

theorem agrees_pin (f : Nat) :
    Agrees names c s.pc (Step.ofState s c.input (s.pin f))
      (execAll c (statements names (.pin f))) := by
  unfold State.pin
  cases hf : s.flags[f]? with
  | none => trivial
  | some live =>
      have hguards := guards_assertLive (.flagLive f) hm (b := live)
        (by simp [Item.object?, hf])
      change Agrees names c s.pc _
        (execAll c ([.assertLive (Item.ident names (.flagLive f))] ++ [.take (names.flagName f)]))
      cases live with
      | true =>
          refine agrees_of_guards hguards ?_ ?_
          · intro h hh
            cases hh
          · intro _ _
            refine ⟨rfl, _, rfl, ⟨hm.defs, hm.distinct, ?_, hm.global, rfl, hm.memory⟩, rfl, ?_⟩
            · exact ⟨hm.fits.vars, hm.fits.arrays, hm.fits.flags, hm.fits.cells⟩
            · simp [Step.ofState, Step.next]
      | false =>
          refine agrees_of_guards hguards ?_ ?_
          · intro h hh
            cases hh
            exact ⟨rfl, rfl⟩
          · intro _ hok
            cases hok

end Definitions

section Changes

/-- A place stays where it is when its own number changes. -/
theorem address_modify_self
    {p : Place} {q : Address} {f : Int32 → Int32}
    (h : s.address names l p = .ok q) :
    (s.modify f q).address names l p = .ok q := by
  cases p with
  | var v =>
      simp only [State.address] at h ⊢
      split_ifs at h with hv
      cases h
      simp [State.modify, hv]
  | element a i =>
      simp only [State.address] at h ⊢
      obtain ⟨n, hn, h⟩ := bind_eq_ok_iff.mp h
      cases ha : s.arrays[a]? with
      | none =>
          rw [ha] at h
          cases h
      | some b =>
          simp only [ha] at h
          split_ifs at h with hrange
          cases h
          -- the index is a number or a variable, and an array has changed
          have hindex : (s.modify f (.cell a n.toInt.toNat)).indexValue i = .ok n := by
            cases i with
            | literal m => exact hn
            | var v => exact hn
          rw [hindex]
          simp [State.modify, Array.getElem?_modify, ha, bind, Except.bind, hrange]

theorem modify_modify
    (f g : Int32 → Int32) (q : Address) :
    (s.modify f q).modify g q = s.modify (fun n => g (f n)) q := by
  cases q with
  | var v =>
      simp only [State.modify]
      congr 1
      refine Array.ext_getElem? ?_
      intro w
      simp only [Array.getElem?_modify]
      split_ifs <;> simp [Function.comp_def]
  | cell a i =>
      simp only [State.modify]
      congr 1
      refine Array.ext_getElem? ?_
      intro w
      simp only [Array.getElem?_modify]
      split_ifs
      · cases s.arrays[w]? with
        | none => rfl
        | some b =>
            simp only [Option.map_some]
            congr 2
            refine Array.ext_getElem? ?_
            intro j
            simp only [Array.getElem?_modify]
            split_ifs <;> simp [Function.comp_def]
      · rfl

end Changes

section Transfers

variable [NumberSource σ] (hm : Mirrors names s c)

include hm

/-- A line that writes the value of an operand. -/
theorem agrees_writing
    {render : Int32 → Bytes} {stmt : Stmt} (v : Operand)
    (hstmt : ∀ n, (expr names v).eval c = some n → stmt.exec c = .next (c.write (render n))) :
    Agrees names c s.pc (Step.writing s c.input render (s.value names l v))
      (execAll c (check names v ++ [stmt])) := by
  refine agrees_of_guards (guards_check (l := l) hm v) ?_ ?_
  · intro h hh
    rw [hh]
    exact ⟨rfl, rfl⟩
  · intro n hn
    rw [hn]
    have hexec := hstmt n (eval_of_value hm hn)
    refine ⟨rfl, c.write (render n), ?_, ?_, rfl, rfl⟩
    · simp only [execAll, hexec]
    · exact ⟨hm.defs, hm.distinct, hm.fits, hm.global, hm.label, hm.memory⟩

theorem agrees_print (v : Operand) :
    Agrees names c s.pc (Step.writing s c.input Machine.renderNumber (s.value names l v))
      (execAll c (statements names (.print v))) := by
  refine agrees_writing hm v ?_
  intro n hn
  simp [Stmt.exec, hn, Effect.ofOption, Machine.renderNumber]

theorem agrees_printChar (v : Operand) :
    Agrees names c s.pc (Step.writing s c.input Machine.renderChar (s.value names l v))
      (execAll c (statements names (.printChar v))) := by
  refine agrees_writing hm v ?_
  intro n hn
  have hbyte : n.toInt8.toUInt8 = n.toUInt32.toUInt8 := by
    apply UInt8.toBitVec_inj.mp
    show n.toInt8.toBitVec = n.toUInt32.toUInt8.toBitVec
    rw [Int32.toBitVec_toInt8, UInt32.toBitVec_toUInt8]
    exact BitVec.signExtend_eq_setWidth_of_le _ (by decide)
  simp [Stmt.exec, hn, Effect.ofOption, Machine.renderChar, hbyte]

/-- The number that was read is stored at once, and then the offset is taken off
it. -/
theorem agrees_receive
    {target : Place} {n : Int32} {rest : σ}
    (hdraw : NumberSource.draw c.input = (.ok n, rest)) :
    Agrees names c s.pc (Step.ofState s rest (s.receive names l target n))
      (execAll c [.scan (lvalue names target), .rebase (lvalue names target)]) := by
  unfold State.receive
  cases haddr : s.address names l target with
  | error h => exact agrees_of_address_error haddr rfl
  | ok q =>
      obtain ⟨hpointer, hholds⟩ := pointer_of_address hm haddr
      have hmInput : Mirrors names s { c with input := rest } :=
        ⟨hm.defs, hm.distinct, hm.fits, hm.global, hm.label, hm.memory⟩
      obtain ⟨memory, hassign, hm'⟩ := hmInput.assign hholds (fun _ => n)
      have hscan : (Stmt.scan (lvalue names target)).exec c =
          .next { c with input := rest, memory := memory } := by
        simp [Stmt.exec, hpointer, hdraw, Process.receive, hassign, Effect.ofOption]
      obtain ⟨hpointer', hholds'⟩ := pointer_of_address hm' (address_modify_self (l := l) haddr)
      obtain ⟨memory', hassign', hm''⟩ := hm'.assign hholds' (· - c.global)
      have hrebase : (Stmt.rebase (lvalue names target)).exec
          { c with input := rest, memory := memory } =
            .next { c with input := rest, memory := memory' } := by
        simp [Stmt.exec, hpointer', hassign', Effect.ofOption]
      rw [modify_modify] at hm''
      refine ⟨?_, { c with input := rest, memory := memory' }, ?_, ?_, rfl, ?_⟩
      · cases q <;> rfl
      · simp only [execAll, hscan, hrebase]
      · rw [← hm.global]
        exact hm''
      · simp [Step.ofState, Step.next, bind, Except.bind, pure, Except.pure]

theorem agrees_read (target : Place) :
    Agrees names c s.pc
      (match s.requirePlace target with
        | .error h => Step.stop s c.input h
        | .ok () =>
            match NumberSource.draw c.input with
            | (.error e, rest) => Step.stop s rest (.failure l.line l.text (.read e))
            | (.ok n, rest) => Step.ofState s rest (s.receive names l target n))
      (execAll c (statements names (.read target))) := by
  refine agrees_of_guards (guards_checkPlace hm target) ?_ ?_
  · intro h hh
    rw [hh]
    exact ⟨rfl, rfl⟩
  · intro _ hok
    rw [hok]
    cases hdraw : NumberSource.draw c.input with
    | mk drawn rest =>
        cases drawn with
        | error e => trivial
        | ok n => exact agrees_receive hm hdraw

end Transfers

section Arithmetic

variable {shift compensate : Sign} {direction : Int32 → Int32}

theorem Mirrors.moveOffset
    (hm : Mirrors names s c) (d : Int32) :
    Mirrors names { s with offset := s.offset + d } { c with global := c.global + d } where
  defs := hm.defs
  distinct := hm.distinct
  fits := ⟨hm.fits.vars, hm.fits.arrays, hm.fits.flags, hm.fits.cells⟩
  global := by simp [hm.global]
  label := hm.label
  memory := hm.memory

/-- The four statements in the middle of an addition or subtraction shift the state,
and keep the value in `temp`. -/
theorem execAll_shift [NumberSource σ]
    {v : Operand} {target : Place} {n : Int32} {q : Address}
    (hm : Mirrors names s c)
    (hshift : ∀ x n, shift.apply x n = x + direction n)
    (hcompensate : ∀ x n, compensate.apply x n = x - direction n)
    (hvalue : s.value names l v = .ok n)
    (haddress : s.address names l target = .ok q) :
    ∃ c', execAll c [.saveValue (expr names v), .saveAddress (lvalue names target),
        .moveOffset shift, .moveSaved compensate] = .next c' ∧
      Mirrors names (s.shift (direction n) q) c' ∧ c'.temp = some n ∧
      c'.input = c.input ∧ c'.output = c.output := by
  have hsave : (Stmt.saveValue (expr names v)).exec c = .next { c with temp := some n } := by
    simp [Stmt.exec, eval_of_value hm hvalue, Effect.ofOption]
  have hm₁ := hm.keep (some n) c.addr
  obtain ⟨hpointer, hholds⟩ := pointer_of_address hm₁ haddress
  have haddr : (Stmt.saveAddress (lvalue names target)).exec { c with temp := some n } =
      .next { c with temp := some n, addr := some (pointerOf names q) } := by
    simp [Stmt.exec, hpointer, Effect.ofOption]
  have hm₂ := (hm.keep (some n) (some (pointerOf names q))).moveOffset (direction n)
  have hmove : (Stmt.moveOffset shift).exec
      { c with temp := some n, addr := some (pointerOf names q) } =
        .next { c with
          temp := some n, addr := some (pointerOf names q), global := c.global + direction n } := by
    simp [Stmt.exec, hshift, Effect.ofOption]
  obtain ⟨memory, hassign, hm₃⟩ := hm₂.assign (q := q) hholds (· - direction n)
  have hsaved : (Stmt.moveSaved compensate).exec
      { c with temp := some n, addr := some (pointerOf names q), global := c.global + direction n } =
        .next { c with
          temp := some n, addr := some (pointerOf names q), global := c.global + direction n,
          memory := memory } := by
    simp [Stmt.exec, hcompensate, hassign, Effect.ofOption]
  refine ⟨_, ?_, hm₃, rfl, rfl, rfl⟩
  simp only [execAll, hsave, haddr, hmove, hsaved]

theorem agrees_arithmetic [NumberSource σ]
    (hm : Mirrors names s c)
    (hshift : ∀ x n, shift.apply x n = x + direction n)
    (hcompensate : ∀ x n, compensate.apply x n = x - direction n)
    (v : Operand) (target : Place) :
    let t := s.move names l direction v target
    Agrees names c s.pc ⟨t.1, c.input, (t.2.map Halt.output).getD [], t.2⟩
      (execAll c (arithmetic names v target shift compensate)) := by
  intro t
  unfold arithmetic
  rw [List.append_assoc, List.append_assoc]
  refine agrees_of_guards (guards_check (l := l) hm v) ?_ ?_
  · intro h hh
    have ht : t = (s, some h) := by simp [t, State.move, hh, bind, Except.bind]
    rw [ht]
    exact ⟨rfl, rfl⟩
  intro n hn
  refine agrees_of_guards (guards_checkPlace hm target) ?_ ?_
  · intro h hh
    have ht : t = (s, some h) := by simp [t, State.move, hn, hh, bind, Except.bind]
    rw [ht]
    exact ⟨rfl, rfl⟩
  intro _ hreq
  cases haddr : s.address names l target with
  | error h =>
      have ht : t = (s, some h) := by simp [t, State.move, hn, hreq, haddr, bind, Except.bind]
      rw [ht]
      exact agrees_of_address_error haddr rfl
  | ok q =>
      obtain ⟨c', hexec, hm', htemp, hin, hout⟩ :=
        execAll_shift hm hshift hcompensate hn haddr
      have hpc : (s.shift (direction n) q).pc = s.pc := by cases q <;> rfl
      rw [execAll_append, hexec]
      cases v with
      | literal k =>
          have ht : t = (s.shift (direction n) q, none) := by
            simp [t, State.move, hn, hreq, haddr, bind, Except.bind, pure, Except.pure]
          rw [ht]
          exact ⟨hpc, c', rfl, hm', hin, by simp [hout]⟩
      | stored p =>
          -- the cell of the operand is found in the shifted state
          cases haddr' : (s.shift (direction n) q).address names l p with
          | error h =>
              have ht : t = (s.shift (direction n) q, some h) := by
                simp [t, State.move, hn, hreq, haddr, haddr', bind, Except.bind, pure, Except.pure]
              rw [ht]
              exact agrees_of_address_error haddr' rfl
          | ok r =>
              have ht : t = ((s.shift (direction n) q).modify (· - direction n) r, none) := by
                simp [t, State.move, hn, hreq, haddr, haddr', bind, Except.bind, pure, Except.pure]
              obtain ⟨hpointer, hholds⟩ := pointer_of_address hm' haddr'
              obtain ⟨memory, hassign, hm''⟩ := hm'.assign hholds (· - direction n)
              have hcell : (Stmt.moveCell (lvalue names p) compensate).exec c' =
                  .next { c' with memory := memory } := by
                simp [Stmt.exec, htemp, hpointer, hcompensate, hassign, Effect.ofOption]
              rw [ht]
              refine ⟨?_, { c' with memory := memory }, ?_, hm'', hin, by simp [hout]⟩
              · rw [← hpc]
                cases r <;> rfl
              · simp only [execAll, hcell]

/-- Braces around statements do not matter to the machine. -/
theorem Agrees.leave
    {t : Step σ} {e : Effect σ}
    (h : Agrees names c pc t e) :
    Agrees names c pc t (e.leave c) := by
  unfold Agrees at h ⊢
  split at h
  · obtain ⟨hpc, c', rfl, hm, hin, hout⟩ := h
    exact ⟨hpc, _, rfl, hm.keep c.temp c.addr, hin, hout⟩
  · obtain ⟨c', rfl, hout⟩ := h
    exact ⟨c', rfl, hout⟩
  · trivial

end Arithmetic

/-- **A line does what its operation does.**  The operation is neither a bound of a
block nor a jump. -/
theorem agrees_line [NumberSource σ]
    {m : Machine} {i : Nat}
    (hnames : m.program.names = names)
    (hm : Mirrors names s c)
    (hplain : l.op.isPlain = true)
    (hgoto : l.op ≠ .goto) :
    Agrees names c s.pc (m.exec l i s c.input) ((line names l).exec c) := by
  unfold Machine.exec
  simp only [hnames]
  cases hop : l.op with
  | define v =>
      simp only [line, Line.exec, hop, isBraced]
      exact agrees_define hm v
  | defineArray a =>
      simp only [line, Line.exec, hop, isBraced]
      exact agrees_defineArray hm a
  | undefine v =>
      simp only [line, Line.exec, hop, isBraced]
      exact agrees_undefine hm v
  | undefineArray a =>
      simp only [line, Line.exec, hop, isBraced]
      exact agrees_undefineArray hm a
  | read target =>
      simp only [line, Line.exec, hop, isBraced]
      exact agrees_read hm target
  | print v =>
      simp only [line, Line.exec, hop, isBraced]
      exact agrees_print hm v
  | printChar v =>
      simp only [line, Line.exec, hop, isBraced]
      exact agrees_printChar hm v
  | add v target =>
      simp only [line, Line.exec, hop, isBraced]
      refine Agrees.leave (agrees_arithmetic hm ?_ ?_ v target)
      · intro x n
        rfl
      · intro x n
        rfl
  | subtract v target =>
      simp only [line, Line.exec, hop, isBraced]
      refine Agrees.leave (agrees_arithmetic hm ?_ ?_ v target)
      · intro x n
        exact Int32.sub_eq_add_neg x n
      · intro x n
        simp [Sign.apply]
  | mark f =>
      simp only [line, Line.exec, hop, isBraced]
      exact agrees_next c.memory rfl hm rfl
  | unmark f =>
      simp only [line, Line.exec, hop, isBraced]
      exact agrees_unmark hm f
  | pin f =>
      simp only [line, Line.exec, hop, isBraced]
      exact agrees_pin hm f
  | goto => exact absurd hop hgoto
  | openBlock =>
      rw [hop] at hplain
      cases hplain
  | closeBlock a b cmp =>
      rw [hop] at hplain
      cases hplain

end Target
end Contrary
