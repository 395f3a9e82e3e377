import Contrary.Proofs.Cutting
import Contrary.Proofs.Decimals
import Contrary.Proofs.Trimming

/-!
# Feeding the output of a program to another

A program prints a number in decimal, on a line of its own.  A scanner accepts much more:
signs, prefixes, octal digits after a leading zero, underscores.  What is printed is canonical,
and a scanner reads it back.

**Canonical numerals.**  `Decimal.ofInt` is the numeral that is printed for a number.  It has no
leading zero unless it is zero, so that a scanner takes all of it and stops at the end of the
line (`Scanner.draw_renderNumber`).

**Sources.**  A `Feed` is a list of numbers as a source.  A scanner that carries a feed draws
the same numbers (`Scanner.Carries.draw`), and programs cannot tell two sources apart that draw
the same (`Machine.runFor_matches`).

**Results.**
* `Scanner.Carries.drawMany`: printed numbers are read back one by one.
* `Machine.runFor_output`: what a program writes that prints only numbers.
* `printed_numbers_are_read_back`: hence such an output can be fed to any program.
-/

namespace Contrary

open Numeral (Reads IsDigits baseOf)

section Canonical

namespace Numeral

theorem valueFrom_append
    (base n : Nat) (s s' : Bytes) :
    valueFrom base n (s ++ s') = valueFrom base (valueFrom base n s) s' :=
  List.foldl_append ..

theorem value_decimalNat
    (n : Nat) :
    value 10 (Bytes.decimalNat n) = n := by
  fun_induction Bytes.decimalNat n with
  | case1 n hn =>
      rw [value_cons, (isDigit_digit n hn).2]
      rfl
  | case2 n hn ih =>
      have hlast := (isDigit_digit (n % 10) (Nat.mod_lt n (by decide))).2
      rw [value, valueFrom_append, ← value, ih, valueFrom_cons, hlast]
      exact Nat.div_add_mod' n 10

theorem head?_decimalNat
    {n : Nat}
    (hn : 0 < n) :
    (Bytes.decimalNat n).head? ≠ some '0'.toUInt8 := by
  fun_induction Bytes.decimalNat n with
  | case1 n hlt =>
      have hdigit : ∀ d < 10, 0 < d → Bytes.digit d ≠ '0'.toUInt8 := by decide
      exact fun h => hdigit n hlt hn (Option.some.inj h)
  | case2 n hlt ih =>
      obtain ⟨b, s, hs, -⟩ := decimalNat_eq_cons (n / 10)
      rw [hs] at ih ⊢
      exact ih (by omega)

/-- The numeral of a number is read in a base in which it has the value of this number. -/
theorem baseOf_decimalNat
    (n : Nat) :
    IsDigits (baseOf (Bytes.decimalNat n)) (Bytes.decimalNat n) ∧
      value (baseOf (Bytes.decimalNat n)) (Bytes.decimalNat n) = n := by
  rcases Nat.eq_zero_or_pos n with rfl | hn
  · have hzero : Bytes.decimalNat 0 = ['0'.toUInt8] := by
      rw [Bytes.decimalNat]
      rfl
    rw [hzero]
    refine ⟨fun b hb => ?_, rfl⟩
    rw [List.mem_singleton.mp hb]
    decide
  · rw [baseOf, if_neg (head?_decimalNat hn)]
    exact ⟨.of_isDigit (isDigit_decimalNat n), value_decimalNat n⟩

end Numeral

namespace Decimal

/-- The numeral that is printed for a number. -/
def ofInt (z : Int) : Decimal where
  mark := if z < 0 then .minus else .none
  digits := Bytes.decimalNat z.natAbs
  digits_ne_nil := by
    obtain ⟨b, s, hs, -⟩ := decimalNat_eq_cons z.natAbs
    rw [hs]
    exact List.cons_ne_nil b s
  isDigit := isDigit_decimalNat z.natAbs

theorem text_ofInt
    (z : Int) :
    (ofInt z).text = Bytes.decimal z := by
  cases z with
  | ofNat n => rfl
  | negSucc n =>
      simp only [text, ofInt, Int.negSucc_lt_zero, if_true, Bytes.decimal, Int.natAbs_negSucc]
      rfl

theorem decimal_eq
    (z : Int) :
    Bytes.decimal z = (ofInt z).mark.text ++ Bytes.decimalNat z.natAbs :=
  (text_ofInt z).symm

theorem apply_mark_ofInt
    (z : Int) :
    (ofInt z).mark.apply z.natAbs = z := by
  unfold ofInt
  dsimp only
  split_ifs <;> simp only [Numeral.Mark.apply] <;> omega

end Decimal

end Canonical

section Scanning

theorem Bytes.trimFront_newline
    (s : Bytes) :
    trimFront ('\n'.toUInt8 :: s) = trimFront s := by
  rw [trimFront_cons, Glyph.first_of_lt (by decide)]
  exact if_pos rfl

namespace Scanner

theorem stops_newline
    (rest : Bytes) :
    Stops ('\n'.toUInt8 :: rest) :=
  ⟨fun _ => rfl, rfl⟩

theorem taken_of_isDigits
    {digits : Bytes}
    (h : IsDigits (baseOf digits) digits) :
    taken digits = digits ∧ left digits = [] := by
  have hdigits : ∀ b ∈ digits, inBase (baseOf digits) b = true := by
    intro b hb
    obtain ⟨hdigit, hlt⟩ := h b hb
    rw [inBase_of_isDigit hdigit, decide_eq_true hlt]
  exact ⟨List.takeWhile_eq_self_iff.mpr hdigits, List.dropWhile_eq_nil_iff.mpr hdigits⟩

/-- The numeral that is printed for a number is read as this number. -/
theorem readToken_decimal
    (n : Int32) :
    readToken (Bytes.decimal n.toInt) = .ok n := by
  obtain ⟨b, s, hs, hb⟩ := decimalNat_eq_cons n.toInt.natAbs
  obtain ⟨hdigits, hvalue⟩ := Numeral.baseOf_decimalNat n.toInt.natAbs
  have hreads : Reads Int32.toInt 32 n.toInt (readToken (Bytes.decimal n.toInt)) := by
    rw [Decimal.decimal_eq, hs]
    rw [hs] at hdigits hvalue
    have hread := reads_readToken (Numeral.reads_of_magnitude (Decimal.ofInt n.toInt).mark
      (by decide) hb (Numeral.magnitude_prefixed hdigits))
    rwa [hvalue, Decimal.apply_mark_ofInt] at hread
  obtain ⟨k, hk, hkn⟩ := hreads.exists_of_fitsIn ⟨n.le_toInt, n.toInt_lt⟩
  rw [hk, Int32.toInt_inj.mp hkn]

/-- The numeral that is printed for a number is taken as a whole, up to the end of its line. -/
theorem splitToken_decimal
    (z : Int) (rest : Bytes) :
    splitToken (Bytes.decimal z ++ '\n'.toUInt8 :: rest) =
      (.ok (Bytes.decimal z), '\n'.toUInt8 :: rest) := by
  obtain ⟨b, s, hs, -⟩ := decimalNat_eq_cons z.natAbs
  have hdigits := (Numeral.baseOf_decimalNat z.natAbs).1
  rw [hs] at hdigits
  obtain ⟨htaken, hleft⟩ := taken_of_isDigits hdigits
  have hsplit := splitToken_append (Decimal.ofInt z).mark (fun c hc => (hdigits c hc).1)
    (stops_newline rest)
  rw [Decimal.decimal_eq, hs, List.append_assoc, List.cons_append, hsplit, htaken, hleft]
  rfl

/-- A number at the front of a text is drawn from it, and the end of its line is left. -/
theorem draw_renderNumber
    {s : Scanner} {n : Int32} {rest : Bytes}
    (hs : s.rest.trimFront = Machine.renderNumber n ++ rest) :
    s.draw = (.ok n, ⟨'\n'.toUInt8 :: rest⟩) := by
  rw [Machine.renderNumber, Bytes.line, List.append_assoc, List.singleton_append] at hs
  simp only [draw, hs, splitToken_decimal, readToken_decimal]

theorem trimFront_renderNumber
    (n : Int32) (rest : Bytes) :
    (Machine.renderNumber n ++ rest).trimFront = Machine.renderNumber n ++ rest := by
  have hplain := (Decimal.ofInt n.toInt).plain_of_mem_text
  rw [Decimal.text_ofInt] at hplain
  have hne : Bytes.decimal n.toInt ≠ [] := by
    rw [Decimal.decimal_eq]
    exact List.append_ne_nil_of_right_ne_nil _ (Decimal.ofInt n.toInt).digits_ne_nil
  obtain ⟨b, s, hs⟩ := List.exists_cons_of_ne_nil hne
  rw [hs] at hplain
  rw [Machine.renderNumber, hs]
  obtain ⟨hb, hblank⟩ := hplain b List.mem_cons_self
  exact Bytes.trimFront_of_first hb hblank _

end Scanner

end Scanning

/-- Numbers as lines of output. -/
def Machine.renderNumbers (numbers : List Int32) : Bytes :=
  numbers.flatMap renderNumber

theorem Machine.renderNumbers_cons
    (n : Int32) (numbers : List Int32) :
    renderNumbers (n :: numbers) = renderNumber n ++ renderNumbers numbers :=
  List.flatMap_cons

/-- A list of numbers as a source.  When they are used up, every draw fails for the same
reason. -/
structure Feed where
  numbers : List Int32
  failure : ReadFailure
  deriving DecidableEq, Repr

namespace Feed

def draw : Feed → Except ReadFailure Int32 × Feed
  | ⟨[], e⟩ => (.error e, ⟨[], e⟩)
  | ⟨n :: numbers, e⟩ => (.ok n, ⟨numbers, e⟩)

instance : NumberSource Feed where
  draw := Feed.draw

end Feed

namespace Scanner

/-- A scanner that carries a feed: its text is the numbers of the feed, printed one after
another, and then something at which a scanner stops. -/
def Carries (s : Scanner) (f : Feed) : Prop :=
  ∃ tail, tail.trimFront = tail ∧ splitToken tail = (.error f.failure, tail) ∧
    s.rest.trimFront = Machine.renderNumbers f.numbers ++ tail

section Carries

theorem trimFront_printed
    {numbers : List Int32} {tail : Bytes}
    (htail : tail.trimFront = tail) :
    (Machine.renderNumbers numbers ++ tail).trimFront =
      Machine.renderNumbers numbers ++ tail := by
  cases numbers with
  | nil => exact htail
  | cons n numbers =>
      rw [Machine.renderNumbers_cons, List.append_assoc]
      exact trimFront_renderNumber n _

theorem carries_printed
    (numbers : List Int32) {e : ReadFailure} {tail : Bytes}
    (htail : tail.trimFront = tail)
    (hstop : splitToken tail = (.error e, tail)) :
    Carries ⟨Machine.renderNumbers numbers ++ tail⟩ ⟨numbers, e⟩ :=
  ⟨tail, htail, hstop, trimFront_printed htail⟩

/-- A draw from a scanner is a draw from the feed that it carries. -/
theorem Carries.draw
    {s : Scanner} {f : Feed}
    (h : s.Carries f) :
    s.draw.1 = f.draw.1 ∧ s.draw.2.Carries f.draw.2 := by
  obtain ⟨tail, htail, hstop, hs⟩ := h
  obtain ⟨numbers, e⟩ := f
  cases numbers with
  | nil =>
      have hdraw : s.draw = (.error e, ⟨tail⟩) := by
        have hs : s.rest.trimFront = tail := hs
        simp only [Scanner.draw, hs, hstop]
      rw [hdraw]
      exact ⟨rfl, tail, htail, hstop, htail⟩
  | cons n numbers =>
      rw [Machine.renderNumbers_cons, List.append_assoc] at hs
      rw [draw_renderNumber hs]
      refine ⟨rfl, tail, htail, hstop, ?_⟩
      exact (Bytes.trimFront_newline _).trans (trimFront_printed htail)

/-- The numbers of a feed are drawn one by one, and then every draw fails. -/
theorem Carries.drawMany
    {numbers : List Int32} {e : ReadFailure} (k : Nat) :
    ∀ {s : Scanner}, s.Carries ⟨numbers, e⟩ →
      Scanner.drawMany (numbers.length + k) s =
        numbers.map .ok ++ List.replicate k (.error e) := by
  induction numbers with
  | nil =>
      induction k with
      | zero => exact fun _ => rfl
      | succ k ih =>
          intro s h
          obtain ⟨hdraw, hrest⟩ := h.draw
          rw [List.length_nil, Nat.zero_add] at ih ⊢
          rw [Scanner.drawMany, hdraw, ih hrest]
          rfl
  | cons n numbers ih =>
      intro s h
      obtain ⟨hdraw, hrest⟩ := h.draw
      rw [List.length_cons, Nat.add_right_comm, Scanner.drawMany, hdraw, ih hrest]
      rfl

end Carries

end Scanner

section Sources

variable {σ τ : Type} {R : σ → τ → Prop}

/-- Sources that draw the same as long as they are related. -/
def NumberSource.Agree [NumberSource σ] [NumberSource τ] (R : σ → τ → Prop) : Prop :=
  ∀ a b, R a b → (draw a).1 = (draw b).1 ∧ R (draw a).2 (draw b).2

/-- The same outcome of an operation, with related sources. -/
structure Step.Matches (R : σ → τ → Prop) (t : Step σ) (t' : Step τ) : Prop where
  state : t.state = t'.state
  input : R t.input t'.input
  output : t.output = t'.output
  halt : t.halt = t'.halt

/-- Runs that differ in related sources only. -/
structure Run.Matches (R : σ → τ → Prop) (r : Run σ) (r' : Run τ) : Prop where
  state : r.state = r'.state
  input : R r.input r'.input
  output : r.output = r'.output

namespace Machine

variable {a : σ} {b : τ}

theorem ofState_matches
    (h : R a b) (s : State) (x : Except Halt State) :
    (Step.ofState s a x).Matches R (Step.ofState s b x) := by
  cases x with
  | ok s' => exact ⟨rfl, h, rfl, rfl⟩
  | error e => exact ⟨rfl, h, rfl, rfl⟩

theorem writing_matches
    (h : R a b) (s : State) (render : Int32 → Bytes) (x : Except Halt Int32) :
    (Step.writing s a render x).Matches R (Step.writing s b render x) := by
  cases x with
  | ok n => exact ⟨rfl, h, rfl, rfl⟩
  | error e => exact ⟨rfl, h, rfl, rfl⟩

theorem finish_matches
    {r : Run σ} {r' : Run τ}
    (h : r.Matches R r') (m : Machine) :
    (m.finish r).1.Matches R (m.finish r').1 ∧ (m.finish r).2 = (m.finish r').2 := by
  unfold finish
  rw [h.state]
  cases m.finalHalt? r'.state with
  | none => exact ⟨h, rfl⟩
  | some e => exact ⟨⟨rfl, h.input, by rw [h.output]⟩, rfl⟩

variable [NumberSource σ] [NumberSource τ]

/-- An operation does the same with sources that draw the same. -/
theorem exec_matches
    (hR : NumberSource.Agree R)
    (h : R a b) (m : Machine) (l : OpLine) (i : Nat) (s : State) :
    (m.exec l i s a).Matches R (m.exec l i s b) := by
  unfold exec
  cases l.op with
  | read target =>
      dsimp only
      cases s.requirePlace target with
      | error e => exact ⟨rfl, h, rfl, rfl⟩
      | ok u =>
          obtain ⟨hdraw, hrest⟩ := hR a b h
          dsimp only
          generalize NumberSource.draw a = x at hdraw hrest ⊢
          generalize NumberSource.draw b = y at hdraw hrest ⊢
          obtain ⟨x, rest⟩ := x
          obtain ⟨y, rest'⟩ := y
          obtain rfl : x = y := hdraw
          cases x with
          | error e => exact ⟨rfl, hrest, rfl, rfl⟩
          | ok n => exact ofState_matches hrest s _
  | print v => exact writing_matches h s _ _
  | printChar v => exact writing_matches h s _ _
  | add v target => exact ⟨rfl, h, rfl, rfl⟩
  | subtract v target => exact ⟨rfl, h, rfl, rfl⟩
  | closeBlock x y c => exact ⟨rfl, h, rfl, rfl⟩
  | mark f => exact ⟨rfl, h, rfl, rfl⟩
  | _ => exact ofState_matches h s _

theorem advance_matches
    {r : Run σ} {r' : Run τ}
    (hR : NumberSource.Agree R)
    (h : r.Matches R r') (m : Machine) :
    (m.advance r).1.Matches R (m.advance r').1 ∧ (m.advance r).2 = (m.advance r').2 := by
  have hstep : (m.step r.state r.input).Matches R (m.step r'.state r'.input) := by
    rw [h.state]
    unfold step
    cases m.program.ops[r'.state.pc]? with
    | none => exact ⟨rfl, h.input, rfl, rfl⟩
    | some l => exact exec_matches hR h.input m l _ _
  refine ⟨⟨hstep.state, hstep.input, ?_⟩, hstep.halt⟩
  simp only [advance, h.output, hstep.output]

/-- A program cannot tell sources apart that draw the same. -/
theorem runFor_matches
    (hR : NumberSource.Agree R) (m : Machine) (limit : Nat) :
    ∀ {r : Run σ} {r' : Run τ}, r.Matches R r' →
      (m.runFor limit r).1.Matches R (m.runFor limit r').1 ∧
        (m.runFor limit r).2 = (m.runFor limit r').2 := by
  induction limit with
  | zero =>
      intro r r' h
      simp only [runFor, h.state]
      split_ifs
      · exact finish_matches h m
      · exact ⟨h, rfl⟩
  | succ limit ih =>
      intro r r' h
      simp only [runFor, h.state]
      split_ifs
      · exact finish_matches h m
      · obtain ⟨hnext, hhalt⟩ := advance_matches hR h m
        generalize m.advance r = x at hnext hhalt ⊢
        generalize m.advance r' = y at hnext hhalt ⊢
        obtain ⟨r₁, e⟩ := x
        obtain ⟨r₁', e'⟩ := y
        obtain rfl : e = e' := hhalt
        cases e with
        | some e => exact ⟨hnext, rfl⟩
        | none => exact ih hnext

end Machine

end Sources

section Printing

/-- What a run shows outside: the state that it leaves, its output and how it ends. -/
def Run.seen {σ : Type} (out : Run σ × Ending) : State × Array UInt8 × Ending :=
  (out.1.state, out.1.output, out.2)

/-- What the ending of a run writes. -/
def Ending.output : Ending → Bytes
  | .halted h => h.output
  | _ => []

/-- Why a scanner finds no number where the output of a run ends. -/
def Ending.readFailure : Ending → ReadFailure
  | .halted (.abort _) => .expectedInteger
  | _ => .endOfInput

namespace Machine

variable {σ : Type} [NumberSource σ] {m : Machine}

/-- A program that prints numbers and no characters. -/
def PrintsNumbers (m : Machine) : Prop :=
  ∀ l ∈ m.program.ops.toList, ∀ v, l.op ≠ .printChar v

/-- The number that a line prints in a state, if it prints one. -/
def shownBy? (names : Names) (l : OpLine) (s : State) : Option Int32 :=
  match l.op with
  | .print v => (s.value names l v).toOption
  | _ => none

/-- The number that the next operation prints, if it prints one. -/
def shown? (m : Machine) (s : State) : Option Int32 :=
  m.program.ops[s.pc]?.bind fun l => shownBy? m.program.names l s

/-- The numbers that a run prints, in their order. -/
def printed (m : Machine) : (limit : Nat) → Run σ → List Int32
  | 0, _ => []
  | limit + 1, r =>
      (m.shown? r.state).toList ++
        match m.next? r with
        | none => []
        | some r' => printed m limit r'

theorem output_ofState
    {σ : Type} (s : State) (input : σ) (x : Except Halt State) :
    (Step.ofState s input x).output =
      ((Step.ofState s input x).halt.map Halt.output).getD [] := by
  cases x <;> rfl

/-- What an operation writes: the number that it prints, or what its halt writes. -/
theorem exec_output
    {l : OpLine}
    (hl : ∀ v, l.op ≠ .printChar v) (i : Nat) (s : State) (input : σ) :
    (m.exec l i s input).output =
      renderNumbers (shownBy? m.program.names l s).toList ++
        ((m.exec l i s input).halt.map Halt.output).getD [] := by
  unfold exec shownBy?
  cases hop : l.op with
  | printChar v => exact absurd hop (hl v)
  | print v =>
      dsimp only
      cases s.value m.program.names l v with
      | ok n => simp [Step.writing, renderNumbers, Except.toOption]
      | error e => rfl
  | read target =>
      dsimp only
      cases s.requirePlace target with
      | error e => rfl
      | ok u =>
          obtain ⟨x, rest⟩ := NumberSource.draw input
          cases x with
          | error e => rfl
          | ok n => exact output_ofState s rest _
  | add v target => rfl
  | subtract v target => rfl
  | closeBlock a b c => rfl
  | mark f => rfl
  | _ => exact output_ofState s input _

theorem step_output
    (hm : m.PrintsNumbers) (s : State) (input : σ) :
    (m.step s input).output =
      renderNumbers (m.shown? s).toList ++
        ((m.step s input).halt.map Halt.output).getD [] := by
  unfold step shown?
  cases hl : m.program.ops[s.pc]? with
  | none => rfl
  | some l =>
      have hmem : l ∈ m.program.ops.toList := List.mem_of_getElem? (by simpa using hl)
      exact exec_output (hm l hmem) s.pc { s with pc := s.pc + 1 } input

theorem shown?_of_atEnd
    {s : State}
    (hend : m.atEnd s = true) :
    m.shown? s = none := by
  have hpc : m.program.ops.size ≤ s.pc := by simpa [atEnd] using hend
  rw [shown?, Array.getElem?_eq_none hpc, Option.bind_none]

theorem renderNumbers_append
    (ns ns' : List Int32) :
    renderNumbers (ns ++ ns') = renderNumbers ns ++ renderNumbers ns' :=
  List.flatMap_append

theorem finish_output
    {σ : Type} (m : Machine) (r : Run σ) :
    (m.finish r).1.output.toList = r.output.toList ++ (m.finish r).2.output := by
  unfold finish
  cases m.finalHalt? r.state <;> simp [Ending.output]

/-- A program that prints only numbers writes them, and then what its ending writes. -/
theorem runFor_output
    (hm : m.PrintsNumbers) (limit : Nat) :
    ∀ r : Run σ, (m.runFor limit r).1.output.toList =
      r.output.toList ++ (renderNumbers (m.printed limit r) ++ (m.runFor limit r).2.output) := by
  induction limit with
  | zero =>
      intro r
      unfold runFor
      split_ifs
      · exact m.finish_output r
      · simp [printed, renderNumbers, Ending.output]
  | succ limit ih =>
      intro r
      have hstep := step_output hm r.state r.input
      cases hnext : m.next? r with
      | some r₁ =>
          obtain ⟨-, hadvance⟩ := next?_eq_some_iff.mp hnext
          obtain ⟨rfl, hhalt⟩ := Prod.mk.inj hadvance
          rw [hhalt] at hstep
          rw [runFor_of_next? hnext, ih, printed, hnext, renderNumbers_append]
          simp [hstep]
      | none =>
          rw [printed, hnext]
          rcases next?_eq_none_iff.mp hnext with hend | ⟨hend, r', e, hadvance⟩
          · rw [runFor_of_atEnd hend, shown?_of_atEnd hend]
            exact m.finish_output r
          · rw [runFor_of_halt hend hadvance limit]
            obtain ⟨rfl, hhalt⟩ := Prod.mk.inj hadvance
            rw [hhalt] at hstep
            simp [hstep, Ending.output]

end Machine

theorem Abort.exists_message_eq
    (cause : Abort) :
    ∃ s, cause.message = 'A'.toUInt8 :: s := by
  cases cause with
  | nothingToPin => exact ⟨_, rfl⟩
  | undefinedUse => exact ⟨_, rfl⟩
  | leak name => exact ⟨_, rfl⟩

/-- What an ending writes is nothing, or no number. -/
theorem Ending.splitToken_output
    (e : Ending) :
    e.output.trimFront = e.output ∧
      Scanner.splitToken e.output = (.error e.readFailure, e.output) := by
  have hnothing : Bytes.trimFront [] = [] ∧ Scanner.splitToken [] = (.error .endOfInput, []) :=
    ⟨Bytes.trimFront_nil, rfl⟩
  cases e with
  | finished => exact hnothing
  | stepLimit => exact hnothing
  | halted h =>
      cases h with
      | failure line text cause => exact hnothing
      | stray => exact hnothing
      | abort cause =>
          obtain ⟨s, hs⟩ := cause.exists_message_eq
          simp only [Ending.output, Halt.output, hs]
          exact ⟨Bytes.trimFront_of_first (by decide) rfl s, rfl⟩

end Printing

/-- **What is printed can be read back.**  From numbers that are printed one after another, a
scanner draws these numbers in their order, and then finds the end of the input.  A program that
prints only numbers writes them so, and after them only what it writes if it aborts.  Every
program that is given this output as its input does the same as if it drew the numbers
themselves, and fails to draw more of them. -/
theorem printed_numbers_are_read_back :
    (∀ (numbers : List Int32) (k : Nat),
      Scanner.drawMany (numbers.length + k) ⟨numbers.flatMap Machine.renderNumber⟩ =
        numbers.map .ok ++ List.replicate k (.error .endOfInput)) ∧
    ∀ {σ : Type} [NumberSource σ] (m : Machine) (limit : Nat) (input : σ) (r : Run σ)
      (ending : Ending), m.PrintsNumbers → m.run limit input = (r, ending) →
      r.output.toList =
        (m.printed limit ⟨m.start, input, #[]⟩).flatMap Machine.renderNumber ++ ending.output ∧
      ∀ (m' : Machine) (limit' : Nat),
        Run.seen (m'.run limit' (Scanner.mk r.output.toList)) =
          Run.seen (m'.run limit'
            (Feed.mk (m.printed limit ⟨m.start, input, #[]⟩) ending.readFailure)) := by
  constructor
  · intro numbers k
    have hcarries : Scanner.Carries ⟨Machine.renderNumbers numbers ++ []⟩ ⟨numbers, .endOfInput⟩ :=
      Scanner.carries_printed numbers Bytes.trimFront_nil rfl
    rw [List.append_nil] at hcarries
    exact hcarries.drawMany k
  · intro σ _ m limit input r ending hm hrun
    have houtput := Machine.runFor_output hm limit ⟨m.start, input, #[]⟩
    rw [show m.runFor limit ⟨m.start, input, #[]⟩ = (r, ending) from hrun] at houtput
    obtain ⟨htail, hstop⟩ := ending.splitToken_output
    have hcarries := Scanner.carries_printed (m.printed limit ⟨m.start, input, #[]⟩) htail hstop
    refine ⟨houtput, fun m' limit' => ?_⟩
    have hstart : (Run.mk m'.start (Scanner.mk r.output.toList) #[]).Matches Scanner.Carries
        ⟨m'.start, Feed.mk (m.printed limit ⟨m.start, input, #[]⟩) ending.readFailure, #[]⟩ := by
      refine ⟨rfl, ?_, rfl⟩
      rw [houtput]
      exact hcarries
    obtain ⟨hend, hending⟩ :=
      Machine.runFor_matches (fun s f h => Scanner.Carries.draw h) m' limit' hstart
    simp only [Run.seen, Machine.run, hend.state, hend.output, hending]

/-- Prints zero, and then a number that it reads. -/
def showTwo : Machine where
  program :=
    { names := ⟨#[ascii "x"], #[], #[]⟩
      ops :=
        #[ ⟨.define 0, 1, ascii "undefine x"⟩,
          ⟨.print (.stored (.var 0)), 2, ascii "read to x"⟩,
          ⟨.read (.var 0), 3, ascii "print x"⟩,
          ⟨.print (.stored (.var 0)), 4, ascii "read to x"⟩,
          ⟨.undefine 0, 5, ascii "define x"⟩ ]
      lineCount := 5 }
  closing := #[none, none, none, none, none]
  marks := #[]

/-- Reads two numbers and prints the second. -/
def echoSecond : Machine where
  program :=
    { names := ⟨#[ascii "x"], #[], #[]⟩
      ops :=
        #[ ⟨.define 0, 1, ascii "undefine x"⟩,
          ⟨.read (.var 0), 2, ascii "print x"⟩,
          ⟨.read (.var 0), 3, ascii "print x"⟩,
          ⟨.print (.stored (.var 0)), 4, ascii "read to x"⟩,
          ⟨.undefine 0, 5, ascii "define x"⟩ ]
      lineCount := 5 }
  closing := #[none, none, none, none, none]
  marks := #[]

/-- Both programs come from sources.  The second prints the least number, which the first one has
printed after zero. -/
theorem showTwo_is_echoed :
    (Program.ofSource (ascii "define x\nread to x\nprint x\nread to x\nundefine x") =
        .ok showTwo.program ∧ Machine.load showTwo.program = .ok showTwo) ∧
    (Program.ofSource (ascii "define x\nread to x\nprint x\nprint x\nundefine x") =
        .ok echoSecond.program ∧ Machine.load echoSecond.program = .ok echoSecond) ∧
    Machine.PrintsNumbers showTwo ∧
    (showTwo.run 5 (Scanner.mk (ascii "-2147483648"))).1.output.toList =
      ascii "0\n-2147483648\n" ∧
    Run.seen (echoSecond.run 5 (Scanner.mk (ascii "0\n-2147483648\n"))) =
      Run.seen (echoSecond.run 5 (Feed.mk [0, -2147483648] .endOfInput)) ∧
    (echoSecond.run 5 (Scanner.mk (ascii "0\n-2147483648\n"))).1.output.toList =
      ascii "-2147483648\n" := by
  have hnumbers : showTwo.PrintsNumbers := by
    intro l hl v
    simp only [showTwo, List.mem_cons, List.not_mem_nil, or_false] at hl
    rcases hl with rfl | rfl | rfl | rfl | rfl <;> exact Op.noConfusion
  have hending : (showTwo.run 5 (Scanner.mk (ascii "-2147483648"))).2 = .finished := by
    decide +kernel
  have hprinted : showTwo.printed 5 ⟨showTwo.start, Scanner.mk (ascii "-2147483648"), #[]⟩ =
      [0, -2147483648] := by
    decide +kernel
  have htext : (showTwo.run 5 (Scanner.mk (ascii "-2147483648"))).1.output.toList =
      ascii "0\n-2147483648\n" := by
    decide +kernel
  have houtput : (echoSecond.run 5 (Feed.mk [0, -2147483648] .endOfInput)).1.output.toList =
      ascii "-2147483648\n" := by
    decide +kernel
  obtain ⟨-, hfed⟩ := printed_numbers_are_read_back.2 showTwo 5 (Scanner.mk (ascii "-2147483648"))
    (showTwo.run 5 (Scanner.mk (ascii "-2147483648"))).1 .finished hnumbers (Prod.ext rfl hending)
  have hsame := hfed echoSecond 5
  rw [hprinted, htext] at hsame
  have hlast := congrArg (fun out => out.2.1.toList) hsame
  refine ⟨⟨by decide +kernel, rfl⟩, ⟨by decide +kernel, rfl⟩, hnumbers, htext, hsame, ?_⟩
  exact hlast.trans houtput

end Contrary
