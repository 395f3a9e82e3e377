import Contrary.Proofs.Numerals
import Contrary.Proofs.Target.Semantics
import Contrary.Session.Basic
import Mathlib.Data.List.TakeWhile

/-!
# Decimal numbers from outside

A number reaches a program in one of three ways: a scanner takes it from a text, a
session asks for a line, and a generated program converts its standard input with `%d`.
This module compares the three on decimal numerals, an optional sign and digits.

**Scanners.**  A scanner takes a leading zero for the mark of octal digits.  It then stops
at the first digit that is not octal, and reads what it has taken in base eight
(`Scanner.draw_text`).

**Agreement.**  A session and the conversion `%d` read every decimal numeral in base ten.
A scanner does so exactly if there is no leading zero, or the zeros have at most one octal
digit after them, or not even the octal value is in range (`decimal_readings`).
-/

namespace Contrary

open Numeral (Reads FitsIn IsDigits baseOf)

section Decimals

/-- A decimal numeral: an optional sign and at least one digit. -/
structure Decimal where
  mark : Numeral.Mark
  digits : Bytes
  digits_ne_nil : digits ≠ []
  isDigit : ∀ b ∈ digits, Bytes.isDigit b = true

namespace Decimal

variable (d : Decimal)

def text : Bytes :=
  d.mark.text ++ d.digits

def value : Int :=
  d.mark.apply (Numeral.value 10 d.digits)

theorem exists_cons :
    ∃ b s, d.digits = b :: s ∧ ∀ c ∈ b :: s, Bytes.isDigit c = true := by
  obtain ⟨b, s, hs⟩ := List.exists_cons_of_ne_nil d.digits_ne_nil
  exact ⟨b, s, hs, hs ▸ d.isDigit⟩

theorem plain_of_mem_text :
    ∀ b ∈ d.text, b < 0x80 ∧ isBlank b.toNat = false := by
  have hblank : ∀ n < 58, 43 ≤ n → isBlank n = false := by decide
  have hrange : ∀ b : UInt8, 43 ≤ b.toNat → b.toNat < 58 → b < 0x80 ∧ isBlank b.toNat = false :=
    fun b hlow hhigh => ⟨UInt8.lt_iff_toNat_lt.mpr (Nat.lt_trans hhigh (by decide)),
      hblank _ hhigh hlow⟩
  intro b hb
  rcases List.mem_append.mp hb with hb | hb
  · cases hmark : d.mark <;> rw [hmark] at hb <;> simp only [Numeral.Mark.text] at hb
    · exact absurd hb List.not_mem_nil
    · cases List.mem_singleton.mp hb
      exact hrange _ (by decide) (by decide)
    · cases List.mem_singleton.mp hb
      exact hrange _ (by decide) (by decide)
  · have hdigit := Numeral.toNat_of_isDigit (d.isDigit b hb)
    exact hrange b (by omega) (by omega)

theorem isAscii_text : IsAscii d.text :=
  fun b hb => (d.plain_of_mem_text b hb).1

theorem trimFront_text : d.text.trimFront = d.text :=
  Bytes.trimFront_of_isAscii d.isAscii_text
    fun b hb => (d.plain_of_mem_text b (List.mem_of_head? hb)).2

theorem trim_text : d.text.trim = d.text :=
  trim_of_isAscii d.isAscii_text
    (fun b hb => (d.plain_of_mem_text b (List.mem_of_head? hb)).2)
    (fun b hb => (d.plain_of_mem_text b (List.mem_of_getLast? hb)).2)

/-- A session reads a decimal numeral as its value. -/
theorem reads_numberOf : Reads Int32.toInt 32 d.value (Session.numberOf (.line d.text)) := by
  obtain ⟨b, s, hs, hdigits⟩ := d.exists_cons
  have hread : Reads id 32 d.value (Numeral.read .plain 32 d.text) := by
    unfold value text
    rw [hs]
    exact Numeral.reads_of_magnitude d.mark (by decide) (hdigits b List.mem_cons_self)
      (Numeral.magnitude_plain hdigits)
  have hline : Session.numberOf (.line d.text) =
      ((Numeral.read .plain 32 d.text).map Int32.ofInt).mapError .numeral := by
    simp only [Session.numberOf, Answer.ofLine, Numeral.readPlain32, d.trim_text]
  rw [hline]
  exact hread.ofInt.mapError _

end Decimal

end Decimals

namespace Scanner

section Tokens

/-- The digits that a scanner takes: those before the first that is none of the base. -/
def taken (digits : Bytes) : Bytes :=
  digits.takeWhile (inBase (baseOf digits))

/-- The digits that a scanner leaves. -/
def left (digits : Bytes) : Bytes :=
  digits.dropWhile (inBase (baseOf digits))

theorem inBase_of_isDigit
    {base : Nat} {b : UInt8}
    (hb : Bytes.isDigit b = true) :
    inBase base b = decide (b.toNat - 48 < base) := by
  simp [inBase, Numeral.ne_underscore_of_isDigit hb, Numeral.digitValue?_of_isDigit hb]

theorem inBase_ten
    {b : UInt8}
    (hb : Bytes.isDigit b = true) :
    inBase 10 b = true := by
  have hrange := Numeral.toNat_of_isDigit hb
  rw [inBase_of_isDigit hb, decide_eq_true_eq]
  omega

theorem isDigits_takeWhile
    {base : Nat} {s : Bytes}
    (hs : ∀ b ∈ s, Bytes.isDigit b = true) :
    IsDigits base (s.takeWhile (inBase base)) := by
  intro b hb
  have hdigit := hs b ((List.takeWhile_sublist _).subset hb)
  have hbase := List.all_eq_true.mp List.all_takeWhile b hb
  rw [inBase_of_isDigit hdigit, decide_eq_true_eq] at hbase
  exact ⟨hdigit, hbase⟩

/-- The first digit is always taken. -/
theorem taken_cons
    {b : UInt8} {s : Bytes}
    (hs : ∀ c ∈ b :: s, Bytes.isDigit c = true) :
    taken (b :: s) = b :: s.takeWhile (inBase (baseOf (b :: s))) := by
  have hb : inBase (baseOf (b :: s)) b = true := by
    by_cases hzero : b = '0'.toUInt8
    · subst hzero
      rfl
    · rw [Numeral.baseOf_of_ne hzero]
      exact inBase_ten (hs b List.mem_cons_self)
  rw [taken, List.takeWhile_cons_of_pos hb]

theorem baseOf_taken
    {b : UInt8} {s : Bytes}
    (hs : ∀ c ∈ b :: s, Bytes.isDigit c = true) :
    baseOf (taken (b :: s)) = baseOf (b :: s) := by
  rw [taken_cons hs]
  rfl

theorem filter_sign
    (mark : Numeral.Mark) {b : UInt8} {s : Bytes}
    (hb : Bytes.isDigit b = true) :
    ((mark.text ++ b :: s).take 1).filter (fun c => c == '+'.toUInt8 || c == '-'.toUInt8) =
      mark.text := by
  cases mark with
  | none =>
      have hsign : (b == '+'.toUInt8 || b == '-'.toUInt8) = false := by
        rw [Bool.or_eq_false_iff, beq_eq_false_iff_ne, beq_eq_false_iff_ne]
        constructor <;> rintro rfl <;> exact absurd hb (by decide)
      simp [Numeral.Mark.text, hsign]
  | plus => rfl
  | minus => rfl

/-- A text that does not go on with a numeral: it starts with no digit of any base and with no
letter that marks one. -/
structure Stops (rest : Bytes) : Prop where
  digit : ∀ base, rest.head?.any (inBase base) = false
  mark : rest.head?.bind Numeral.prefixBase? = none

theorem stops_nil : Stops [] :=
  ⟨fun _ => rfl, rfl⟩

/-- The token of a numeral has the digits that a scanner takes, and ends where the text does not
go on with a numeral. -/
theorem splitToken_append
    (mark : Numeral.Mark) {b : UInt8} {s rest : Bytes}
    (hs : ∀ c ∈ b :: s, Bytes.isDigit c = true)
    (hrest : Stops rest) :
    splitToken (mark.text ++ b :: (s ++ rest)) =
      (.ok (mark.text ++ taken (b :: s)), left (b :: s) ++ rest) := by
  obtain ⟨hb, htail⟩ := List.forall_mem_cons.mp hs
  unfold splitToken
  simp only [filter_sign mark hb, List.drop_left]
  by_cases hzero : b = '0'.toUInt8
  · subst hzero
    have hleft : left ('0'.toUInt8 :: s) = s.dropWhile (inBase 8) :=
      List.dropWhile_cons_of_pos rfl
    have hbase : baseOf ('0'.toUInt8 :: s) = 8 := rfl
    obtain ⟨htake, hdrop⟩ := span_append_left (hrest.digit 8) s
    rw [taken_cons hs, hleft, hbase, ← htake, ← hdrop]
    have hletter : (s ++ rest).head?.bind Numeral.prefixBase? = none := by
      cases s with
      | nil => exact hrest.mark
      | cons c s => exact Numeral.prefixBase?_of_isDigit (htail c List.mem_cons_self)
    cases hmore : s ++ rest with
    | nil => simp
    | cons c more =>
        rw [hmore] at hletter
        have hc : Numeral.prefixBase? c = none := hletter
        simp [hc]
  · obtain ⟨htake, hdrop⟩ := span_append_left (hrest.digit 10) (b :: s)
    rw [List.cons_append] at htake hdrop
    simp [hzero, inBase_ten hb, taken, left, Numeral.baseOf_of_ne hzero, htake, hdrop]

theorem splitToken_text
    (mark : Numeral.Mark) {b : UInt8} {s : Bytes}
    (hs : ∀ c ∈ b :: s, Bytes.isDigit c = true) :
    splitToken (mark.text ++ b :: s) =
      (.ok (mark.text ++ taken (b :: s)), left (b :: s)) := by
  have hsplit := splitToken_append mark hs stops_nil
  rwa [List.append_nil, List.append_nil] at hsplit

theorem reads_readToken
    {token : Bytes} {v : Int}
    (hread : Reads id 64 v (Numeral.read .prefixed 64 token)) :
    Reads Int32.toInt 32 v (readToken token) := by
  have hrange : FitsIn 32 v ↔ Int32.minValue.toInt ≤ v ∧ v ≤ Int32.maxValue.toInt := by
    rw [Int32.toInt_minValue, Int32.toInt_maxValue]
    unfold FitsIn
    omega
  have hwide : FitsIn 32 v → FitsIn 64 v := by
    unfold FitsIn
    omega
  unfold readToken
  generalize Numeral.read .prefixed 64 token = r at hread ⊢
  cases hread with
  | failure hout => exact .failure (mt hwide hout)
  | value hvalue _ =>
      cases hvalue
      dsimp only [id]
      split_ifs with hfits
      · exact .value (Numeral.toInt_ofInt_of_fitsIn (hrange.mpr hfits)) (hrange.mpr hfits)
      · exact .failure (mt hrange.mp hfits)

/-- A scanner reads what it takes of a decimal numeral in the base that it goes by. -/
theorem draw_text
    (d : Decimal) :
    Reads Int32.toInt 32 (d.mark.apply (Numeral.value (baseOf d.digits) (taken d.digits)))
        (draw ⟨d.text⟩).1 ∧
      (draw ⟨d.text⟩).2 = ⟨left d.digits⟩ := by
  obtain ⟨b, s, hs, hdigits⟩ := d.exists_cons
  have hsplit : splitToken d.text.trimFront =
      (.ok (d.mark.text ++ taken d.digits), left d.digits) := by
    rw [d.trimFront_text, Decimal.text, hs]
    exact splitToken_text d.mark hdigits
  unfold draw
  simp only [hsplit, and_true]
  have htaken : IsDigits (baseOf d.digits) (taken d.digits) := isDigits_takeWhile d.isDigit
  rw [hs] at htaken ⊢
  rw [← baseOf_taken hdigits] at htaken ⊢
  rw [taken_cons hdigits] at htaken ⊢
  exact reads_readToken (Numeral.reads_of_magnitude d.mark (by decide)
    (htaken b List.mem_cons_self).1 (Numeral.magnitude_prefixed htaken))

end Tokens

section Octal

/-- Zeros, and after them at most one digit, which is octal. -/
def OneOctal (digits : Bytes) : Prop :=
  (digits.dropWhile (· == '0'.toUInt8)).length ≤ 1 ∧
    (digits.dropWhile (· == '0'.toUInt8)).all (inBase 8) = true

instance (digits : Bytes) : Decidable (OneOctal digits) :=
  inferInstanceAs (Decidable (_ ∧ _))

/-- Digits read as octal stay behind all of them read in base ten by at least as much as
those before them. -/
theorem valueFrom_add_le
    {k m n : Nat} {s : Bytes}
    (h : m + k ≤ n) :
    Numeral.valueFrom 8 m (s.takeWhile (inBase 8)) + k ≤ Numeral.valueFrom 10 n s := by
  induction s generalizing m n with
  | nil => exact h
  | cons b s ih =>
      rw [Numeral.valueFrom_cons]
      by_cases hb : inBase 8 b = true
      · rw [List.takeWhile_cons_of_pos hb, Numeral.valueFrom_cons]
        exact ih (by omega)
      · rw [List.takeWhile_cons_of_neg hb]
        calc m + k ≤ n * 10 + (b.toNat - 48) := by omega
          _ ≤ _ := Numeral.le_valueFrom (by decide) _ s

/-- A second significant digit makes the two values differ. -/
theorem valueFrom_lt
    {n : Nat} (c : UInt8) (s : Bytes)
    (hn : 0 < n) :
    Numeral.valueFrom 8 n ((c :: s).takeWhile (inBase 8)) < Numeral.valueFrom 10 n (c :: s) := by
  rw [Numeral.valueFrom_cons]
  by_cases hc : inBase 8 c = true
  · rw [List.takeWhile_cons_of_pos hc, Numeral.valueFrom_cons]
    exact valueFrom_add_le (k := 1) (by omega)
  · rw [List.takeWhile_cons_of_neg hc]
    calc n < n * 10 + (c.toNat - 48) := by omega
      _ ≤ _ := Numeral.le_valueFrom (by decide) _ s

theorem value_eq_iff
    {s : Bytes}
    (hs : ∀ b ∈ s, Bytes.isDigit b = true) :
    Numeral.value 8 (s.takeWhile (inBase 8)) = Numeral.value 10 s ↔ OneOctal s := by
  induction s with
  | nil => exact ⟨fun _ => by decide, fun _ => rfl⟩
  | cons b s ih =>
      obtain ⟨hb, htail⟩ := List.forall_mem_cons.mp hs
      by_cases hzero : b = '0'.toUInt8
      · subst hzero
        have hdrop : OneOctal ('0'.toUInt8 :: s) ↔ OneOctal s := by
          unfold OneOctal
          rw [List.dropWhile_cons_of_pos (by decide)]
        rw [List.takeWhile_cons_of_pos (by decide), Numeral.value_cons, Numeral.value_cons, hdrop]
        exact ih htail
      · have hdrop : OneOctal (b :: s) ↔ s = [] ∧ inBase 8 b = true := by
          unfold OneOctal
          rw [List.dropWhile_cons_of_neg (by simpa using hzero)]
          cases s <;> simp
        have hpos : 0 < b.toNat - 48 := by
          have hlow := (Numeral.toNat_of_isDigit hb).1
          have hne : b.toNat ≠ 48 := fun h => hzero (UInt8.toNat_inj.mp h)
          omega
        rw [hdrop, Numeral.value_cons]
        by_cases hoctal : inBase 8 b = true
        · rw [List.takeWhile_cons_of_pos hoctal, Numeral.value_cons]
          cases s with
          | nil => simp [Numeral.valueFrom, hoctal]
          | cons c s => simp [Nat.ne_of_lt (valueFrom_lt c s hpos)]
        · -- the octal value is that of no digits
          have hle := Numeral.le_valueFrom (by decide : 0 < 10) (b.toNat - 48) s
          rw [List.takeWhile_cons_of_neg hoctal]
          refine ⟨fun h => ?_, fun h => absurd h.2 hoctal⟩
          change 0 = _ at h
          omega

/-- A scanner reads a decimal numeral as its value exactly if the numeral has no leading
zero, or is a single octal digit after zeros, or has too great an octal value already. -/
theorem reads_value_iff
    (d : Decimal) :
    Reads Int32.toInt 32 d.value (draw ⟨d.text⟩).1 ↔
      d.digits.head? ≠ some '0'.toUInt8 ∨ OneOctal d.digits ∨
        ¬FitsIn 32 (d.mark.apply (Numeral.value 8 (taken d.digits))) := by
  have hdraw := (draw_text d).1
  by_cases hzero : d.digits.head? = some '0'.toUInt8
  · have hbase : baseOf d.digits = 8 := if_pos hzero
    have htaken : taken d.digits = d.digits.takeWhile (inBase 8) := by rw [taken, hbase]
    rw [hbase] at hdraw
    have hle : Numeral.value 8 (taken d.digits) ≤ Numeral.value 10 d.digits := by
      rw [htaken]
      exact valueFrom_add_le (k := 0) (Nat.le_refl 0)
    have heq : Numeral.value 8 (taken d.digits) = Numeral.value 10 d.digits ↔
        OneOctal d.digits := by
      rw [htaken]
      exact value_eq_iff d.isDigit
    rw [Decimal.value, hdraw.iff_of_le hle, heq]
    simp [hzero]
  · have hbase : baseOf d.digits = 10 := if_neg hzero
    have htaken : taken d.digits = d.digits := by
      rw [taken, hbase]
      exact List.takeWhile_eq_self_iff.mpr fun b hb => inBase_ten (d.isDigit b hb)
    rw [hbase, htaken] at hdraw
    exact ⟨fun _ => .inl hzero, fun _ => hdraw⟩

end Octal

end Scanner

namespace Target

section Conversion

/-- The standard input of a generated program. -/
structure StandardInput where
  rest : Bytes
  deriving DecidableEq, Repr

namespace StandardInput

/-- The blanks that a conversion skips. -/
def isSpace (b : UInt8) : Bool :=
  b.toNat == 0x20 || (0x09 ≤ b.toNat && b.toNat ≤ 0x0D)

theorem not_isSpace_of_not_isBlank
    {b : UInt8}
    (hb : isBlank b.toNat = false) :
    isSpace b = false := by
  unfold isBlank at hb
  unfold isSpace
  simp_all

/-- The conversion `%d`.  The digits are read in base ten, whichever comes first; a
numeral out of range has no value. -/
def convert (s : StandardInput) : Except ReadFailure Int32 × StandardInput :=
  let (negative, body) := Numeral.splitSign (s.rest.dropWhile isSpace)
  let digits := body.takeWhile Bytes.isDigit
  let rest : StandardInput := ⟨body.dropWhile Bytes.isDigit⟩
  let n : Int := if negative then -Numeral.value 10 digits else Numeral.value 10 digits
  if digits.isEmpty then (.error .expectedInteger, rest)
  else if FitsIn 32 n then (.ok (Int32.ofInt n), rest)
  else (.error (.overflow digits), rest)

instance : NumberSource StandardInput where
  draw := convert

/-- The conversion reads a decimal numeral as its value. -/
theorem reads_convert
    (d : Decimal) :
    Reads Int32.toInt 32 d.value (convert ⟨d.text⟩).1 := by
  obtain ⟨b, s, hs, hdigits⟩ := d.exists_cons
  have hspace : d.text.dropWhile isSpace = d.text := by
    refine List.dropWhile_eq_self_iff.mpr fun hpos => ?_
    have hblank := (d.plain_of_mem_text _ (List.getElem_mem hpos)).2
    rw [not_isSpace_of_not_isBlank hblank]
    exact Bool.false_ne_true
  have hsplit : Numeral.splitSign d.text = (decide (d.mark = .minus), d.digits) := by
    rw [Decimal.text, hs]
    exact Numeral.splitSign_text_append d.mark (hdigits b List.mem_cons_self)
  have htake : d.digits.takeWhile Bytes.isDigit = d.digits :=
    List.takeWhile_eq_self_iff.mpr d.isDigit
  have hvalue : (if d.mark = .minus then -(Numeral.value 10 d.digits : Int)
      else Numeral.value 10 d.digits) = d.value := by
    unfold Decimal.value
    cases d.mark <;> rfl
  have hempty : d.digits.isEmpty = false := by
    rw [hs]
    rfl
  unfold convert
  simp only [hspace, hsplit, htake, decide_eq_true_eq, hvalue, hempty, Bool.false_eq_true, if_false]
  by_cases hfits : FitsIn 32 d.value
  · rw [if_pos hfits]
    exact .value (Numeral.toInt_ofInt_of_fitsIn hfits) hfits
  · rw [if_neg hfits]
    exact .failure hfits

end StandardInput

variable {σ : Type} {c : Process σ}

theorem load_of_pointer
    {cell : LValue} {p : Pointer}
    (hp : cell.pointer c = some p) :
    ∃ n, c.memory.load p = some n := by
  cases cell with
  | scalar x =>
      obtain ⟨n, hn, rfl⟩ := Option.map_eq_some_iff.mp hp
      exact ⟨n, hn⟩
  | element a i =>
      obtain ⟨cells, hcells, hp⟩ := Option.bind_eq_some_iff.mp hp
      obtain ⟨n, -, hp⟩ := Option.bind_eq_some_iff.mp hp
      split_ifs at hp with hrange
      cases hp
      have hbound : n.toInt.toNat < cells.size := by omega
      exact ⟨cells[n.toInt.toNat], by simp [Memory.load, hcells]⟩

theorem Memory.load_store
    {m : Memory} {k : Int32} {p : Pointer} (n : Int32)
    (hp : m.load p = some k) :
    ∃ m', m.store n p = some m' ∧ m'.load p = some n := by
  cases p with
  | scalar x =>
      have hx : m.int? x = some k := hp
      exact ⟨m.put x (.int n), by simp [store, hx], by simp [load, int?, put]⟩
  | element a i =>
      obtain ⟨cells, hcells, hi⟩ := Option.bind_eq_some_iff.mp hp
      obtain ⟨hbound, -⟩ := Array.getElem?_eq_some_iff.mp hi
      refine ⟨m.put a (.array (cells.setIfInBounds i n)), ?_, ?_⟩
      · simp [store, hcells, hbound]
      · simp [load, cells?, put, hbound]

/-- The statement that reads a number stores the number that is drawn. -/
theorem exec_scan
    [NumberSource σ] {cell : LValue} {p : Pointer} {n : Int32}
    (hp : cell.pointer c = some p)
    (hn : (NumberSource.draw c.input).1 = .ok n) :
    ∃ c', (Stmt.scan cell).exec c = .next c' ∧ c'.memory.load p = some n := by
  obtain ⟨k, hk⟩ := load_of_pointer hp
  obtain ⟨m', hstore, hload⟩ := Memory.load_store n hk
  cases hdraw : NumberSource.draw c.input with
  | mk r rest =>
      rw [hdraw] at hn
      cases hn
      refine ⟨{ c with input := rest, memory := m' }, ?_, hload⟩
      simp [Stmt.exec, hp, hdraw, Process.receive, Process.assign, hk, hstore, Effect.ofOption]

end Conversion

end Target

section Agreement

open Target (Process StandardInput LValue Pointer Stmt)

/-- A session reads every decimal numeral as its value, and so does the generated program:
what it stores is this value.  A scanner reads the digits that it takes in the base that it
goes by, and leaves the others; this is the value of the numeral exactly if there is no
leading zero, or zeros have at most one octal digit after them, or both values are out of
range. -/
theorem decimal_readings
    (d : Decimal) :
    Reads Int32.toInt 32 d.value (Session.numberOf (.line d.text)) ∧
      (∀ (c : Process StandardInput) (cell : LValue) (p : Pointer),
        cell.pointer c = some p → c.input = ⟨d.text⟩ → FitsIn 32 d.value →
          ∃ c' n, (Stmt.scan cell).exec c = .next c' ∧ c'.memory.load p = some n ∧
            n.toInt = d.value) ∧
      Reads Int32.toInt 32
        (d.mark.apply (Numeral.value (baseOf d.digits) (Scanner.taken d.digits)))
        (Scanner.draw ⟨d.text⟩).1 ∧
      (Scanner.draw ⟨d.text⟩).2 = ⟨Scanner.left d.digits⟩ ∧
      (Reads Int32.toInt 32 d.value (Scanner.draw ⟨d.text⟩).1 ↔
        d.digits.head? ≠ some '0'.toUInt8 ∨ Scanner.OneOctal d.digits ∨
          ¬FitsIn 32 (d.mark.apply (Numeral.value 8 (Scanner.taken d.digits)))) := by
  refine ⟨d.reads_numberOf, ?_, (Scanner.draw_text d).1, (Scanner.draw_text d).2,
    Scanner.reads_value_iff d⟩
  intro c cell p hp hinput hfits
  obtain ⟨n, hdraw, hvalue⟩ : ∃ n, (NumberSource.draw c.input).1 = .ok n ∧ n.toInt = d.value := by
    rw [hinput]
    exact (StandardInput.reads_convert d).exists_of_fitsIn hfits
  obtain ⟨c', hexec, hload⟩ := Target.exec_scan hp hdraw
  exact ⟨c', n, hexec, hload, hvalue⟩

/-- Minus seven, with zeros in front. -/
def paddedSeven : Decimal :=
  ⟨.minus, ascii "007", by decide, List.all_eq_true.mp rfl⟩

/-- A process with one variable, whose input is `-007`. -/
def sevenProcess : Process StandardInput :=
  ⟨.generated, Target.Memory.put (fun _ => none) (ascii "x") (.int 0), 0, none, none, none,
    ⟨paddedSeven.text⟩, #[]⟩

theorem paddedSeven_readings :
    paddedSeven.value = -7 ∧
      Reads Int32.toInt 32 (-7) (Session.numberOf (.line (ascii "-007"))) ∧
      (∃ c' n, (Stmt.scan (.scalar (ascii "x"))).exec sevenProcess = .next c' ∧
        c'.memory.load (.scalar (ascii "x")) = some n ∧ n.toInt = -7) ∧
      Reads Int32.toInt 32 (-7) (Scanner.draw ⟨ascii "-007"⟩).1 := by
  obtain ⟨hsession, hscan, -, -, hscanner⟩ := decimal_readings paddedSeven
  exact ⟨rfl, hsession, hscan sevenProcess _ _ rfl rfl (by decide),
    hscanner.mpr (.inr (.inl (by decide)))⟩

/-- Ten, with a zero in front. -/
def paddedTen : Decimal :=
  ⟨.none, ascii "010", by decide, List.all_eq_true.mp rfl⟩

/-- A scanner reads `010` as eight, where a session reads ten. -/
theorem paddedTen_differs :
    paddedTen.text = ascii "010" ∧ paddedTen.value = 10 ∧ FitsIn 32 paddedTen.value ∧
      Session.numberOf (.line paddedTen.text) = .ok 10 ∧
      (Scanner.draw ⟨paddedTen.text⟩).1 = .ok 8 ∧
      ¬Reads Int32.toInt 32 paddedTen.value (Scanner.draw ⟨paddedTen.text⟩).1 := by
  have hdraw : (Scanner.draw ⟨paddedTen.text⟩).1 = .ok 8 := by decide +kernel
  refine ⟨rfl, rfl, by decide, by decide +kernel, hdraw, ?_⟩
  rw [hdraw]
  rintro (⟨hvalue, -⟩)
  exact absurd hvalue (by decide)

end Agreement

end Contrary
