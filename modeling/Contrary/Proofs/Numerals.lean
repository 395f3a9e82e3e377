import Contrary.Proofs.Text

/-!
# The values of numerals

**Digits.**  `Numeral.value` is the value of digits in a base.  Reading digits gives this
value as long as it is within the limit (`Numeral.readDigits_of_isDigits`).

**Ranges.**  `Numeral.Reads` says what reading a number should come to: the number itself if
it is in range, and a failure otherwise.  Reading a signed numeral comes to this if reading
its digits does (`Numeral.reads_of_magnitude`), in either style (`Numeral.magnitude_plain`,
`Numeral.magnitude_prefixed`).
-/

namespace Contrary

namespace Numeral

section Values

/-- The value of digits in a base, on top of the value `n` of those before them. -/
def valueFrom (base n : Nat) (digits : Bytes) : Nat :=
  digits.foldl (fun n b => n * base + (b.toNat - 48)) n

/-- The value of digits in a base. -/
def value (base : Nat) (digits : Bytes) : Nat :=
  valueFrom base 0 digits

theorem valueFrom_cons
    (base n : Nat) (b : UInt8) (s : Bytes) :
    valueFrom base n (b :: s) = valueFrom base (n * base + (b.toNat - 48)) s :=
  List.foldl_cons ..

theorem value_cons
    (base : Nat) (b : UInt8) (s : Bytes) :
    value base (b :: s) = valueFrom base (b.toNat - 48) s := by
  rw [value, valueFrom_cons, Nat.zero_mul, Nat.zero_add]

/-- Digits of a base of at most ten. -/
def IsDigits (base : Nat) (s : Bytes) : Prop :=
  ∀ b ∈ s, Bytes.isDigit b = true ∧ b.toNat - 48 < base

theorem toNat_of_isDigit
    {b : UInt8}
    (hb : Bytes.isDigit b = true) :
    48 ≤ b.toNat ∧ b.toNat ≤ 57 := by
  simp only [Bytes.isDigit, Bool.and_eq_true, decide_eq_true_eq, UInt8.le_iff_toNat_le] at hb
  exact hb

theorem IsDigits.of_isDigit
    {s : Bytes}
    (hs : ∀ b ∈ s, Bytes.isDigit b = true) :
    IsDigits 10 s := by
  intro b hb
  have hrange := toNat_of_isDigit (hs b hb)
  exact ⟨hs b hb, by omega⟩

theorem le_valueFrom
    {base : Nat}
    (hbase : 0 < base) (n : Nat) (s : Bytes) :
    n ≤ valueFrom base n s := by
  induction s generalizing n with
  | nil => exact Nat.le_refl n
  | cons b s ih =>
      calc n ≤ n * base := Nat.le_mul_of_pos_right n hbase
        _ ≤ n * base + (b.toNat - 48) := Nat.le_add_right _ _
        _ ≤ valueFrom base n (b :: s) := ih _

theorem ne_underscore_of_isDigit
    {b : UInt8}
    (hb : Bytes.isDigit b = true) :
    (b == '_'.toUInt8) = false := by
  rw [beq_eq_false_iff_ne]
  rintro rfl
  exact absurd hb (by decide)

theorem digitValue?_of_isDigit
    {b : UInt8}
    (hb : Bytes.isDigit b = true) :
    digitValue? b = some (b.toNat - 48) :=
  if_pos hb

/-- Digits are read as their value, as long as it is within the limit. -/
theorem readDigits_of_isDigits
    {base limit : Nat} {gaps : Bool} {s : Bytes} {n : Nat}
    (hs : IsDigits base s)
    (hn : n ≤ limit) :
    readDigits base limit gaps n s =
      if valueFrom base n s ≤ limit then .ok (valueFrom base n s) else .error .outOfRange := by
  induction s generalizing n with
  | nil => exact (if_pos hn).symm
  | cons b s ih =>
      obtain ⟨⟨hdigit, hbase⟩, hs⟩ := List.forall_mem_cons.mp hs
      have hpos : 0 < base := by omega
      simp only [readDigits, ne_underscore_of_isDigit hdigit, digitValue?_of_isDigit hdigit,
        Bool.and_false, Bool.false_eq_true, if_false, if_neg (Nat.not_le.mpr hbase)]
      by_cases hlimit : limit < n * base + (b.toNat - 48)
      · -- further digits do not make the value smaller
        have hover := le_valueFrom hpos (n * base + (b.toNat - 48)) s
        rw [if_pos hlimit, valueFrom_cons, if_neg (by omega)]
      · rw [if_neg hlimit, ih hs (Nat.not_lt.mp hlimit), valueFrom_cons]

theorem gapsInside_of_isDigit
    {s : Bytes}
    (hs : ∀ b ∈ s, Bytes.isDigit b = true) :
    gapsInside true s = true := by
  induction s with
  | nil => rfl
  | cons b s ih =>
      obtain ⟨hb, hs⟩ := List.forall_mem_cons.mp hs
      simp only [gapsInside, ne_underscore_of_isDigit hb, Bool.false_eq_true, if_false]
      exact ih hs

theorem prefixBase?_of_isDigit
    {b : UInt8}
    (hb : Bytes.isDigit b = true) :
    prefixBase? b = none := by
  have hne : ∀ c : UInt8, Bytes.isDigit c = false → (b == c) = false := by
    intro c hc
    rw [beq_eq_false_iff_ne]
    rintro rfl
    exact absurd hb (by simp [hc])
  simp only [prefixBase?, hne 'b'.toUInt8 rfl, hne 'B'.toUInt8 rfl, hne 'o'.toUInt8 rfl,
    hne 'O'.toUInt8 rfl, hne 'x'.toUInt8 rfl, hne 'X'.toUInt8 rfl, Bool.or_false,
    Bool.false_eq_true, if_false]

end Values

section Signed

/-- What may stand in front of the digits of a numeral. -/
inductive Mark where
  | none
  | plus
  | minus
  deriving DecidableEq, Repr

def Mark.text : Mark → Bytes
  | .none => []
  | .plus => ['+'.toUInt8]
  | .minus => ['-'.toUInt8]

def Mark.apply : Mark → Nat → Int
  | .minus, n => -n
  | _, n => n

/-- A number in the two's complement range of `bits` bits. -/
def FitsIn (bits : Nat) (v : Int) : Prop :=
  -((1 <<< (bits - 1) : Nat) : Int) ≤ v ∧ v < ((1 <<< (bits - 1) : Nat) : Int)

instance (bits : Nat) (v : Int) : Decidable (FitsIn bits v) :=
  inferInstanceAs (Decidable (_ ∧ _))

/-- The result of reading a number of `bits` bits: the number if it is in range, and a
failure otherwise. -/
inductive Reads {α ε : Type} (toInt : α → Int) (bits : Nat) (v : Int) : Except ε α → Prop
  | value {n : α} : toInt n = v → FitsIn bits v → Reads toInt bits v (.ok n)
  | failure {e : ε} : ¬FitsIn bits v → Reads toInt bits v (.error e)

/-- A number of greater magnitude is in range only if a smaller one is. -/
theorem Mark.fitsIn_of_le
    {bits m n : Nat} {mark : Mark}
    (hle : m ≤ n)
    (hn : FitsIn bits (mark.apply n)) :
    FitsIn bits (mark.apply m) := by
  obtain ⟨hlow, hhigh⟩ := hn
  cases mark <;> constructor <;> simp only [Mark.apply] at hlow hhigh ⊢ <;> omega

theorem Mark.apply_inj
    {m n : Nat} {mark : Mark} :
    mark.apply m = mark.apply n ↔ m = n := by
  cases mark <;> simp only [Mark.apply] <;> omega

theorem splitSign_text_append
    {b : UInt8} {s : Bytes} (mark : Mark)
    (hb : Bytes.isDigit b = true) :
    splitSign (mark.text ++ b :: s) = (decide (mark = .minus), b :: s) := by
  cases mark with
  | none => exact splitSign_of_isDigit hb
  | plus => rfl
  | minus => rfl

theorem Mark.fitsIn_iff
    (mark : Mark) (bits v : Nat) :
    FitsIn bits (mark.apply v) ↔
      if mark = .minus then v ≤ 1 <<< (bits - 1) else v < 1 <<< (bits - 1) := by
  have hpos : 0 < 1 <<< (bits - 1) := by
    rw [Nat.one_shiftLeft]
    exact Nat.two_pow_pos _
  unfold FitsIn
  cases mark <;> simp only [Mark.apply, reduceCtorEq, if_true, if_false] <;> omega

/-- A signed numeral is read as its value if the digits are. -/
theorem reads_of_magnitude
    {style : NumeralStyle} {bits v : Nat} {b : UInt8} {s : Bytes} (mark : Mark)
    (hbits : 0 < bits)
    (hb : Bytes.isDigit b = true)
    (hv : magnitude style bits (b :: s) =
      if v ≤ (1 <<< bits) - 1 then .ok v else .error .outOfRange) :
    Reads id bits (mark.apply v) (read style bits (mark.text ++ b :: s)) := by
  have hdouble : 1 <<< bits = 2 * 1 <<< (bits - 1) := by
    rw [← Nat.shiftLeft_succ, Nat.sub_add_cancel hbits]
  have hfits := mark.fitsIn_iff bits v
  unfold read
  simp only [splitSign_text_append mark hb, hv, decide_eq_true_eq]
  by_cases hsize : v ≤ (1 <<< bits) - 1
  · rw [if_pos hsize]
    dsimp only
    by_cases hminus : mark = .minus
    · rw [if_pos hminus] at hfits ⊢
      split_ifs with hrange
      · subst hminus
        exact .value rfl (hfits.mpr hrange)
      · exact .failure (mt hfits.mp hrange)
    · rw [if_neg hminus] at hfits ⊢
      split_ifs with hrange
      · have happly : mark.apply v = v := by
          cases mark <;> first | rfl | exact absurd rfl hminus
        exact .value happly.symm (hfits.mpr hrange)
      · exact .failure (mt hfits.mp hrange)
  · -- the limit on the digits lies beyond either end of the range
    rw [if_neg hsize]
    refine .failure (mt hfits.mp ?_)
    split_ifs <;> omega

/-- A reading of a number is also one of a number of greater magnitude exactly if the two
are the same, or if already the first is out of range. -/
theorem Reads.iff_of_le
    {α ε : Type} {toInt : α → Int} {bits m n : Nat} {mark : Mark} {r : Except ε α}
    (hle : m ≤ n)
    (hr : Reads toInt bits (mark.apply m) r) :
    Reads toInt bits (mark.apply n) r ↔ m = n ∨ ¬FitsIn bits (mark.apply m) := by
  cases hr with
  | value hvalue hfits =>
      constructor
      · rintro (⟨hn, -⟩)
        exact .inl (Mark.apply_inj.mp (hvalue.symm.trans hn))
      · rintro (rfl | hout)
        · exact .value hvalue hfits
        · exact absurd hfits hout
  | failure hout => exact ⟨fun _ => .inr hout, fun _ => .failure (mt (Mark.fitsIn_of_le hle) hout)⟩

theorem Reads.exists_of_fitsIn
    {α ε : Type} {toInt : α → Int} {bits : Nat} {v : Int} {r : Except ε α}
    (hr : Reads toInt bits v r)
    (hv : FitsIn bits v) :
    ∃ n, r = .ok n ∧ toInt n = v := by
  cases hr with
  | value hvalue _ => exact ⟨_, rfl, hvalue⟩
  | failure hout => exact absurd hv hout

theorem Reads.mapError
    {α ε ε' : Type} {toInt : α → Int} {bits : Nat} {v : Int} {r : Except ε α}
    (hr : Reads toInt bits v r) (f : ε → ε') :
    Reads toInt bits v (r.mapError f) := by
  cases hr with
  | value hvalue hfits => exact .value hvalue hfits
  | failure hout => exact .failure hout

theorem toInt_ofInt_of_fitsIn
    {v : Int}
    (hv : FitsIn 32 v) :
    (Int32.ofInt v).toInt = v :=
  Int32.toInt_ofInt_of_le hv.1 hv.2

theorem Reads.ofInt
    {ε : Type} {v : Int} {r : Except ε Int}
    (hr : Reads id 32 v r) :
    Reads Int32.toInt 32 v (r.map Int32.ofInt) := by
  cases hr with
  | value hvalue hfits =>
      cases hvalue
      exact .value (toInt_ofInt_of_fitsIn hfits) hfits
  | failure hout => exact .failure hout

end Signed

section Texts

theorem magnitude_plain
    {bits : Nat} {b : UInt8} {s : Bytes}
    (hs : ∀ c ∈ b :: s, Bytes.isDigit c = true) :
    magnitude .plain bits (b :: s) =
      if value 10 (b :: s) ≤ (1 <<< bits) - 1 then .ok (value 10 (b :: s))
      else .error .outOfRange :=
  readDigits_of_isDigits (.of_isDigit hs) (Nat.zero_le _)

/-- The base in which a prefixed numeral without a letter is read: a leading zero makes
it octal. -/
def baseOf (digits : Bytes) : Nat :=
  if digits.head? = some '0'.toUInt8 then 8 else 10

theorem baseOf_of_ne
    {b : UInt8} {s : Bytes}
    (hb : b ≠ '0'.toUInt8) :
    baseOf (b :: s) = 10 :=
  if_neg fun h => hb (Option.some.inj h)

theorem splitBase_zero
    {s : Bytes}
    (hs : ∀ b ∈ s, Bytes.isDigit b = true) :
    splitBase ('0'.toUInt8 :: s) = (8, s) := by
  rcases s with - | ⟨c, - | ⟨d, rest⟩⟩
  · rfl
  · rfl
  · have hc := prefixBase?_of_isDigit (hs c List.mem_cons_self)
    simp only [splitBase, beq_self_eq_true, if_true, hc]

theorem magnitude_of_splitBase
    {bits base : Nat} {b : UInt8} {s digits : Bytes}
    (hsplit : splitBase (b :: s) = (base, digits))
    (hdigits : IsDigits base digits)
    (hgaps : gapsInside (base != 10) digits = true) :
    magnitude .prefixed bits (b :: s) =
      if value base digits ≤ (1 <<< bits) - 1 then .ok (value base digits)
      else .error .outOfRange := by
  simp only [magnitude, List.isEmpty_cons, Bool.false_eq_true, if_false, hsplit,
    readDigits_of_isDigits hdigits (Nat.zero_le _), hgaps]
  by_cases hlimit : valueFrom base 0 digits ≤ (1 <<< bits) - 1
  · simp only [value, hlimit, if_true]
  · simp only [value, hlimit, if_false]

theorem magnitude_prefixed
    {bits : Nat} {b : UInt8} {s : Bytes}
    (hs : IsDigits (baseOf (b :: s)) (b :: s)) :
    magnitude .prefixed bits (b :: s) =
      if value (baseOf (b :: s)) (b :: s) ≤ (1 <<< bits) - 1
      then .ok (value (baseOf (b :: s)) (b :: s)) else .error .outOfRange := by
  obtain ⟨hb, htail⟩ := List.forall_mem_cons.mp hs
  have hdigits : ∀ c ∈ s, Bytes.isDigit c = true := fun c hc => (htail c hc).1
  have hgaps := gapsInside_of_isDigit hdigits
  by_cases hzero : b = '0'.toUInt8
  · subst hzero
    -- the zero itself adds nothing to the value
    have hvalue : value 8 ('0'.toUInt8 :: s) = value 8 s := value_cons ..
    rw [show baseOf ('0'.toUInt8 :: s) = 8 from rfl] at htail ⊢
    rw [hvalue]
    exact magnitude_of_splitBase (splitBase_zero hdigits) htail hgaps
  · rw [baseOf_of_ne hzero] at hs ⊢
    refine magnitude_of_splitBase (by simp [splitBase, hzero]) hs ?_
    simp only [gapsInside, ne_underscore_of_isDigit hb.1, Bool.false_eq_true, if_false]
    exact hgaps

end Texts

end Numeral

end Contrary
