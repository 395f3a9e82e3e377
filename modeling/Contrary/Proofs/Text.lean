import Contrary.Listing
import Contrary.Text.Blank
import Contrary.Text.Numeral
import Mathlib.Data.List.Basic
import Mathlib.Data.List.TakeWhile
import Mathlib.Tactic.SplitIfs

/-!
# Reading texts that were written

Facts on plain texts, which the readers of source lines and of generated code share.

**Runs.**  A run of one kind ends where something of another kind comes next
(`span_append`).

**Numerals.**  A decimal numeral is a run of digits, and it is read as the number that
it was written for (`Numeral.readPlain32_decimal`).

**ASCII.**  A text of ASCII bytes has a glyph for each byte (`glyphs_of_isAscii`), and
trimming keeps it if no blank stands at its ends (`trim_of_isAscii`).

**Lines.**  Cutting at a byte undoes joining with it, as long as no piece holds the byte
(`splitOn_intercalate`), so the lines of a joined listing are the lines that were joined
(`Listing.lines_join`).
-/

namespace Contrary

section Runs

/-- A run does not go beyond where something of another kind comes next. -/
theorem span_append_left
    {α : Type} {p : α → Bool} {rest : List α}
    (hrest : rest.head?.any p = false) (x : List α) :
    (x ++ rest).takeWhile p = x.takeWhile p ∧
      (x ++ rest).dropWhile p = x.dropWhile p ++ rest := by
  induction x with
  | nil =>
      cases rest with
      | nil => simp
      | cons b rest =>
          have hb : p b = false := hrest
          simp [hb]
  | cons b x ih =>
      by_cases hb : p b = true
      · simp [hb, ih]
      · simp [hb]

/-- A run of one kind ends where something of another kind comes next. -/
theorem span_append
    {α : Type} {p : α → Bool} {x rest : List α}
    (hx : ∀ b ∈ x, p b = true)
    (hrest : rest.head?.any p = false) :
    (x ++ rest).takeWhile p = x ∧ (x ++ rest).dropWhile p = rest := by
  obtain ⟨htake, hdrop⟩ := span_append_left hrest x
  rw [htake, hdrop, List.takeWhile_eq_self_iff.mpr hx, List.dropWhile_eq_nil_iff.mpr hx]
  exact ⟨rfl, List.nil_append rest⟩

theorem head?_dropWhile
    {α : Type} (p : α → Bool) (l : List α) :
    (l.dropWhile p).head?.any p = false := by
  have hstop := List.head?_dropWhile_not p l
  cases hhead : (l.dropWhile p).head? with
  | none => rfl
  | some a =>
      rw [hhead] at hstop
      simpa using hstop

end Runs

section Numerals

theorem isDigit_digit :
    ∀ d < 10, Bytes.isDigit (Bytes.digit d) = true ∧ (Bytes.digit d).toNat - 48 = d := by
  decide

theorem isDigit_decimalNat
    (n : Nat) :
    ∀ b ∈ Bytes.decimalNat n, Bytes.isDigit b = true := by
  fun_induction Bytes.decimalNat n with
  | case1 n hn => simpa using (isDigit_digit n hn).1
  | case2 n hn ih =>
      intro b hb
      rcases List.mem_append.mp hb with hb | hb
      · exact ih b hb
      · rw [List.mem_singleton.mp hb]
        exact (isDigit_digit _ (Nat.mod_lt n (by decide))).1

theorem decimalNat_eq_cons
    (n : Nat) :
    ∃ b s, Bytes.decimalNat n = b :: s ∧ Bytes.isDigit b = true := by
  cases hs : Bytes.decimalNat n with
  | nil =>
      rw [Bytes.decimalNat] at hs
      split_ifs at hs
      simp at hs
  | cons b s => exact ⟨b, s, rfl, isDigit_decimalNat n b (by simp [hs])⟩

namespace Numeral

theorem digitValue?_digit
    {d : Nat}
    (hd : d < 10) :
    digitValue? (Bytes.digit d) = some d := by
  obtain ⟨hdigit, hvalue⟩ := isDigit_digit d hd
  rw [digitValue?, if_pos hdigit, hvalue]

/-- Digits are read one after another. -/
theorem readDigits_append
    {base limit : Nat} {gaps : Bool} (s s' : Bytes) :
    ∀ n, readDigits base limit gaps n (s ++ s') =
      readDigits base limit gaps n s >>= fun k => readDigits base limit gaps k s' := by
  induction s with
  | nil =>
      intro n
      rfl
  | cons b s ih =>
      intro n
      simp only [List.cons_append, readDigits]
      split_ifs
      · exact ih n
      · cases digitValue? b with
        | none => rfl
        | some d =>
            dsimp only
            split_ifs
            · rfl
            · rfl
            · exact ih _

theorem readDigits_decimalNat
    {limit n : Nat}
    (h : n ≤ limit) :
    readDigits 10 limit false 0 (Bytes.decimalNat n) = .ok n := by
  fun_induction Bytes.decimalNat n with
  | case1 n hn =>
      have hvalue := digitValue?_digit hn
      simp [readDigits, hvalue, Nat.not_le.mpr hn, Nat.not_lt.mpr h]
  | case2 n hn ih =>
      have hlast : n % 10 < 10 := Nat.mod_lt n (by decide)
      have hvalue := digitValue?_digit hlast
      have hsum : n / 10 * 10 + n % 10 = n := by omega
      rw [readDigits_append, ih (by omega)]
      change readDigits 10 limit false (n / 10) [Bytes.digit (n % 10)] = .ok n
      simp [readDigits, hvalue, Nat.not_le.mpr hlast, hsum, Nat.not_lt.mpr h]

theorem splitSign_of_isDigit
    {b : UInt8} {s : Bytes}
    (hb : Bytes.isDigit b = true) :
    splitSign (b :: s) = (false, b :: s) := by
  have hminus : (b == '-'.toUInt8) = false := by
    rw [beq_eq_false_iff_ne]
    rintro rfl
    exact absurd hb (by decide)
  have hplus : (b == '+'.toUInt8) = false := by
    rw [beq_eq_false_iff_ne]
    rintro rfl
    exact absurd hb (by decide)
  simp [splitSign, hminus, hplus]

/-- The decimal numeral of a number is read as this number. -/
theorem readPlain32_decimal
    {n : Int32}
    (hn : 0 ≤ n.toInt) :
    readPlain32 (Bytes.decimal n.toInt) = .ok n := by
  have hhigh := n.toInt_lt
  obtain ⟨k, hk⟩ := Int.eq_ofNat_of_zero_le hn
  obtain ⟨b, s, hs, hb⟩ := decimalNat_eq_cons k
  have htext : Bytes.decimal n.toInt = b :: s := by
    rw [hk, ← hs]
    rfl
  have hdigits : readDigits 10 ((1 <<< 32) - 1) false 0 (b :: s) = .ok k := by
    rw [← hs]
    exact readDigits_decimalNat (by omega)
  have hmagnitude : magnitude .plain 32 (b :: s) = .ok k := hdigits
  have hlt : k < 1 <<< (32 - 1) := by omega
  have hvalue : Int32.ofInt (k : Int) = n := by
    rw [← hk, Int32.ofInt_toInt]
  unfold readPlain32 read
  simp only [htext, splitSign_of_isDigit hb, hmagnitude, Bool.false_eq_true, if_false, if_pos hlt]
  exact congrArg Except.ok hvalue

end Numeral

end Numerals

section Ascii

/-- A text of ASCII bytes. -/
def IsAscii (s : Bytes) : Prop :=
  ∀ b ∈ s, b < 0x80

/-- The glyph of an ASCII byte. -/
def Glyph.ofByte (b : UInt8) : Glyph :=
  .point b.toNat [b]

theorem Glyph.first_of_lt
    {b : UInt8}
    (hb : b < 0x80) (rest : Bytes) :
    Glyph.first b rest = Glyph.ofByte b :=
  if_pos hb

theorem Glyph.isBlank_ofByte
    (b : UInt8) :
    (Glyph.ofByte b).isBlank = Contrary.isBlank b.toNat := by
  simp only [Glyph.isBlank, Glyph.ofByte, Glyph.code]

theorem glyphs_of_isAscii
    {s : Bytes}
    (hs : IsAscii s) :
    glyphs s = s.map Glyph.ofByte := by
  induction s with
  | nil => rw [glyphs, List.map_nil]
  | cons b s ih =>
      obtain ⟨hb, hs⟩ := List.forall_mem_cons.mp hs
      rw [glyphs, Glyph.first_of_lt hb, List.map_cons, ← ih hs]
      rfl

/-- No longer encoding ends a text of ASCII bytes, because none of them is a lead. -/
theorem Glyph.last_of_isAscii
    {b : UInt8} {before : Bytes}
    (hb : b < 0x80)
    (hbefore : IsAscii before) :
    Glyph.last b before = Glyph.ofByte b := by
  have hnone : ∀ longer : Nat → Option Glyph, (∀ k ∈ [1, 2, 3], longer k = none) →
      ([1, 2, 3].findSome? longer).getD (Glyph.first b []) = Glyph.ofByte b := by
    intro longer hlonger
    rw [List.findSome?_eq_none_iff.mpr hlonger]
    exact Glyph.first_of_lt hb []
  unfold Glyph.last
  refine hnone _ ?_
  intro k hk
  dsimp only
  split
  · rfl
  · rename_i c more hc
    have hmem : c ∈ before := by
      refine List.mem_of_mem_take (i := k) (List.mem_reverse.mp ?_)
      rw [hc]
      exact List.mem_cons_self
    have hlength : (Glyph.ofByte c).bytes.length ≠ k + 1 := by
      have hpos : k ≠ 0 := by
        rintro rfl
        simp at hk
      simpa [Glyph.ofByte, Glyph.bytes] using hpos
    rw [Glyph.first_of_lt (hbefore c hmem)]
    exact if_neg hlength

/-- A text whose first byte is no blank has none at its front. -/
theorem Bytes.trimFront_of_first
    {b : UInt8}
    (hb : b < 0x80)
    (hblank : isBlank b.toNat = false) (s : Bytes) :
    trimFront (b :: s) = b :: s := by
  rw [Bytes.trimFront.eq_def]
  dsimp only
  rw [Glyph.first_of_lt hb, Glyph.isBlank_ofByte, hblank]
  exact if_neg Bool.false_ne_true

theorem Bytes.trimFront_of_isAscii
    {s : Bytes}
    (hs : IsAscii s)
    (hfirst : ∀ b ∈ s.head?, isBlank b.toNat = false) :
    s.trimFront = s := by
  cases s with
  | nil => rw [Bytes.trimFront.eq_def]
  | cons b s => exact Bytes.trimFront_of_first (hs b List.mem_cons_self) (hfirst b rfl) s

theorem Bytes.trimReversed_of_isAscii
    {s : Bytes}
    (hs : IsAscii s)
    (hlast : ∀ b ∈ s.head?, isBlank b.toNat = false) :
    s.trimReversed = s := by
  cases s with
  | nil => rw [Bytes.trimReversed.eq_def]
  | cons b s =>
      obtain ⟨hb, hs⟩ := List.forall_mem_cons.mp hs
      rw [Bytes.trimReversed.eq_def]
      dsimp only
      rw [Glyph.last_of_isAscii hb hs, Glyph.isBlank_ofByte, hlast b rfl]
      exact if_neg Bool.false_ne_true

/-- Trimming keeps a text without blanks at its ends. -/
theorem trim_of_isAscii
    {s : Bytes}
    (hs : IsAscii s)
    (hfirst : ∀ b ∈ s.head?, isBlank b.toNat = false)
    (hlast : ∀ b ∈ s.getLast?, isBlank b.toNat = false) :
    s.trim = s := by
  have hreverse : IsAscii s.reverse := fun b hb => hs b (List.mem_reverse.mp hb)
  unfold Bytes.trim Bytes.trimEnd
  rw [Bytes.trimFront_of_isAscii hs hfirst,
    Bytes.trimReversed_of_isAscii hreverse (by rwa [List.head?_reverse]), List.reverse_reverse]

end Ascii

section Pieces

theorem splitOn_append_cons
    {sep : UInt8} {l : Bytes} (rest : Bytes)
    (hl : sep ∉ l) :
    Bytes.splitOn sep (l ++ sep :: rest) = l :: Bytes.splitOn sep rest := by
  induction l with
  | nil => simp [Bytes.splitOn]
  | cons b l ih =>
      rw [List.mem_cons, not_or] at hl
      have hb : b ≠ sep := Ne.symm hl.1
      rw [List.cons_append, Bytes.splitOn, if_neg hb, ih hl.2]

theorem splitOn_of_notMem
    {sep : UInt8} {l : Bytes}
    (hl : sep ∉ l) :
    Bytes.splitOn sep l = [l] := by
  induction l with
  | nil => rfl
  | cons b l ih =>
      rw [List.mem_cons, not_or] at hl
      have hb : b ≠ sep := Ne.symm hl.1
      rw [Bytes.splitOn, if_neg hb, ih hl.2]

/-- Cutting at a byte undoes joining with it. -/
theorem splitOn_intercalate
    {sep : UInt8} {l : Bytes} {ls : List Bytes}
    (hls : ∀ x ∈ l :: ls, sep ∉ x) :
    Bytes.splitOn sep (List.intercalate [sep] (l :: ls)) = l :: ls := by
  induction ls generalizing l with
  | nil =>
      simpa [List.intercalate] using splitOn_of_notMem (hls l List.mem_cons_self)
  | cons l' ls ih =>
      obtain ⟨hl, hls⟩ := List.forall_mem_cons.mp hls
      have hjoin : List.intercalate [sep] (l :: l' :: ls) =
          l ++ sep :: List.intercalate [sep] (l' :: ls) := by
        simp [List.intercalate]
      rw [hjoin, splitOn_append_cons _ hl, ih hls]

/-- The lines of a joined listing are the lines that were joined, if the last one is not
empty, which the listing would not show, and none ends in a return. -/
theorem Listing.lines_join
    {ls : List Bytes}
    (hls : ∀ l ∈ ls, '\n'.toUInt8 ∉ l ∧ '\r'.toUInt8 ∉ l)
    (hlast : ls.getLast? ≠ some []) :
    Listing.lines (Listing.join ls) = ls := by
  have hreturn : ls.map Listing.dropReturn = ls := by
    refine (List.map_congr_left fun l hl => ?_).trans (List.map_id ls)
    exact if_neg fun hend => (hls l hl).2 (List.mem_of_getLast? hend)
  cases ls with
  | nil => rfl
  | cons l ls =>
      unfold Listing.lines Listing.join
      rw [splitOn_intercalate fun x hx => (hls x hx).1]
      simp only [if_neg hlast]
      exact hreturn

end Pieces

end Contrary
