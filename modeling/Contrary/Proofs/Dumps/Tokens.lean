import Contrary.Proofs.Quoting
import Contrary.Proofs.Text
import Contrary.Token.Basic

/-!
# Dumps of token lines

The dump of token lines is made for people, and yet it can be read in one way only, although
a line may hold any bytes.

**Marks.**  A dump is made of words, numbers, quoted texts and signs.  A word is a run of letters
and a number a run of digits, so each of them ends where a sign comes next (`word_append_inj`,
`delimited_decimal`); a quoted text ends at its quote (`quoted_append_inj`).

**Tokens.**  A token is known from the word for its class and from what it holds, so its end
shows (`Token.delimited_dump`), and so does the end of a line (`TokenLine.delimited_dump`).

**Results.**
* `TokenLine.dumpAll_inj`: token lines with the same dump are the same.
-/

namespace Contrary

section Marks

/-- The letters of words. -/
def isLetter (b : UInt8) : Bool :=
  Bytes.isLower b || Bytes.isUpper b

/-- The bytes of numbers. -/
def isNumeralByte (b : UInt8) : Bool :=
  Bytes.isDigit b || b == '-'.toUInt8

/-- Two words with something else than a letter after them. -/
theorem word_append_inj
    {x y s t : Bytes}
    (hx : x.all isLetter = true)
    (hy : y.all isLetter = true)
    (hs : Breaks isLetter s)
    (ht : Breaks isLetter t)
    (h : x ++ s = y ++ t) :
    x = y ∧ s = t :=
  run_append_inj (List.all_eq_true.mp hx) (List.all_eq_true.mp hy) hs ht h

/-- A word does not start a text that starts with something else than a letter. -/
theorem word_ne_append
    {x s t : Bytes} {b : UInt8}
    (hx : x.all isLetter = true)
    (hne : x ≠ [])
    (hb : isLetter b = false) :
    b :: s ≠ x ++ t := by
  intro h
  cases x with
  | nil => exact hne rfl
  | cons c x =>
      rw [List.all_cons, ← (List.cons.inj h).1, hb] at hx
      cases hx

theorem decimalNat_inj
    {n m : Nat}
    (h : Bytes.decimalNat n = Bytes.decimalNat m) :
    n = m := by
  have hn : Numeral.readDigits 10 (max n m) false 0 (Bytes.decimalNat n) = .ok n :=
    Numeral.readDigits_decimalNat (Nat.le_max_left n m)
  have hm : Numeral.readDigits 10 (max n m) false 0 (Bytes.decimalNat m) = .ok m :=
    Numeral.readDigits_decimalNat (Nat.le_max_right n m)
  rw [h, hm] at hn
  exact (Except.ok.inj hn).symm

theorem decimal_inj
    {n m : Int}
    (h : Bytes.decimal n = Bytes.decimal m) :
    n = m := by
  have hsign : ∀ (k : Nat) (s : Bytes), Bytes.decimalNat k ≠ '-'.toUInt8 :: s := by
    intro k s hk
    have hdigit := isDigit_decimalNat k '-'.toUInt8 (by rw [hk]; exact List.mem_cons_self)
    exact absurd hdigit (by decide)
  cases n with
  | ofNat n =>
      cases m with
      | ofNat m => exact congrArg Int.ofNat (decimalNat_inj h)
      | negSucc m => exact absurd h (hsign n _)
  | negSucc n =>
      cases m with
      | ofNat m => exact absurd h.symm (hsign m _)
      | negSucc m =>
          have hnext := decimalNat_inj (List.cons.inj h).2
          exact congrArg Int.negSucc (Nat.succ.inj hnext)

theorem isNumeralByte_decimal
    (n : Int) :
    ∀ b ∈ Bytes.decimal n, isNumeralByte b = true := by
  have hdigits : ∀ k, ∀ b ∈ Bytes.decimalNat k, isNumeralByte b = true := by
    intro k b hb
    rw [isNumeralByte, isDigit_decimalNat k b hb, Bool.true_or]
  intro b hb
  cases n with
  | ofNat n => exact hdigits n b hb
  | negSucc n =>
      rcases List.mem_cons.mp hb with rfl | hb
      · rfl
      · exact hdigits (n + 1) b hb

/-- The end of a number shows where no digit comes next. -/
theorem delimited_decimal :
    Delimited isNumeralByte (fun _ => True) Bytes.decimal := by
  intro n m s t _ _ hs ht h
  obtain ⟨hnumeral, hrest⟩ :=
    run_append_inj (isNumeralByte_decimal n) (isNumeralByte_decimal m) hs ht h
  exact ⟨decimal_inj hnumeral, hrest⟩

/-- A number in parentheses. -/
theorem number_append_inj
    {n m : Int} {s t : Bytes}
    (h : '('.toUInt8 :: (Bytes.decimal n ++ ')'.toUInt8 :: s) =
      '('.toUInt8 :: (Bytes.decimal m ++ ')'.toUInt8 :: t)) :
    n = m ∧ s = t := by
  obtain ⟨hnumber, hrest⟩ :=
    delimited_decimal n m _ _ trivial trivial (by rfl) (by rfl) (List.cons.inj h).2
  exact ⟨hnumber, (List.cons.inj hrest).2⟩

/-- A quoted text, whatever comes next. -/
theorem quoted_append_inj
    {x y s t : Bytes}
    (h : x.quoted ++ s = y.quoted ++ t) :
    x = y ∧ s = t :=
  Bytes.delimited_quoted x y s t trivial trivial (breaks_noByte s) (breaks_noByte t) h

end Marks

section Tokens

namespace Token

/-- The class of a token; none for an unknown one. -/
def kind? : Token → Option TokenKind
  | .name _ => some .name
  | .literal _ => some .literal
  | .bracket _ => some .bracket
  | .comment _ => some .comment
  | .unknown => none

/-- The word for the class of a token. -/
def kindWord (k : Option TokenKind) : Bytes :=
  (k.map TokenKind.label).getD (ascii "unknown")

/-- What follows the word in the dump of a token. -/
def payload : Token → Bytes
  | .name text => '('.toUInt8 :: (text.quoted ++ [')'.toUInt8])
  | .literal value => '('.toUInt8 :: (Bytes.decimal value.toInt ++ [')'.toUInt8])
  | .bracket side => '('.toUInt8 :: (side.label ++ [')'.toUInt8])
  | .comment text => '('.toUInt8 :: (text.quoted ++ [')'.toUInt8])
  | .unknown => []

theorem kindWord_letters
    (k : Option TokenKind) :
    (kindWord k).all isLetter = true ∧ kindWord k ≠ [] := by
  rcases k with _ | _ | _ | _ | _ <;> decide

theorem kindWord_inj
    {k k' : Option TokenKind} :
    kindWord k = kindWord k' → k = k' := by
  rcases k with _ | _ | _ | _ | _ <;> rcases k' with _ | _ | _ | _ | _ <;> decide

theorem labelled_eq
    (kind : TokenKind) (content : Bytes) :
    labelled kind content = kind.label ++ '('.toUInt8 :: (content ++ [')'.toUInt8]) := by
  simp [labelled, ascii]

theorem dump_eq
    (t : Token) :
    t.dump = kindWord t.kind? ++ t.payload := by
  cases t with
  | name x => exact labelled_eq .name x.quoted
  | literal n => exact labelled_eq .literal (Bytes.decimal n.toInt)
  | bracket side => exact labelled_eq .bracket side.label
  | comment x => exact labelled_eq .comment x.quoted
  | unknown => rfl

theorem breaks_payload
    (t : Token) {s : Bytes}
    (hs : Breaks isLetter s) :
    Breaks isLetter (t.payload ++ s) := by
  cases t with
  | unknown => exact hs
  | _ => rfl

theorem sideLabel_append_inj
    {a b : Side} {s t : Bytes}
    (h : a.label ++ ')'.toUInt8 :: s = b.label ++ ')'.toUInt8 :: t) :
    a = b ∧ s = t := by
  have hletters : ∀ c : Side, c.label.all isLetter = true := by
    intro c
    cases c <;> decide
  have hinj : ∀ c d : Side, c.label = d.label → c = d := by
    intro c d
    cases c <;> cases d <;> decide
  obtain ⟨hlabel, hrest⟩ := word_append_inj (hletters a) (hletters b) (by rfl) (by rfl) h
  exact ⟨hinj a b hlabel, (List.cons.inj hrest).2⟩

/-- A text in parentheses and quotes. -/
theorem quotedPayload_append_inj
    {x y s t : Bytes}
    (h : '('.toUInt8 :: (x.quoted ++ [')'.toUInt8]) ++ s =
      '('.toUInt8 :: (y.quoted ++ [')'.toUInt8]) ++ t) :
    x = y ∧ s = t := by
  rw [List.cons_append, List.cons_append, List.append_assoc, List.append_assoc] at h
  obtain ⟨htext, hrest⟩ := quoted_append_inj (List.cons.inj h).2
  exact ⟨htext, (List.cons.inj hrest).2⟩

/-- The end of a token shows where no letter comes next. -/
theorem delimited_dump :
    Delimited isLetter (fun _ => True) dump := by
  intro t t' s s' _ _ hs hs' h
  rw [dump_eq, dump_eq, List.append_assoc, List.append_assoc] at h
  obtain ⟨hword, hrest⟩ := word_append_inj (kindWord_letters _).1 (kindWord_letters _).1
    (breaks_payload t hs) (breaks_payload t' hs') h
  have hkind := kindWord_inj hword
  cases t with
  | name x =>
      cases t' with
      | name y =>
          obtain ⟨rfl, hend⟩ := quotedPayload_append_inj hrest
          exact ⟨rfl, hend⟩
      | _ => cases hkind
  | literal n =>
      cases t' with
      | literal m =>
          simp only [payload, List.cons_append, List.append_assoc, List.nil_append] at hrest
          obtain ⟨hnumber, hend⟩ := number_append_inj hrest
          exact ⟨congrArg Token.literal (Int32.toInt_inj.mp hnumber), hend⟩
      | _ => cases hkind
  | bracket side =>
      cases t' with
      | bracket side' =>
          simp only [payload, List.cons_append, List.append_assoc, List.nil_append] at hrest
          obtain ⟨rfl, hend⟩ := sideLabel_append_inj (List.cons.inj hrest).2
          exact ⟨rfl, hend⟩
      | _ => cases hkind
  | comment x =>
      cases t' with
      | comment y =>
          obtain ⟨rfl, hend⟩ := quotedPayload_append_inj hrest
          exact ⟨rfl, hend⟩
      | _ => cases hkind
  | unknown =>
      cases t' with
      | unknown => exact ⟨rfl, hrest⟩
      | _ => cases hkind

/-- No token starts with a bracket. -/
theorem startsNone_bracket
    (s : Bytes) :
    StartsNone (fun _ => True) dump (']'.toUInt8 :: s) := by
  intro t u _ h
  obtain ⟨hletters, hne⟩ := kindWord_letters t.kind?
  rw [dump_eq, List.append_assoc] at h
  exact word_ne_append hletters hne (by decide) h

end Token

namespace TokenLine

/-- The end of a token line shows. -/
theorem delimited_dump :
    Delimited noByte (fun _ => True) dump := by
  rintro ⟨ts, raw⟩ ⟨ts', raw'⟩ s s' - - - - h
  simp only [dump, Bytes.line, List.append_assoc] at h
  obtain ⟨hraw, hrest⟩ := quoted_append_inj h
  obtain ⟨htokens, hend⟩ := Token.delimited_dump.join rfl rfl (by decide)
    (Token.startsNone_bracket _) (Token.startsNone_bracket _) (fun _ _ => trivial)
    (fun _ _ => trivial) (List.append_cancel_left hrest)
  refine ⟨by rw [hraw, htokens], (List.cons.inj hend).2⟩

/-- Token lines with the same dump are the same. -/
theorem dumpAll_inj
    {ls ls' : List TokenLine}
    (h : dumpAll ls = dumpAll ls') :
    ls = ls' :=
  delimited_dump.flatMap_inj
    (fun _ => List.append_ne_nil_of_right_ne_nil _ (List.cons_ne_nil _ _)) h

end TokenLine

end Tokens

end Contrary
