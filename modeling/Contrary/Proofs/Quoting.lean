import Contrary.Proofs.LineEnds
import Contrary.Text.Quoted

/-!
# Quoted texts can be told apart

A text may hold any bytes, quotes and backslashes among them, and still no two texts are
quoted alike.  More than that, the end of a quoted text shows, so it can be told what is in
the quotes and what comes after them.

**Delimited texts.**  `Delimited q P f` says that the end of what `f` writes shows, as long as no
byte of the class `q` comes next.  A list is delimited if its entries are, and if what comes
after it cannot be taken for one more entry (`Delimited.flatMap`, `Delimited.join`).

**Encodings.**  A code point has one encoding (`Glyph.encode`), so a glyph that is not stray is
known from its code point (`Glyph.first_eq`).

**Escapes.**  A glyph between quotes is either its bytes or an escape, of which the letter after
the backslash gives the number of digits (`Glyph.quoted_cases`).

**Results.**
* `Bytes.delimited_quoted`: quoted texts are delimited.
-/

namespace Contrary

section Delimited

variable {α : Type} {q : UInt8 → Bool} {P : α → Prop} {f : α → Bytes}

/-- A text that does not start with a byte of a class. -/
def Breaks (q : UInt8 → Bool) (s : Bytes) : Prop :=
  s.head?.any q = false

/-- The class of no bytes: every text breaks it. -/
def noByte (_ : UInt8) : Bool :=
  false

/-- The end of what `f` writes shows, as long as no byte of a class comes next: if two texts
are the same, and start with entries that satisfy `P`, then so are the entries and what
follows them. -/
def Delimited (q : UInt8 → Bool) (P : α → Prop) (f : α → Bytes) : Prop :=
  ∀ (a b : α) (s t : Bytes), P a → P b → Breaks q s → Breaks q t →
    f a ++ s = f b ++ t → a = b ∧ s = t

/-- A text that no entry starts. -/
def StartsNone (P : α → Prop) (f : α → Bytes) (s : Bytes) : Prop :=
  ∀ (a : α) (t : Bytes), P a → s ≠ f a ++ t

theorem breaks_noByte
    (s : Bytes) :
    Breaks noByte s := by
  cases s <;> rfl

/-- Entries one after another, up to a text that no entry starts. -/
theorem Delimited.flatMap
    (h : Delimited q P f)
    (hstart : ∀ (a : α) (s : Bytes), P a → Breaks q (f a ++ s))
    {s t : Bytes}
    (hs : Breaks q s)
    (ht : Breaks q t)
    (hs' : StartsNone P f s)
    (ht' : StartsNone P f t) (xs : List α) :
    ∀ ys : List α, (∀ a ∈ xs, P a) → (∀ b ∈ ys, P b) →
      xs.flatMap f ++ s = ys.flatMap f ++ t → xs = ys ∧ s = t := by
  have hbreaks : ∀ {u : Bytes}, Breaks q u → ∀ zs : List α, (∀ a ∈ zs, P a) →
      Breaks q (zs.flatMap f ++ u) := by
    intro u hu zs hzs
    cases zs with
    | nil => exact hu
    | cons a zs =>
        rw [List.flatMap_cons, List.append_assoc]
        exact hstart a _ (hzs a List.mem_cons_self)
  induction xs with
  | nil =>
      intro ys _ hys heq
      cases ys with
      | nil => exact ⟨rfl, heq⟩
      | cons b ys =>
          rw [List.flatMap_cons, List.append_assoc] at heq
          exact absurd heq (hs' b _ (hys b List.mem_cons_self))
  | cons a xs ih =>
      intro ys hxs hys heq
      obtain ⟨ha, hxs⟩ := List.forall_mem_cons.mp hxs
      cases ys with
      | nil =>
          rw [List.flatMap_cons, List.append_assoc] at heq
          exact absurd heq.symm (ht' a _ ha)
      | cons b ys =>
          obtain ⟨hb, hmore⟩ := List.forall_mem_cons.mp hys
          rw [List.flatMap_cons, List.flatMap_cons, List.append_assoc, List.append_assoc] at heq
          obtain ⟨hfirst, hrest⟩ :=
            h a b _ _ ha hb (hbreaks hs xs hxs) (hbreaks ht ys hmore) heq
          obtain ⟨hothers, hend⟩ := ih ys hxs hmore hrest
          exact ⟨by rw [hfirst, hothers], hend⟩

/-- Entries one after another, up to the end of the text. -/
theorem Delimited.flatMap_inj
    (h : Delimited noByte (fun _ => True) f)
    (hne : ∀ a : α, f a ≠ [])
    {xs ys : List α}
    (heq : xs.flatMap f = ys.flatMap f) :
    xs = ys := by
  have hnone : StartsNone (fun _ => True) f [] := by
    intro a t _ hnil
    exact hne a (List.append_eq_nil_iff.mp hnil.symm).1
  have hwhole : xs.flatMap f ++ [] = ys.flatMap f ++ [] := by
    rw [heq]
  exact (h.flatMap (fun _ _ _ => breaks_noByte _) (breaks_noByte _) (breaks_noByte _) hnone hnone
    xs ys (fun _ _ => trivial) (fun _ _ => trivial) hwhole).1

/-- Entries joined by a separator, up to a byte that neither the separator nor an entry starts
with. -/
theorem Delimited.join
    (h : Delimited q P f)
    {x y : UInt8} {sep s t : Bytes}
    (hx : q x = false)
    (hy : q y = false)
    (hne : y ≠ x)
    (hs : StartsNone P f (y :: s))
    (ht : StartsNone P f (y :: t))
    {xs ys : List α}
    (hxs : ∀ a ∈ xs, P a)
    (hys : ∀ b ∈ ys, P b)
    (heq : List.intercalate (x :: sep) (xs.map f) ++ y :: s =
      List.intercalate (x :: sep) (ys.map f) ++ y :: t) :
    xs = ys ∧ s = t := by
  have hjoin : ∀ (a : α) (zs : List α), List.intercalate (x :: sep) ((a :: zs).map f) =
      f a ++ zs.flatMap fun b => x :: (sep ++ f b) := by
    intro a zs
    induction zs generalizing a with
    | nil => simp [List.intercalate]
    | cons b zs ih =>
        rw [List.map_cons, List.map_cons, List.intercalate_cons_cons, ← List.map_cons, ih,
          List.flatMap_cons]
        simp
  -- the entries after the first, each with the separator before it
  have hmore : Delimited q P fun b => x :: (sep ++ f b) := by
    intro a b u v ha hb hu hv heq
    rw [List.cons_append, List.cons_append, List.append_assoc, List.append_assoc] at heq
    exact h a b u v ha hb hu hv (List.append_cancel_left (List.cons.inj heq).2)
  have hnone : ∀ u : Bytes, StartsNone P (fun b => x :: (sep ++ f b)) (y :: u) :=
    fun u b v _ heq => hne (List.cons.inj heq).1
  have hbreaks : ∀ (u : Bytes) (zs : List α),
      Breaks q (zs.flatMap (fun b => x :: (sep ++ f b)) ++ y :: u) := by
    intro u zs
    cases zs with
    | nil => exact hy
    | cons b zs => exact hx
  cases xs with
  | nil =>
      cases ys with
      | nil => exact ⟨rfl, (List.cons.inj heq).2⟩
      | cons b ys =>
          rw [hjoin, List.append_assoc] at heq
          exact absurd heq (hs b _ (hys b List.mem_cons_self))
  | cons a xs =>
      cases ys with
      | nil =>
          rw [hjoin, List.append_assoc] at heq
          exact absurd heq.symm (ht a _ (hxs a List.mem_cons_self))
      | cons b ys =>
          obtain ⟨ha, hxs⟩ := List.forall_mem_cons.mp hxs
          obtain ⟨hb, hys⟩ := List.forall_mem_cons.mp hys
          rw [hjoin, hjoin, List.append_assoc, List.append_assoc] at heq
          obtain ⟨hfirst, hrest⟩ := h a b _ _ ha hb (hbreaks s xs) (hbreaks t ys) heq
          obtain ⟨hothers, hend⟩ := hmore.flatMap (fun _ _ _ => hx) (hbreaks s []) (hbreaks t [])
            (hnone s) (hnone t) xs ys hxs hys hrest
          exact ⟨by rw [hfirst, hothers], (List.cons.inj hend).2⟩

/-- Two runs of one kind with something of another kind after them. -/
theorem run_append_inj
    {p : UInt8 → Bool} {x y s t : Bytes}
    (hx : ∀ b ∈ x, p b = true)
    (hy : ∀ b ∈ y, p b = true)
    (hs : Breaks p s)
    (ht : Breaks p t)
    (h : x ++ s = y ++ t) :
    x = y ∧ s = t := by
  obtain ⟨htake, hdrop⟩ := span_append hx hs
  rw [h] at htake hdrop
  obtain ⟨htake', hdrop'⟩ := span_append hy ht
  exact ⟨htake.symm.trans htake', hdrop.symm.trans hdrop'⟩

end Delimited

namespace Glyph

section Encodings

/-- A byte with the last six bits of a number, after the lead of an encoding. -/
def tailByte (n : Nat) : UInt8 :=
  UInt8.ofNat (0x80 + n % 64)

/-- The encoding of a code point. -/
def encode (c : Nat) : Bytes :=
  if c < 0x80 then [UInt8.ofNat c]
  else if c < 0x800 then [UInt8.ofNat (0xC0 + c / 64), tailByte c]
  else if c < 0x10000 then [UInt8.ofNat (0xE0 + c / 4096), tailByte (c / 64), tailByte c]
  else
    [UInt8.ofNat (0xF0 + c / 262144), tailByte (c / 4096), tailByte (c / 64), tailByte c]

/-- The glyph of a code point. -/
def ofCode (c : Nat) : Glyph :=
  .point c (encode c)

/-- The number of a lead byte and the least value of the byte after it, as far as the value of
the code point depends on them. -/
theorem lead?_number
    {b : UInt8} {l : Lead}
    (h : lead? b = some l) :
    (l.tail = 1 ∧ b.toNat = 0xC0 + l.bits ∧ 2 ≤ l.bits ∧ l.bits < 32) ∨
      (l.tail = 2 ∧ b.toNat = 0xE0 + l.bits ∧ l.bits < 16 ∧ (l.bits = 0 → 0xA0 ≤ l.low)) ∨
      (l.tail = 3 ∧ b.toNat = 0xF0 + l.bits ∧ l.bits ≤ 4 ∧ (l.bits = 0 → 0x90 ≤ l.low) ∧
        (l.bits = 4 → l.high ≤ 0x8F)) := by
  have hall : ∀ b, (lead? b).all (fun l =>
      (l.tail = 1 ∧ b.toNat = 0xC0 + l.bits ∧ 2 ≤ l.bits ∧ l.bits < 32) ∨
      (l.tail = 2 ∧ b.toNat = 0xE0 + l.bits ∧ l.bits < 16 ∧ (l.bits = 0 → 0xA0 ≤ l.low)) ∨
      (l.tail = 3 ∧ b.toNat = 0xF0 + l.bits ∧ l.bits ≤ 4 ∧ (l.bits = 0 → 0x90 ≤ l.low) ∧
        (l.bits = 4 → l.high ≤ 0x8F))) = true :=
    forall_byte (by decide +kernel)
  have hb := hall b
  rw [h, Option.all_some, decide_eq_true_eq] at hb
  exact hb

/-- What the last six bits of a byte after a lead say about it. -/
theorem isTail_bits :
    ∀ x, isTail x = true → UInt8.ofNat (0x80 + x.toNat % 64) = x ∧
      (0xA0 ≤ x → 32 ≤ x.toNat % 64) ∧ (0x90 ≤ x → 16 ≤ x.toNat % 64) ∧
      (x ≤ 0x8F → x.toNat % 64 < 16) :=
  forall_byte (by decide +kernel)

theorem tailByte_add
    {x : UInt8}
    (hx : isTail x = true) (n : Nat) :
    tailByte (64 * n + x.toNat % 64) = x := by
  have hbits : (64 * n + x.toNat % 64) % 64 = x.toNat % 64 := by omega
  rw [tailByte, hbits]
  exact (isTail_bits x hx).1

theorem ofNat_of_toNat
    {b : UInt8} {n : Nat}
    (h : b.toNat = n) :
    UInt8.ofNat n = b := by
  rw [← h, UInt8.ofNat_toNat]

theorem Lead.accepts_first
    {l : Lead} {x : UInt8} {more : Bytes}
    (h : l.accepts (x :: more) = true) :
    l.low ≤ x ∧ x ≤ l.high := by
  simp only [Lead.accepts, Bool.and_eq_true, List.all_eq_true, decide_eq_true_eq] at h
  exact h.1.2 x (by simp)

/-- The bytes that a lead accepts are the encoding of their value, which is a code point. -/
theorem encode_value
    {b : UInt8} {l : Lead} {more : Bytes}
    (hl : lead? b = some l)
    (h : l.accepts more = true) :
    encode (l.value more) = b :: more ∧ l.value more < 0x110000 := by
  obtain ⟨-, -, hlow80, hhigh⟩ := lead?_spec hl
  obtain ⟨hlength, htails⟩ := Lead.accepts_spec hlow80 hhigh h
  rcases lead?_number hl with ⟨htail, hb, hmin, hmax⟩ | ⟨htail, hb, hmax, hzero⟩ |
      ⟨htail, hb, hmax, hzero, hfour⟩
  · rw [htail] at hlength
    obtain ⟨x, rfl⟩ := List.length_eq_one_iff.mp hlength
    have hx := htails x (by simp)
    have hvalue : l.value [x] = 64 * l.bits + x.toNat % 64 := rfl
    have hlead : (64 * l.bits + x.toNat % 64) / 64 = l.bits := by omega
    refine ⟨?_, by omega⟩
    rw [hvalue, encode, if_neg (by omega), if_pos (by omega), hlead, ofNat_of_toNat hb,
      tailByte_add hx]
  · rw [htail] at hlength
    obtain ⟨x, y, rfl⟩ := List.length_eq_two.mp hlength
    have hx := htails x (by simp)
    have hy := htails y (by simp)
    have hvalue : l.value [x, y] = 64 * (64 * l.bits + x.toNat % 64) + y.toNat % 64 := rfl
    -- the first byte after the lead `E0` is large enough
    have hlow : l.bits = 0 → 32 ≤ x.toNat % 64 := fun hbits =>
      (isTail_bits x hx).2.1 (UInt8.le_trans (hzero hbits) (Lead.accepts_first h).1)
    rw [hvalue]
    generalize hn : 64 * l.bits + x.toNat % 64 = n
    have hlead : (64 * n + y.toNat % 64) / 4096 = l.bits := by omega
    have hrest : (64 * n + y.toNat % 64) / 64 = n := by omega
    refine ⟨?_, by omega⟩
    rw [encode, if_neg (by omega), if_neg (by omega), if_pos (by omega), hlead, hrest,
      ofNat_of_toNat hb, tailByte_add hy, ← hn, tailByte_add hx]
  · rw [htail] at hlength
    obtain ⟨x, y, z, rfl⟩ := List.length_eq_three.mp hlength
    have hx := htails x (by simp)
    have hy := htails y (by simp)
    have hz := htails z (by simp)
    have hvalue : l.value [x, y, z] =
        64 * (64 * (64 * l.bits + x.toNat % 64) + y.toNat % 64) + z.toNat % 64 := rfl
    -- the first byte after the lead `F0` is large enough, and small enough after `F4`
    have hlow : l.bits = 0 → 16 ≤ x.toNat % 64 := fun hbits =>
      (isTail_bits x hx).2.2.1 (UInt8.le_trans (hzero hbits) (Lead.accepts_first h).1)
    have hhigh' : l.bits = 4 → x.toNat % 64 < 16 := fun hbits =>
      (isTail_bits x hx).2.2.2 (UInt8.le_trans (Lead.accepts_first h).2 (hfour hbits))
    rw [hvalue]
    generalize hn : 64 * l.bits + x.toNat % 64 = n
    generalize hm : 64 * n + y.toNat % 64 = m
    have hlead : (64 * m + z.toNat % 64) / 262144 = l.bits := by omega
    have hfirst : (64 * m + z.toNat % 64) / 4096 = n := by omega
    have hrest : (64 * m + z.toNat % 64) / 64 = m := by omega
    refine ⟨?_, by omega⟩
    rw [encode, if_neg (by omega), if_neg (by omega), if_neg (by omega), hlead, hfirst, hrest,
      ofNat_of_toNat hb, tailByte_add hz, ← hm, tailByte_add hy, ← hn, tailByte_add hx]

/-- A glyph at the front of a text is a stray byte above ASCII, or known from its code
point. -/
theorem first_eq
    (b : UInt8) (rest : Bytes) :
    (first b rest = .stray b ∧ 0x80 ≤ b.toNat) ∨
      first b rest = ofCode (first b rest).code ∧ (first b rest).code < 0x110000 := by
  by_cases hb : b < 0x80
  · right
    have hlt : b.toNat < 0x80 := UInt8.lt_iff_toNat_lt.mp hb
    have hcode : encode b.toNat = [b] := by
      rw [encode, if_pos hlt, ofNat_of_toNat rfl]
    rw [first_of_lt hb]
    change Glyph.point b.toNat [b] = .point b.toNat (encode b.toNat) ∧ b.toNat < 0x110000
    rw [hcode]
    exact ⟨rfl, by omega⟩
  · have hle : 0x80 ≤ b.toNat := Nat.le_of_not_lt fun hlt => hb (UInt8.lt_iff_toNat_lt.mpr hlt)
    unfold first
    rw [if_neg hb]
    cases hl : lead? b with
    | none => exact Or.inl ⟨rfl, hle⟩
    | some l =>
        dsimp only
        split_ifs with haccepts
        · obtain ⟨hencode, hlt⟩ := encode_value hl haccepts
          exact Or.inr ⟨congrArg (Glyph.point _) hencode.symm, hlt⟩
        · exact Or.inl ⟨rfl, hle⟩

end Encodings

end Glyph

section Hexadecimal

/-- The first number that has no hexadecimal numeral of the given width. -/
def hexLimit : Nat → Nat
  | 0 => 1
  | width + 1 => 16 * hexLimit width

theorem length_hex
    (width : Nat) :
    ∀ n : Nat, (Bytes.hex width n).length = width := by
  induction width with
  | zero =>
      intro n
      rfl
  | succ width ih =>
      intro n
      rw [Bytes.hex, List.length_append, ih, List.length_singleton]

theorem hexDigit_inj :
    ∀ d < 16, ∀ e < 16, Bytes.hexDigit d = Bytes.hexDigit e → d = e := by
  decide

/-- Numbers with the same numeral are the same. -/
theorem hex_inj
    (width : Nat) :
    ∀ {n m : Nat}, n < hexLimit width → m < hexLimit width →
      Bytes.hex width n = Bytes.hex width m → n = m := by
  induction width with
  | zero =>
      intro n m hn hm _
      rw [hexLimit] at hn hm
      omega
  | succ width ih =>
      intro n m hn hm h
      rw [hexLimit] at hn hm
      obtain ⟨hfirst, hlast⟩ := List.append_inj' h rfl
      have hquot : n / 16 = m / 16 := ih (by omega) (by omega) hfirst
      have hrem : n % 16 = m % 16 :=
        hexDigit_inj _ (Nat.mod_lt n (by decide)) _ (Nat.mod_lt m (by decide))
          (List.cons.inj hlast).1
      omega

end Hexadecimal

namespace Glyph

section Escapes

/-- How many digits follow the letter of an escape. -/
def escapeWidth (letter : UInt8) : Nat :=
  if letter = 'x'.toUInt8 then 2
  else if letter = 'u'.toUInt8 then 4
  else if letter = 'U'.toUInt8 then 8
  else 0

/-- The code points of the control characters that have a letter. -/
def lettered : List Nat :=
  [0x07, 0x08, 0x09, 0x0A, 0x0B, 0x0C, 0x0D]

/-- The glyph that an escape stands for, by its letter and the number after it. -/
def ofEscape (letter : UInt8) (n : Nat) : Glyph :=
  if letter = 'x'.toUInt8 then
    if n < 0x80 then ofCode n else .stray (UInt8.ofNat n)
  else if letter = 'u'.toUInt8 ∨ letter = 'U'.toUInt8 then ofCode n
  else
    ofCode <| (lettered.find? fun c =>
      (escapeLetter? c).map Char.toUInt8 = some letter).getD letter.toNat

/-- A glyph as an escape. -/
structure Escaped (g : Glyph) (letter : UInt8) (n : Nat) : Prop where
  quoted : g.quoted = '\\'.toUInt8 :: letter :: Bytes.hex (escapeWidth letter) n
  bound : n < hexLimit (escapeWidth letter)
  glyph : ofEscape letter n = g

theorem escaped_stray
    {b : UInt8}
    (hb : 0x80 ≤ b.toNat) :
    (stray b).Escaped 'x'.toUInt8 b.toNat where
  quoted := rfl
  bound := b.toNat_lt
  glyph := by
    rw [ofEscape, if_pos rfl, if_neg (by omega), ofNat_of_toNat rfl]

/-- The letter of a control character stands for it. -/
theorem ofEscape_letter
    {c : Nat} {letter : Char}
    (h : escapeLetter? c = some letter) :
    escapeWidth letter.toUInt8 = 0 ∧ ofEscape letter.toUInt8 0 = ofCode c := by
  revert h
  fun_cases escapeLetter? c <;> intro h <;> cases h <;> exact ⟨rfl, rfl⟩

/-- A code point between quotes is shown as it is, or it is an escape. -/
theorem quoted_ofCode
    {c : Nat}
    (hc : c < 0x110000) :
    (c ≠ 0x22 ∧ c ≠ 0x5C ∧ (ofCode c).quoted = (ofCode c).bytes) ∨
      ∃ letter n, (ofCode c).Escaped letter n := by
  by_cases hsign : c = 0x22 ∨ c = 0x5C
  · right
    rcases hsign with rfl | rfl
    · exact ⟨'"'.toUInt8, 0, rfl, by decide, rfl⟩
    · exact ⟨'\\'.toUInt8, 0, rfl, by decide, rfl⟩
  · by_cases hprintable : isPrintable c = true
    · left
      refine ⟨fun h => hsign (Or.inl h), fun h => hsign (Or.inr h), ?_⟩
      rw [ofCode, quoted, if_neg (by simpa using hsign), if_pos hprintable]
      rfl
    · right
      cases hletter : escapeLetter? c with
      | some letter =>
          obtain ⟨hwidth, hglyph⟩ := ofEscape_letter hletter
          refine ⟨letter.toUInt8, 0, ?_, by rw [hwidth]; decide, hglyph⟩
          rw [ofCode, quoted, if_neg (by simpa using hsign), if_neg hprintable, hletter, hwidth]
          rfl
      | none =>
          have hquoted : (ofCode c).quoted =
              if c < 0x20 || c = 0x7F then hexEscape 'x' 2 c
              else if c < 0x10000 then hexEscape 'u' 4 c
              else hexEscape 'U' 8 c := by
            rw [ofCode, quoted, if_neg (by simpa using hsign), if_neg hprintable, hletter]
          split_ifs at hquoted with hcontrol hshort
          · have hlt : c < 0x80 := by
              simp only [Bool.or_eq_true, decide_eq_true_eq] at hcontrol
              omega
            refine ⟨'x'.toUInt8, c, hquoted, ?_, if_pos hlt⟩
            exact Nat.lt_of_lt_of_le hlt (by decide)
          · exact ⟨'u'.toUInt8, c, hquoted, hshort, rfl⟩
          · exact ⟨'U'.toUInt8, c, hquoted, Nat.lt_of_lt_of_le hc (by decide), rfl⟩

/-- A glyph between quotes is an encoding that is neither a quote nor a backslash, or it is
an escape. -/
theorem quoted_cases
    (b : UInt8) (rest : Bytes) :
    (∃ more, (first b rest).Encoded b more ∧ (first b rest).quoted = b :: more ∧
        b ≠ '"'.toUInt8 ∧ b ≠ '\\'.toUInt8) ∨
      ∃ letter n, (first b rest).Escaped letter n := by
  rcases first_eq b rest with ⟨hstray, hb⟩ | ⟨hpoint, hc⟩
  · rw [hstray]
    exact Or.inr ⟨_, _, escaped_stray hb⟩
  · rcases quoted_ofCode hc with ⟨hquote, hbackslash, hplain⟩ | hescaped
    · rw [← hpoint] at hplain
      rcases first_cases b rest with ⟨more, -, -, hencoded⟩ | hstray
      · refine Or.inl ⟨more, hencoded, hplain.trans hencoded.bytes, ?_, ?_⟩
        · rintro rfl
          exact hquote (by rw [first_of_lt (by decide)]; rfl)
        · rintro rfl
          exact hbackslash (by rw [first_of_lt (by decide)]; rfl)
      · rw [hstray] at hpoint
        cases hpoint
    · rw [← hpoint] at hescaped
      exact Or.inr hescaped

end Escapes

/-- The glyphs that texts have. -/
def IsRead (g : Glyph) : Prop :=
  ∃ b rest, g = first b rest

/-- The end of a glyph between quotes shows. -/
theorem delimited_quoted :
    Delimited noByte IsRead quoted := by
  rintro _ _ s t ⟨b, rest, rfl⟩ ⟨b', rest', rfl⟩ - - h
  rcases quoted_cases b rest with ⟨more, henc, hq, -, hne⟩ | ⟨letter, n, hesc⟩
  · rcases quoted_cases b' rest' with ⟨more', henc', hq', -, -⟩ | ⟨letter', n', hesc'⟩
    · rw [hq, hq', List.cons_append, List.cons_append] at h
      obtain ⟨rfl, htail⟩ := List.cons.inj h
      have hsame : first b rest = first b rest' := by
        rw [← henc.first s, ← henc'.first t, htail]
      refine ⟨hsame, ?_⟩
      have hbytes := henc.bytes
      rw [hsame, henc'.bytes] at hbytes
      rw [(List.cons.inj hbytes).2] at htail
      exact List.append_cancel_left htail
    · rw [hq, hesc'.quoted] at h
      exact absurd (List.cons.inj h).1 hne
  · rcases quoted_cases b' rest' with ⟨more', -, hq', -, hne'⟩ | ⟨letter', n', hesc'⟩
    · rw [hq', hesc.quoted] at h
      exact absurd (List.cons.inj h).1.symm hne'
    · rw [hesc.quoted, hesc'.quoted] at h
      simp only [List.cons_append, List.cons.injEq, true_and] at h
      obtain ⟨rfl, hdigits⟩ := h
      obtain ⟨hhex, hrest⟩ := List.append_inj hdigits (by rw [length_hex, length_hex])
      obtain rfl := hex_inj _ hesc.bound hesc'.bound hhex
      exact ⟨hesc.glyph.symm.trans hesc'.glyph, hrest⟩

/-- No glyph between quotes starts with a quote. -/
theorem startsNone_quote
    (s : Bytes) :
    StartsNone IsRead quoted ('"'.toUInt8 :: s) := by
  rintro _ t ⟨b, rest, rfl⟩ h
  rcases quoted_cases b rest with ⟨more, -, hq, hne, -⟩ | ⟨letter, n, hesc⟩
  · rw [hq] at h
    exact hne (List.cons.inj h).1.symm
  · rw [hesc.quoted] at h
    exact absurd (List.cons.inj h).1 (by decide)

end Glyph

/-- The end of a quoted text shows, whatever bytes it holds. -/
theorem Bytes.delimited_quoted :
    Delimited noByte (fun _ => True) Bytes.quoted := by
  intro x y s t _ _ _ _ h
  have hglyphs : ∀ z : Bytes, ∀ g ∈ glyphs z, g.IsRead := mem_glyphs
  unfold Bytes.quoted at h
  simp only [List.cons_append, List.append_assoc, List.nil_append, List.cons.injEq,
    true_and] at h
  obtain ⟨hsame, hend⟩ := Glyph.delimited_quoted.flatMap (fun _ _ _ => breaks_noByte _)
    (breaks_noByte _) (breaks_noByte _) (Glyph.startsNone_quote s) (Glyph.startsNone_quote t)
    (glyphs x) (glyphs y) (hglyphs x) (hglyphs y) h
  refine ⟨?_, (List.cons.inj hend).2⟩
  rw [← text_glyphs x, hsame, text_glyphs]

end Contrary
