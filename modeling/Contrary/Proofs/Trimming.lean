import Contrary.Proofs.Lexing
import Contrary.Proofs.Source

/-!
# Trimming any text

A text may hold any bytes, so it is not clear that the two directions of reading agree: a
text is cut into glyphs from the front, but its end is trimmed from the back, where a stray
byte could be taken for a part of an encoding.  It cannot: an encoding is a lead byte and
tail bytes, and no byte is both.

**Encodings.**  `Glyph.Encoded g b more` says that the bytes `b :: more` encode the code point
of `g` wherever they stand.  What is read at the front of a text is encoded so, or is a
stray byte (`Glyph.first_cases`).  A text that does not start with a tail byte starts a new
glyph, whatever stands before it (`glyphs_append`).

**Backwards.**  The last glyph of a text is found again from its end, if it is encoded
(`Glyph.last_of_encoded`).  Stray bytes are never blank, so this is all that trimming needs.

**Results.**
* `trim_append_blank`: blanks around a text do not matter to what is left of it.
* `isBlank_getLast_trim`: what is left does not end in a blank.
* `eq_append_codeText`, `glyphs_append_slash`: a line is cut at its last slash.
-/

namespace Contrary

namespace Glyph

/-- A byte that continues an encoding. -/
def isTail (b : UInt8) : Bool :=
  0x80 ≤ b && b ≤ 0xBF

/-- The bytes `b :: more` encode the code point of a glyph, whatever follows them. -/
structure Encoded (g : Glyph) (b : UInt8) (more : Bytes) : Prop where
  bytes : g.bytes = b :: more
  first : ∀ rest, Glyph.first b (more ++ rest) = g
  lead : isTail b = false
  tails : ∀ x ∈ more, isTail x = true
  length : more.length ≤ 3

/-- A text that is empty or starts a new glyph. -/
def Starts (t : Bytes) : Prop :=
  ∀ x ∈ t.head?, isTail x = false

section Forwards

/-- What a lead byte can announce. -/
theorem lead?_spec
    {b : UInt8} {l : Lead}
    (h : lead? b = some l) :
    isTail b = false ∧ l.tail ≤ 3 ∧ 0x80 ≤ l.low ∧ l.high ≤ 0xBF := by
  have hall : ∀ b, (lead? b).all (fun l =>
      isTail b = false ∧ l.tail ≤ 3 ∧ 0x80 ≤ l.low ∧ l.high ≤ 0xBF) = true :=
    forall_byte (by decide +kernel)
  have hb := hall b
  rw [h, Option.all_some, decide_eq_true_eq] at hb
  exact hb

theorem lead?_of_isTail :
    ∀ b, isTail b = true → lead? b = none ∧ ¬ b < 0x80 :=
  forall_byte (by decide +kernel)

theorem isTail_of_lt :
    ∀ b : UInt8, b < 0x80 → isTail b = false :=
  forall_byte (by decide +kernel)

theorem Lead.accepts_spec
    {l : Lead} {more : Bytes}
    (hlow : 0x80 ≤ l.low)
    (hhigh : l.high ≤ 0xBF)
    (h : l.accepts more = true) :
    more.length = l.tail ∧ ∀ x ∈ more, isTail x = true := by
  simp only [Lead.accepts, Bool.and_eq_true, beq_iff_eq, List.all_eq_true, decide_eq_true_eq] at h
  obtain ⟨⟨hlength, hfirst⟩, hothers⟩ := h
  refine ⟨hlength, ?_⟩
  cases more with
  | nil => simp
  | cons c more =>
      intro x hx
      simp only [isTail, Bool.and_eq_true, decide_eq_true_eq]
      rcases List.mem_cons.mp hx with rfl | hx
      · obtain ⟨hl, hh⟩ := hfirst x (by simp)
        exact ⟨UInt8.le_trans hlow hl, UInt8.le_trans hh hhigh⟩
      · exact hothers x hx

/-- What is read at the front of a text: an encoding, or a stray byte. -/
theorem first_cases
    (b : UInt8) (rest : Bytes) :
    (∃ more rest', rest = more ++ rest' ∧ (first b rest).Encoded b more) ∨
      first b rest = .stray b := by
  by_cases hb : b < 0x80
  · refine Or.inl ⟨[], rest, rfl, ?_⟩
    rw [first_of_lt hb]
    exact ⟨rfl, first_of_lt hb, isTail_of_lt b hb, by simp, by simp⟩
  · cases hl : lead? b with
    | none =>
        right
        unfold first
        rw [if_neg hb, hl]
    | some l =>
        obtain ⟨hlead, htail, hlow, hhigh⟩ := lead?_spec hl
        cases haccepts : l.accepts (rest.take l.tail) with
        | false =>
            right
            unfold first
            rw [if_neg hb, hl]
            simp only [haccepts, Bool.false_eq_true, if_false]
        | true =>
            obtain ⟨hlength, htails⟩ := Lead.accepts_spec hlow hhigh haccepts
            have hfirst : ∀ rest', first b (rest.take l.tail ++ rest') =
                .point (l.value (rest.take l.tail)) (b :: rest.take l.tail) := by
              intro rest'
              unfold first
              rw [if_neg hb, hl]
              simp only [List.take_left' hlength, haccepts, if_true]
            have hwhole := hfirst (rest.drop l.tail)
            rw [List.take_append_drop] at hwhole
            refine Or.inl ⟨_, _, (List.take_append_drop l.tail rest).symm, ?_⟩
            rw [hwhole]
            exact ⟨rfl, hfirst, hlead, htails, by omega⟩

theorem first_of_isTail
    {b : UInt8}
    (hb : isTail b = true) (rest : Bytes) :
    first b rest = .stray b := by
  obtain ⟨hlead, hhigh⟩ := lead?_of_isTail b hb
  unfold first
  rw [if_neg hhigh, hlead]

/-- What starts a new glyph is no part of the glyph before it. -/
theorem first_append
    {t : Bytes}
    (ht : Starts t) (b : UInt8) (rest : Bytes) :
    first b (rest ++ t) = first b rest := by
  rcases first_cases b rest with ⟨more, rest', hrest, hg⟩ | hstray
  · have hlonger := hg.first (rest' ++ t)
    rwa [← List.append_assoc, ← hrest] at hlonger
  · rcases first_cases b (rest ++ t) with ⟨more, rest', hrest, hg⟩ | hstray'
    · -- the encoding would have to go on into `t`
      rcases List.append_eq_append_iff.mp hrest with ⟨part, hmore, ht'⟩ | ⟨part, hrest', -⟩
      · cases part with
        | nil =>
            rw [List.append_nil] at hmore
            rw [hmore] at hg
            have hshort := hg.first []
            rw [List.append_nil] at hshort
            exact hshort.symm
        | cons x part =>
            have hx : isTail x = false := ht x (by rw [ht']; rfl)
            rw [hg.tails x (by rw [hmore]; simp)] at hx
            cases hx
      · have hshort := hg.first part
        rw [← hrest'] at hshort
        exact hshort.symm
    · rw [hstray, hstray']

theorem isBlank_stray
    (b : UInt8) :
    (stray b).isBlank = false := by
  simp [isBlank, code, Contrary.isBlank]

/-- A blank is an encoded code point. -/
theorem encoded_of_isBlank
    {b : UInt8} {rest : Bytes}
    (h : (first b rest).isBlank = true) :
    ∃ more rest', rest = more ++ rest' ∧ (first b rest).Encoded b more := by
  rcases first_cases b rest with hg | hstray
  · exact hg
  · rw [hstray, isBlank_stray] at h
    cases h

/-- The text after the first glyph. -/
theorem drop_first
    (b : UInt8) (rest : Bytes) :
    (first b rest).bytes ++ rest.drop ((first b rest).bytes.length - 1) = b :: rest := by
  rcases first_cases b rest with ⟨more, rest', hrest, hg⟩ | hstray
  · rw [hg.bytes, List.length_cons, Nat.add_sub_cancel, hrest, List.drop_left, List.cons_append]
  · rw [hstray]
    rfl

end Forwards

end Glyph

section Glyphs

open Glyph

theorem glyphs_nil :
    glyphs [] = [] := by
  rw [glyphs]

theorem glyphs_cons
    (b : UInt8) (rest : Bytes) :
    glyphs (b :: rest) =
      first b rest :: glyphs (rest.drop ((first b rest).bytes.length - 1)) := by
  rw [glyphs]

/-- The glyphs of a text hold all of its bytes. -/
theorem text_glyphs
    (s : Bytes) :
    Glyph.text (glyphs s) = s := by
  fun_induction glyphs s with
  | case1 => rfl
  | case2 b rest g ih =>
      have htext : Glyph.text (g :: glyphs (rest.drop (g.bytes.length - 1))) =
          g.bytes ++ rest.drop (g.bytes.length - 1) := by
        rw [Glyph.text, List.flatMap_cons, ← Glyph.text, ih]
      exact htext.trans (drop_first b rest)

/-- The glyphs of two texts, of which the second starts a new glyph. -/
theorem glyphs_append
    {t : Bytes}
    (ht : Starts t) (s : Bytes) :
    glyphs (s ++ t) = glyphs s ++ glyphs t := by
  fun_induction glyphs s with
  | case1 => rfl
  | case2 b rest g ih =>
      have hlength := congrArg List.length (drop_first b rest)
      simp only [List.length_append, List.length_drop, List.length_cons] at hlength
      have hle : (first b rest).bytes.length - 1 ≤ rest.length := by omega
      rw [List.cons_append, glyphs_cons, first_append ht,
        List.drop_append_of_le_length hle, ih, List.cons_append]

/-- A glyph of a text is an encoded code point or a stray byte. -/
theorem encoded_of_mem_glyphs
    {s : Bytes} {g : Glyph}
    (hg : g ∈ glyphs s) :
    (∃ b more, g.Encoded b more) ∨ ∃ b, g = .stray b := by
  obtain ⟨b, rest, rfl⟩ := mem_glyphs s g hg
  rcases first_cases b rest with ⟨more, rest', -, hencoded⟩ | hstray
  · exact Or.inl ⟨b, more, hencoded⟩
  · exact Or.inr ⟨b, hstray⟩

/-- A text of blanks. -/
def IsBlankText (w : Bytes) : Prop :=
  ∀ g ∈ glyphs w, g.isBlank = true

instance (w : Bytes) : Decidable (IsBlankText w) :=
  inferInstanceAs (Decidable (∀ g ∈ glyphs w, g.isBlank = true))

theorem isBlankText_nil :
    IsBlankText [] := by
  rw [IsBlankText, glyphs_nil]
  simp

theorem isBlankText_cons_iff
    {b : UInt8} {rest : Bytes} :
    IsBlankText (b :: rest) ↔
      (first b rest).isBlank = true ∧
        IsBlankText (rest.drop ((first b rest).bytes.length - 1)) := by
  rw [IsBlankText, glyphs_cons, List.forall_mem_cons, IsBlankText]

/-- The first glyph of a text of blanks, and the rest. -/
theorem IsBlankText.encoded
    {b : UInt8} {rest : Bytes}
    (h : IsBlankText (b :: rest)) :
    ∃ more w, rest = more ++ w ∧ (first b rest).Encoded b more ∧
      (first b rest).isBlank = true ∧ IsBlankText w := by
  obtain ⟨hblank, hrest⟩ := isBlankText_cons_iff.mp h
  obtain ⟨more, w, hw, hg⟩ := encoded_of_isBlank hblank
  rw [hg.bytes, List.length_cons, Nat.add_sub_cancel, hw, List.drop_left] at hrest
  exact ⟨more, w, hw, hg, hblank, hrest⟩

/-- A text of blanks starts a new glyph. -/
theorem IsBlankText.starts
    {w : Bytes}
    (hw : IsBlankText w) :
    Starts w := by
  cases w with
  | nil => simp [Starts]
  | cons b rest =>
      obtain ⟨more, w', -, hg, -⟩ := hw.encoded
      intro x hx
      cases hx
      exact hg.lead

/-- A property of texts of blanks, from glyph to glyph. -/
theorem IsBlankText.induction
    {P : Bytes → Prop}
    (hnil : P [])
    (happend : ∀ (g : Glyph) (b : UInt8) (more w : Bytes),
      g.Encoded b more → g.isBlank = true → IsBlankText w → P w → P (g.bytes ++ w))
    {w : Bytes}
    (hw : IsBlankText w) :
    P w := by
  induction hn : w.length using Nat.strongRecOn generalizing w with
  | ind n ih =>
      cases w with
      | nil => exact hnil
      | cons b rest =>
          obtain ⟨more, w', rfl, hg, hblank, hw'⟩ := hw.encoded
          have hlen : w'.length < n := by
            rw [← hn, List.length_cons, List.length_append]
            omega
          have hP := ih w'.length hlen hw' rfl
          have hbytes := happend _ b more w' hg hblank hw' hP
          rwa [hg.bytes] at hbytes

end Glyphs

section Front

open Glyph

namespace Bytes

theorem trimFront_nil :
    trimFront [] = [] := by
  rw [trimFront.eq_def]

theorem trimFront_cons
    (b : UInt8) (rest : Bytes) :
    trimFront (b :: rest) =
      if (first b rest).isBlank then trimFront (rest.drop ((first b rest).bytes.length - 1))
      else b :: rest := by
  rw [trimFront.eq_def]

/-- A blank at the front is dropped. -/
theorem trimFront_encoded
    {g : Glyph} {b : UInt8} {more : Bytes}
    (hg : g.Encoded b more) (s : Bytes) :
    trimFront (g.bytes ++ s) = if g.isBlank then trimFront s else g.bytes ++ s := by
  rw [hg.bytes, List.cons_append, trimFront_cons, hg.first, hg.bytes, List.length_cons,
    Nat.add_sub_cancel, List.drop_left]

theorem trimFront_blank_append
    {w : Bytes}
    (hw : IsBlankText w) (s : Bytes) :
    trimFront (w ++ s) = trimFront s := by
  refine IsBlankText.induction (P := fun w => trimFront (w ++ s) = trimFront s) rfl ?_ hw
  intro g b more w hg hblank _ ih
  rw [List.append_assoc, trimFront_encoded hg, if_pos hblank, ih]

theorem trimFront_of_isBlankText
    {w : Bytes}
    (hw : IsBlankText w) :
    trimFront w = [] := by
  have hnil := trimFront_blank_append hw []
  rwa [List.append_nil, trimFront_nil] at hnil

/-- What stands after a text that is not blank is kept. -/
theorem trimFront_append
    {s t : Bytes}
    (hs : ¬ IsBlankText s)
    (ht : Starts t) :
    trimFront (s ++ t) = trimFront s ++ t := by
  fun_induction trimFront s with
  | case1 => exact absurd isBlankText_nil hs
  | case2 b rest g hblank ih =>
      have hrest : ¬ IsBlankText (rest.drop (g.bytes.length - 1)) := by
        intro hblank'
        exact hs (isBlankText_cons_iff.mpr ⟨hblank, hblank'⟩)
      have hlength := congrArg List.length (drop_first b rest)
      simp only [List.length_append, List.length_drop, List.length_cons] at hlength
      have hle : (first b rest).bytes.length - 1 ≤ rest.length := by omega
      rw [List.cons_append, trimFront_cons, first_append ht, if_pos hblank,
        List.drop_append_of_le_length hle]
      exact ih hrest
  | case3 b rest g hblank =>
      rw [List.cons_append, trimFront_cons, first_append ht, if_neg hblank]

end Bytes

end Front

section Back

namespace Glyph

/-- The encoding of `k + 1` bytes at the end of a text, if there is one.  The bytes before
the last one are given nearest first. -/
def longer? (b : UInt8) (before : Bytes) (k : Nat) : Option Glyph :=
  match (before.take k).reverse with
  | [] => none
  | c :: more =>
      let g := first c (more ++ [b])
      if g.bytes.length = k + 1 then some g else none

theorem last_eq_findSome?
    (b : UInt8) (before : Bytes) :
    last b before = ([1, 2, 3].findSome? (longer? b before)).getD (first b []) := rfl

theorem longer?_eq_none
    {b : UInt8} {before : Bytes} {k : Nat}
    (h : ∀ c more, (before.take k).reverse = c :: more →
      (first c (more ++ [b])).bytes.length ≠ k + 1) :
    longer? b before k = none := by
  unfold longer?
  split
  · rfl
  · rename_i c more hc
    exact if_neg (h c more hc)

/-- A byte that is no tail is the end of no longer encoding. -/
theorem longer?_of_lead
    {b : UInt8}
    (hb : isTail b = false) (before : Bytes)
    {k : Nat}
    (hk : 1 ≤ k) :
    longer? b before k = none := by
  refine longer?_eq_none ?_
  intro c more hc hlength
  have htake := congrArg List.length hc
  rw [List.length_reverse, List.length_take, List.length_cons] at htake
  rcases first_cases c (more ++ [b]) with ⟨tail, rest, hrest, hg⟩ | hstray
  · rw [hg.bytes, List.length_cons] at hlength
    have hsplit := congrArg List.length hrest
    simp only [List.length_append, List.length_singleton] at hsplit
    have hnil : rest = [] := List.length_eq_zero_iff.mp (by omega)
    rw [hnil, List.append_nil] at hrest
    have htail := hg.tails b (by rw [← hrest]; simp)
    rw [hb] at htail
    cases htail
  · rw [hstray] at hlength
    have hone : (stray c).bytes.length = 1 := rfl
    omega

/-- An encoding that starts with a tail byte does not exist. -/
theorem longer?_of_tails
    (b : UInt8) {before : Bytes} {k : Nat}
    (hk : 1 ≤ k)
    (htails : ∀ x ∈ before.take k, isTail x = true) :
    longer? b before k = none := by
  refine longer?_eq_none ?_
  intro c more hc hlength
  have hmem : c ∈ before.take k := by
    rw [← List.mem_reverse, hc]
    exact List.mem_cons_self
  rw [first_of_isTail (htails c hmem)] at hlength
  have hone : (stray c).bytes.length = 1 := rfl
  omega

theorem findSome?_of_least
    {f : Nat → Option Glyph} {g : Glyph} {k : Nat}
    (hpos : 1 ≤ k)
    (hle : k ≤ 3)
    (hk : f k = some g)
    (hleast : ∀ j, 1 ≤ j → j < k → f j = none) :
    [1, 2, 3].findSome? f = some g := by
  obtain rfl | rfl | rfl : k = 1 ∨ k = 2 ∨ k = 3 := by omega
  · simp [hk]
  · simp [hk, hleast 1]
  · simp [hk, hleast 1, hleast 2]

/-- A code point that is encoded at the end of a text is found there. -/
theorem last_of_encoded
    {g : Glyph} {c : UInt8} {more : Bytes}
    (hg : g.Encoded c more)
    {pre : Bytes} {b : UInt8} {before : Bytes}
    (h : (pre ++ g.bytes).reverse = b :: before) :
    last b before = g := by
  have hfirst := hg.first []
  rw [List.append_nil] at hfirst
  rw [hg.bytes] at h
  rw [last_eq_findSome?]
  rcases List.eq_nil_or_concat' more with rfl | ⟨init, x, rfl⟩
  · rw [List.reverse_append, List.reverse_singleton, List.singleton_append] at h
    cases h
    have hnone : [1, 2, 3].findSome? (longer? c pre.reverse) = none := by
      refine List.findSome?_eq_none_iff.mpr fun k hk => longer?_of_lead hg.lead _ ?_
      simp only [List.mem_cons, List.not_mem_nil, or_false] at hk
      omega
    rw [hnone]
    exact hfirst
  · have hreverse : (pre ++ c :: (init ++ [x])).reverse =
        x :: (init.reverse ++ c :: pre.reverse) := by
      simp
    rw [hreverse] at h
    cases h
    have hlength := hg.length
    rw [List.length_append, List.length_singleton] at hlength
    have htake : (init.reverse ++ c :: pre.reverse).take (init.length + 1) =
        init.reverse ++ [c] := by
      rw [← List.singleton_append, ← List.append_assoc]
      exact List.take_left' (by simp)
    have hfound : longer? b (init.reverse ++ c :: pre.reverse) (init.length + 1) = some g := by
      unfold longer?
      rw [htake, List.reverse_append, List.reverse_reverse, List.reverse_singleton,
        List.singleton_append]
      simp [hfirst, hg.bytes]
    have hleast : ∀ j, 1 ≤ j → j < init.length + 1 →
        longer? b (init.reverse ++ c :: pre.reverse) j = none := by
      intro j hpos hlt
      refine longer?_of_tails b hpos ?_
      rw [List.take_append_of_le_length (by simp; omega)]
      intro y hy
      exact hg.tails y (by simp [List.mem_reverse.mp (List.mem_of_mem_take hy)])
    rw [findSome?_of_least (by omega) hlength hfound hleast, Option.getD_some]

end Glyph

namespace Bytes

open Glyph

/-- A blank at the end is dropped, and nothing after any other glyph. -/
theorem trimEnd_encoded
    {g : Glyph} {c : UInt8} {more : Bytes}
    (hg : g.Encoded c more) (pre : Bytes) :
    trimEnd (pre ++ g.bytes) = if g.isBlank then trimEnd pre else pre ++ g.bytes := by
  have hne : (pre ++ g.bytes).reverse ≠ [] := by simp [hg.bytes]
  obtain ⟨b, before, hreverse⟩ := List.exists_cons_of_ne_nil hne
  have hdrop : before.drop (g.bytes.length - 1) = pre.reverse := by
    have hwhole := congrArg (List.drop g.bytes.length) hreverse
    rw [List.reverse_append, List.drop_left' List.length_reverse] at hwhole
    rw [hwhole, hg.bytes, List.length_cons]
    rfl
  unfold trimEnd
  rw [hreverse, trimReversed.eq_def]
  simp only [last_of_encoded hg hreverse, hdrop]
  split_ifs
  · rfl
  · rw [← hreverse, List.reverse_reverse]

theorem trimEnd_append_blank
    {w : Bytes}
    (hw : IsBlankText w) (s : Bytes) :
    trimEnd (s ++ w) = trimEnd s := by
  refine IsBlankText.induction (P := fun w => ∀ s, trimEnd (s ++ w) = trimEnd s) ?_ ?_ hw s
  · intro s
    rw [List.append_nil]
  · intro g b more w hg hblank _ ih s
    rw [← List.append_assoc, ih, trimEnd_encoded hg, if_pos hblank]

/-- Blanks around a text do not matter to what is left of it. -/
theorem trim_append_blank
    {w w' : Bytes}
    (hw : IsBlankText w)
    (hw' : IsBlankText w') (s : Bytes) :
    trim (w ++ (s ++ w')) = trim s := by
  unfold trim
  rw [trimFront_blank_append hw]
  by_cases hs : IsBlankText s
  · rw [trimFront_blank_append hs, trimFront_of_isBlankText hs, trimFront_of_isBlankText hw']
  · rw [trimFront_append hs hw'.starts, trimEnd_append_blank hw']

theorem trim_append
    {w : Bytes}
    (hw : IsBlankText w) (s : Bytes) :
    trim (s ++ w) = trim s :=
  trim_append_blank isBlankText_nil hw s

theorem trim_of_isBlankText
    {w : Bytes}
    (hw : IsBlankText w) :
    trim w = [] := by
  rw [trim, trimFront_of_isBlankText hw, trimEnd, List.reverse_nil, trimReversed.eq_def]
  rfl

theorem isBlank_last_trimReversed
    {b : UInt8} {before : Bytes} (s : Bytes) :
    trimReversed s = b :: before → (last b before).isBlank = false := by
  fun_induction trimReversed s with
  | case1 =>
      intro h
      cases h
  | case2 c earlier g hblank ih => exact ih
  | case3 c earlier g hblank =>
      intro h
      cases h
      exact Bool.eq_false_iff.mpr hblank

/-- What is left of a text does not end in a blank. -/
theorem isBlank_getLast_trim
    {s : Bytes} {g : Glyph}
    (hg : (glyphs s.trim).getLast? = some g) :
    g.isBlank = false := by
  rcases encoded_of_mem_glyphs (List.mem_of_getLast? hg) with ⟨c, more, hencoded⟩ | ⟨b, rfl⟩
  · obtain ⟨init, hinit⟩ := List.getLast?_eq_some_iff.mp hg
    have htext : s.trim = Glyph.text init ++ g.bytes := by
      rw [← text_glyphs s.trim, hinit]
      simp [Glyph.text]
    have hne : (Glyph.text init ++ g.bytes).reverse ≠ [] := by simp [hencoded.bytes]
    obtain ⟨b, before, hreverse⟩ := List.exists_cons_of_ne_nil hne
    have hleft : trimReversed s.trimFront.reverse = b :: before := by
      rw [← hreverse, ← htext]
      simp [trim, trimEnd]
    rw [← last_of_encoded hencoded hreverse]
    exact isBlank_last_trimReversed _ hleft
  · exact isBlank_stray b

end Bytes

end Back

section Code

/-- The code of a line: what follows its last slash. -/
def Token.codeText (line : Bytes) : Bytes :=
  (Bytes.splitOn '/'.toUInt8 line).getLastD []

theorem splitOn_ne_nil
    (sep : UInt8) (s : Bytes) :
    Bytes.splitOn sep s ≠ [] := by
  cases s with
  | nil => simp [Bytes.splitOn]
  | cons b s =>
      unfold Bytes.splitOn
      split_ifs
      · simp
      · split <;> simp

/-- Cutting at a byte cuts at each occurrence of it. -/
theorem splitOn_append_sep
    (sep : UInt8) (s t : Bytes) :
    Bytes.splitOn sep (s ++ sep :: t) = Bytes.splitOn sep s ++ Bytes.splitOn sep t := by
  induction s with
  | nil => simp [Bytes.splitOn]
  | cons b s ih =>
      obtain ⟨piece, pieces, hpieces⟩ := List.exists_cons_of_ne_nil (splitOn_ne_nil sep s)
      rw [List.cons_append, Bytes.splitOn, Bytes.splitOn, ih, hpieces]
      split_ifs <;> rfl

theorem codeText_append_slash
    (s : Bytes) {w : Bytes}
    (hw : '/'.toUInt8 ∉ w) :
    Token.codeText (s ++ '/'.toUInt8 :: w) = w := by
  rw [Token.codeText, splitOn_append_sep, splitOn_of_notMem hw]
  simp

theorem codeText_of_notMem
    {w : Bytes}
    (hw : '/'.toUInt8 ∉ w) :
    Token.codeText w = w := by
  rw [Token.codeText, splitOn_of_notMem hw]
  rfl

/-- A line is its code, or comments, a slash and its code. -/
theorem eq_append_codeText
    (line : Bytes) :
    line = Token.codeText line ∨
      ∃ comments, line = comments ++ '/'.toUInt8 :: Token.codeText line := by
  by_cases hslash : '/'.toUInt8 ∈ line
  · obtain ⟨w, s, hline, hw⟩ :=
      List.eq_append_cons_of_mem (List.mem_reverse.mpr hslash)
    have hsplit : line = s.reverse ++ '/'.toUInt8 :: w.reverse := by
      have hreverse := congrArg List.reverse hline
      simpa using hreverse
    have hcode : Token.codeText line = w.reverse := by
      rw [hsplit]
      exact codeText_append_slash _ (by simpa using hw)
    exact Or.inr ⟨s.reverse, by rw [hcode]; exact hsplit⟩
  · exact Or.inl (codeText_of_notMem hslash).symm

/-- The glyphs of a line with a slash. -/
theorem glyphs_append_slash
    (s w : Bytes) :
    glyphs (s ++ '/'.toUInt8 :: w) = glyphs s ++ Glyph.ofByte '/'.toUInt8 :: glyphs w := by
  have hstarts : Glyph.Starts ('/'.toUInt8 :: w) := by
    intro x hx
    cases hx
    rfl
  rw [glyphs_append hstarts, glyphs_cons, Glyph.first_of_lt (by decide)]
  rfl

theorem Lexeme.token_not_isComment
    {lx : Lexeme} {t : Token}
    (h : lx.token = .ok t) :
    t.isComment = false := by
  cases lx with
  | bracket side | word run =>
      cases h
      rfl
  | digits run =>
      simp only [Lexeme.token] at h
      split at h
      · cases h
        rfl
      · cases h

/-- No token of code is a comment. -/
theorem Token.not_isComment_of_ofCode
    {code : Bytes} {ts : List Token}
    (h : Token.ofCode code = .ok ts) :
    ∀ t ∈ ts, t.isComment = false := by
  intro t ht
  obtain ⟨lx, -, hlx⟩ := mem_mapM _ h t ht
  exact Lexeme.token_not_isComment hlx

/-- The code of a line, as it is read from the text after the last slash. -/
theorem Token.ofCode_of_ofLine
    {line : Bytes} {ts : List Token}
    (h : Token.ofLine line = .ok ts) :
    Token.ofCode (Token.codeText line) = .ok (ts.filter fun t => !t.isComment) := by
  obtain ⟨code, hcode, rfl⟩ := map_eq_ok_iff.mp h
  have hcomments : ∀ comments : List Bytes,
      ((comments.map Token.comment).filter fun t => !t.isComment) = [] := by
    intro comments
    simp [Token.isComment]
  have hkept : (code.filter fun t => !t.isComment) = code := by
    refine List.filter_eq_self.mpr ?_
    intro t ht
    rw [Token.not_isComment_of_ofCode hcode t ht]
    rfl
  rw [List.filter_append, hcomments, List.nil_append, hkept]
  exact hcode

end Code

end Contrary
