import Contrary.Proofs.Segments

/-!
# Tokens that are written out

Tokens can be written out again: a comment with its slash, and the tokens of the code with
a space between them.  This module shows that they are read back, and that every list of
tokens that comes of a line is one that can be written so.

**Tokens.**  `Token.IsLine` describes the lists of tokens that a line can have.  The text of
a name is any run of glyphs that a word may hold: it need not be valid UTF-8, and it may end
in the middle of an encoding.

**Segments.**  The text of a token of code is one segment.  A space ends each of them, and is
itself ended by each of them (`Token.splits_spaced`), so the parts of the written line are
known.

**Results.**
* `tokens_survive_rendering`: reading undoes writing, and writing what was read loses
  nothing.
-/

namespace Contrary

namespace Token

/-- The text of a token. -/
def text : Token → Bytes
  | .name x => x
  | .literal n => Bytes.decimal n.toInt
  | .bracket side => [side.byte]
  | .comment c => c ++ ['/'.toUInt8]
  | .unknown => []

/-- Tokens written out: first the comments, then the others with a space between them. -/
def render (ts : List Token) : Bytes :=
  (ts.filter isComment).flatMap text ++
    List.intercalate (ascii " ") ((ts.filter fun t => !t.isComment).map text)

/-- A token of code. -/
def IsCode : Token → Prop
  | .name x =>
      x ≠ [] ∧ '/'.toUInt8 ∉ x ∧ x.head?.any Bytes.isDigit = false ∧
        ∀ g ∈ glyphs x, g.inWord = true
  | .literal n => 0 ≤ n.toInt
  | .bracket _ => True
  | _ => False

/-- Comments without slashes, and then code. -/
def IsLine (ts : List Token) : Prop :=
  ∃ (comments : List Bytes) (code : List Token), ts = comments.map comment ++ code ∧
    (∀ c ∈ comments, '/'.toUInt8 ∉ c) ∧ ∀ t ∈ code, t.IsCode

section Segments

/-- The segment that a token of code is written as. -/
def segment : Token → Segment
  | .literal n => .digits (Bytes.decimal n.toInt)
  | .bracket side => .bracket side
  | t => .word t.text

variable {t : Token}

theorem text_segment
    (t : Token) :
    t.segment.text = t.text := by
  cases t <;> rfl

theorem isProper_segment
    (ht : t.IsCode) :
    t.segment.IsProper := by
  cases t with
  | name x => exact ⟨ht.1, ht.2.2⟩
  | literal n => exact decimal_digits ht
  | bracket side => trivial
  | comment c => exact ht.elim
  | unknown => exact ht.elim

/-- The numeral of a number has its value. -/
theorem value_decimal
    {n : Int32}
    (hn : 0 ≤ n.toInt) :
    n.toInt = Numeral.value 10 (Bytes.decimal n.toInt) ∧
      Numeral.value 10 (Bytes.decimal n.toInt) ≤ 2147483647 := by
  obtain ⟨hne, hdigits⟩ := decimal_digits hn
  have hread := Segment.reads_digits hne hdigits
  rw [Numeral.readPlain32_decimal hn] at hread
  cases hread with
  | value hvalue hfits => exact ⟨hvalue, (Segment.fitsIn_iff _).mp hfits⟩

/-- The segment of a token is read as this token. -/
theorem token?_segment
    (ht : t.IsCode) :
    t.segment.excess? = none ∧ t.segment.token? = some t := by
  cases t with
  | name x => exact ⟨rfl, rfl⟩
  | literal n =>
      obtain ⟨hvalue, hle⟩ := value_decimal ht
      refine ⟨if_neg (Nat.not_lt.mpr hle), ?_⟩
      have hn : Int32.ofNat (Numeral.value 10 (Bytes.decimal n.toInt)) = n := by
        rw [← Int32.toInt_inj, Int32.toInt_ofNat_of_lt (by omega), ← hvalue]
      rw [segment, Segment.token?, hn]
  | bracket side => exact ⟨rfl, rfl⟩
  | comment c => exact ht.elim
  | unknown => exact ht.elim

/-- Every segment ends at the end of the text. -/
theorem endsAt_nil
    (x : Segment) :
    x.EndsAt [] := by
  cases x with
  | blanks w | word w =>
      rw [Segment.EndsAt, glyphs_nil]
      rfl
  | bracket side => trivial
  | digits ds => rfl

/-- A space ends the segment of a token. -/
theorem endsAt_space
    (t : Token) (rest : Bytes) :
    t.segment.EndsAt (ascii " " ++ rest) := by
  have hspace : (glyphs (ascii " " ++ rest)).head?.any Glyph.inWord = false := by
    change (glyphs (' '.toUInt8 :: rest)).head?.any Glyph.inWord = false
    rw [glyphs_cons, Glyph.first_of_lt (by decide)]
    exact (by decide : (Glyph.ofByte ' '.toUInt8).inWord = false)
  cases t with
  | literal n => exact (by decide : Bytes.isDigit ' '.toUInt8 = false)
  | bracket side => trivial
  | _ => exact hspace

/-- A space is ended by the segment of a token. -/
theorem space_endsAt
    (ht : t.IsCode)
    {rest : Bytes}
    (hend : t.segment.EndsAt rest) :
    (Segment.blanks (ascii " ")).EndsAt (t.segment.text ++ rest) := by
  obtain ⟨g, gs, hglyphs, hsegment⟩ := Segment.eq_ofGlyphs (isProper_segment ht) hend
  rw [Segment.EndsAt, hglyphs]
  cases hblank : g.isBlank with
  | false => exact hblank
  | true =>
      rw [Segment.ofGlyphs, if_pos hblank] at hsegment
      cases t <;> cases hsegment

/-- The segments of tokens of code, with a space before each of them. -/
def following (ts : List Token) : List Segment :=
  ts.flatMap fun t => [.blanks (ascii " "), t.segment]

/-- The segments of tokens of code, with a space between them. -/
def spaced : List Token → List Segment
  | [] => []
  | t :: ts => t.segment :: following ts

theorem endsAt_following
    (t : Token) (ts : List Token) :
    t.segment.EndsAt ((following ts).flatMap Segment.text) := by
  cases ts with
  | nil => exact endsAt_nil t.segment
  | cons t' ts => exact endsAt_space t _

theorem splits_following
    {ts : List Token}
    (hts : ∀ t ∈ ts, t.IsCode) :
    Segment.Splits ((following ts).flatMap Segment.text) (following ts) := by
  induction ts with
  | nil => exact .nil
  | cons t ts ih =>
      obtain ⟨ht, hts⟩ := List.forall_mem_cons.mp hts
      have hspace : (Segment.blanks (ascii " ")).IsProper :=
        ⟨List.cons_ne_nil _ _, by decide +kernel⟩
      have hend := endsAt_following t ts
      exact .cons hspace (space_endsAt ht hend) (.cons (isProper_segment ht) hend (ih hts))

/-- The segments of code that is written out. -/
theorem splits_spaced
    {ts : List Token}
    (hts : ∀ t ∈ ts, t.IsCode) :
    Segment.Splits ((spaced ts).flatMap Segment.text) (spaced ts) := by
  cases ts with
  | nil => exact .nil
  | cons t ts =>
      obtain ⟨ht, hts⟩ := List.forall_mem_cons.mp hts
      exact .cons (isProper_segment ht) (endsAt_following t ts) (splits_following hts)

/-- The code that is written out is read back. -/
theorem read_spaced
    {ts : List Token}
    (hts : ∀ t ∈ ts, t.IsCode) :
    Segment.read (spaced ts) = .ok ts := by
  have hread : ∀ {t : Token} {xs : List Segment}, t.IsCode →
      Segment.read (t.segment :: xs) = (Segment.read xs).map (t :: ·) := by
    intro t xs ht
    exact Segment.read_cons (token?_segment ht).1 (token?_segment ht).2 xs
  have hfollowing : ∀ {ts : List Token}, (∀ t ∈ ts, t.IsCode) →
      Segment.read (following ts) = .ok ts := by
    intro ts hts
    induction ts with
    | nil => rfl
    | cons t ts ih =>
        obtain ⟨ht, hts⟩ := List.forall_mem_cons.mp hts
        change Segment.read (.blanks _ :: t.segment :: following ts) = _
        rw [Segment.read_cons_blanks, hread ht, ih hts]
        rfl
  cases ts with
  | nil => rfl
  | cons t ts =>
      obtain ⟨ht, hts⟩ := List.forall_mem_cons.mp hts
      rw [spaced, hread ht, hfollowing hts]
      rfl

theorem slash_notMem_text
    (ht : t.IsCode) :
    '/'.toUInt8 ∉ t.text := by
  cases t with
  | name x => exact ht.2.1
  | literal n =>
      intro hmem
      exact absurd ((decimal_digits ht).2 _ hmem) (by decide)
  | bracket side => cases side <;> decide
  | comment c => exact ht.elim
  | unknown => exact ht.elim

theorem text_spaced
    (ts : List Token) :
    (spaced ts).flatMap Segment.text = List.intercalate (ascii " ") (ts.map text) := by
  have hfollowing : ∀ ts : List Token,
      (following ts).flatMap Segment.text = ts.flatMap fun t => ascii " " ++ t.text := by
    intro ts
    rw [following, List.flatMap_assoc]
    refine List.flatMap_congr ?_
    intro t _
    rw [List.flatMap_cons, List.flatMap_singleton, text_segment]
    rfl
  cases ts with
  | nil => rfl
  | cons t ts =>
      rw [spaced, List.flatMap_cons, text_segment, hfollowing]
      induction ts generalizing t with
      | nil => simp [List.intercalate]
      | cons t' ts ih =>
          rw [List.flatMap_cons, List.append_assoc, ih t']
          simp [List.intercalate]

theorem mem_spaced
    {ts : List Token} {x : Segment}
    (hx : x ∈ spaced ts) :
    x = .blanks (ascii " ") ∨ ∃ t ∈ ts, x = t.segment := by
  cases ts with
  | nil => cases hx
  | cons t ts =>
      rcases List.mem_cons.mp hx with rfl | hx
      · exact Or.inr ⟨t, List.mem_cons_self, rfl⟩
      · obtain ⟨t', ht', hx⟩ := List.mem_flatMap.mp hx
        rcases List.mem_cons.mp hx with rfl | hx
        · exact Or.inl rfl
        · exact Or.inr ⟨t', List.mem_cons_of_mem _ ht', List.mem_singleton.mp hx⟩

theorem slash_notMem_spaced
    {ts : List Token}
    (hts : ∀ t ∈ ts, t.IsCode) :
    '/'.toUInt8 ∉ (spaced ts).flatMap Segment.text := by
  intro hmem
  obtain ⟨x, hx, hmem⟩ := List.mem_flatMap.mp hmem
  rcases mem_spaced hx with rfl | ⟨t, ht, rfl⟩
  · exact absurd hmem (by decide)
  · rw [text_segment] at hmem
    exact slash_notMem_text (hts t ht) hmem

end Segments

section Lines

/-- The parts of a line of tokens that is written out. -/
theorem isProper_rendered
    {comments : List Bytes} {code : List Token}
    (hcomments : ∀ c ∈ comments, '/'.toUInt8 ∉ c)
    (hcode : ∀ t ∈ code, t.IsCode) :
    (LineParts.mk comments (spaced code)).IsProper :=
  ⟨hcomments, slash_notMem_spaced hcode, splits_spaced hcode⟩

theorem isComment_of_isCode
    {t : Token}
    (ht : t.IsCode) :
    t.isComment = false := by
  cases t with
  | comment c => exact ht.elim
  | _ => rfl

theorem render_eq_text
    (comments : List Bytes) {code : List Token}
    (hcode : ∀ t ∈ code, t.IsCode) :
    render (comments.map comment ++ code) = (LineParts.mk comments (spaced code)).text := by
  have hfirst : (comments.map comment ++ code).filter isComment = comments.map comment := by
    rw [List.filter_append, List.filter_eq_self.mpr, List.filter_eq_nil_iff.mpr, List.append_nil]
    · intro t ht
      simp [isComment_of_isCode (hcode t ht)]
    · intro t ht
      obtain ⟨c, -, rfl⟩ := List.mem_map.mp ht
      rfl
  have hsecond : ((comments.map comment ++ code).filter fun t => !t.isComment) = code := by
    rw [List.filter_append, List.filter_eq_nil_iff.mpr, List.nil_append, List.filter_eq_self.mpr]
    · intro t ht
      simp [isComment_of_isCode (hcode t ht)]
    · intro t ht
      obtain ⟨c, -, rfl⟩ := List.mem_map.mp ht
      simp [isComment]
  rw [render, hfirst, hsecond, LineParts.text, LineParts.code, text_spaced, List.flatMap_map]
  rfl

/-- Tokens that are written out are read back. -/
theorem ofLine_render
    {ts : List Token}
    (hts : IsLine ts) :
    ofLine (render ts) = .ok ts := by
  obtain ⟨comments, code, rfl, hcomments, hcode⟩ := hts
  rw [render_eq_text comments hcode, LineParts.ofLine_text (isProper_rendered hcomments hcode),
    read_spaced hcode]
  rfl

/-- The token of a segment without a slash is a token of code. -/
theorem isCode_of_token?
    {x : Segment} {t : Token}
    (hx : x.IsProper)
    (hslash : '/'.toUInt8 ∉ x.text)
    (hfits : ∀ ds, x = .digits ds → Numeral.value 10 ds ≤ 2147483647)
    (ht : x.token? = some t) :
    t.IsCode := by
  cases x with
  | blanks w => cases ht
  | bracket side =>
      cases ht
      trivial
  | digits ds =>
      cases ht
      have hle := hfits ds rfl
      rw [IsCode, Int32.toInt_ofNat_of_lt (by omega)]
      omega
  | word w =>
      cases ht
      exact ⟨hx.1, hslash, hx.2⟩

/-- The tokens of a line are a line of tokens. -/
theorem isLine_of_ofLine
    {line : Bytes} {ts : List Token}
    (h : ofLine line = .ok ts) :
    IsLine ts := by
  obtain ⟨p, hp, rfl⟩ := LineParts.exists_isProper line
  rw [LineParts.ofLine_text hp, map_eq_ok_iff] at h
  obtain ⟨code, hcode, rfl⟩ := h
  obtain ⟨hfits, rfl⟩ := Segment.read_eq_ok_iff.mp hcode
  refine ⟨p.comments, _, rfl, hp.comments, ?_⟩
  intro t ht
  obtain ⟨x, hx, htoken⟩ := List.mem_filterMap.mp ht
  refine isCode_of_token? (hp.segments.isProper x hx) ?_ ?_ htoken
  · intro hslash
    exact hp.code (List.mem_flatMap.mpr ⟨x, hx, hslash⟩)
  · rintro ds rfl
    exact hfits ds hx

end Lines

end Token

/-- **Tokens survive being written out.**  Comments without slashes followed by names,
numbers that are not negative and brackets are read back from the line that they are
written as.  The tokens of every line are such tokens, so writing out what was read and
reading it again changes nothing. -/
theorem tokens_survive_rendering :
    (∀ ts, Token.IsLine ts → Token.ofLine (Token.render ts) = .ok ts) ∧
    ∀ line ts, Token.ofLine line = .ok ts →
      Token.IsLine ts ∧ Token.ofLine (Token.render ts) = .ok ts := by
  refine ⟨fun ts => Token.ofLine_render, ?_⟩
  intro line ts h
  have hts := Token.isLine_of_ofLine h
  exact ⟨hts, Token.ofLine_render hts⟩

/-- Two comments, a name that ends in the middle of an encoding, the largest number, and
brackets around a name with a digit. -/
def brokenName : List Token :=
  [[], [0xFF, 0x20]].map .comment ++
    [.name [0x61, 0xE2, 0x80], .literal 2147483647, .bracket .left, .name (ascii "x9"),
      .bracket .right]

theorem brokenName_survives :
    Token.IsLine brokenName ∧
    Token.render brokenName =
      [0x2F, 0xFF, 0x20, 0x2F, 0x61, 0xE2, 0x80] ++ ascii " 2147483647 [ x9 ]" ∧
    Token.ofLine (Token.render brokenName) = .ok brokenName := by
  have hline : Token.IsLine brokenName := by
    refine ⟨_, _, rfl, by decide, ?_⟩
    simp only [List.forall_mem_cons, Token.IsCode, true_and]
    exact ⟨⟨by decide, by decide, by decide, by decide +kernel⟩, by decide,
      ⟨by decide, by decide, by decide, by decide +kernel⟩, List.forall_mem_nil _⟩
  exact ⟨hline, by decide +kernel, tokens_survive_rendering.1 brokenName hline⟩

end Contrary
