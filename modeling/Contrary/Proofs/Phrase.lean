import Contrary.Phrase.Meaning
import Contrary.Proofs.Names

/-!
# What a line of code does to the names

A line of code either uses names that lines below it have introduced, or enters
one new name.  This module says so once, for all commands: `Names.Extension` is
what the meaning of a line can be, and `Op.ofCode_extension` shows that it is.

**Templates.**  The tokens of a line are determined by the words that they fold
into (`Word.tokens_of_ofTokens?`), and the words by the command and what fills
its slots (`Piece.fill_of_match?`).
-/

namespace Contrary

section Words

/-- Tokens that fold into words are the tokens of these words. -/
theorem Word.tokens_of_ofTokens?
    {ts : List Token} {ws : List Word}
    (h : Word.ofTokens? ts = some ws) :
    ts = ws.flatMap Word.tokens := by
  fun_induction Word.ofTokens? ts generalizing ws with
  | case1 =>
      cases h
      rfl
  | case2 value ts ih =>
      obtain ⟨ws', hws, rfl⟩ := Option.map_eq_some_iff.mp h
      rw [ih hws]
      rfl
  | case3 array index ts ih =>
      obtain ⟨ws', hws, rfl⟩ := Option.map_eq_some_iff.mp h
      rw [ih hws]
      rfl
  | case4 array index ts ih =>
      obtain ⟨ws', hws, rfl⟩ := Option.map_eq_some_iff.mp h
      rw [ih hws]
      rfl
  | case5 => cases h
  | case6 text ts _ _ _ ih =>
      obtain ⟨ws', hws, rfl⟩ := Option.map_eq_some_iff.mp h
      rw [ih hws]
      rfl
  | case7 => cases h

/-- The words of a template with the given words in its slots. -/
def Piece.fill : List Piece → List Word → List Word
  | [], _ => []
  | .fixed keyword :: ps, args => .name (ascii keyword) :: fill ps args
  | .slot _ :: ps, w :: args => w :: fill ps args
  | .slot _ :: _, [] => []

/-- Words that fit a template are those of the template with its slots filled. -/
theorem Piece.fill_of_match?
    {ps : List Piece} {ws args : List Word}
    (h : Piece.match? ps ws = some args) :
    ws = Piece.fill ps args := by
  fun_induction Piece.match? ps ws generalizing args with
  | case1 =>
      cases h
      rfl
  | case2 keyword ps ws ih =>
      rw [ih h]
      rfl
  | case3 => cases h
  | case4 s ps w ws _ ih =>
      obtain ⟨args', hargs, rfl⟩ := Option.map_eq_some_iff.mp h
      rw [ih hargs]
      rfl
  | case5 => cases h
  | case6 => cases h

end Words

section Mentions

/-- The handle, if the kind that is asked for is its own. -/
def NameKind.only (k own : NameKind) (handle : Nat) : List Nat :=
  if k = own then [handle] else []

/-- The handles of a kind in an index. -/
def Index.mentions (k : NameKind) : Index → List Nat
  | .literal _ => []
  | .var v => k.only .variable v

/-- The handles of a kind in a place. -/
def Place.mentions (k : NameKind) : Place → List Nat
  | .var v => k.only .variable v
  | .element a i => k.only .array a ++ i.mentions k

/-- The handles of a kind in an operand. -/
def Operand.mentions (k : NameKind) : Operand → List Nat
  | .literal _ => []
  | .stored p => p.mentions k

/-- The handles of a kind in an operation. -/
def Op.mentions (k : NameKind) : Op → List Nat
  | .define v => k.only .variable v
  | .defineArray a => k.only .array a
  | .undefine v => k.only .variable v
  | .undefineArray a => k.only .array a
  | .read target => target.mentions k
  | .print v => v.mentions k
  | .printChar v => v.mentions k
  | .add v target => v.mentions k ++ target.mentions k
  | .subtract v target => v.mentions k ++ target.mentions k
  | .openBlock => []
  | .closeBlock a b _ => a.mentions k ++ b.mentions k
  | .mark f => k.only .flag f
  | .unmark f => k.only .flag f
  | .pin f => k.only .flag f
  | .goto => []

/-- The operation that introduces a handle of a kind. -/
def NameKind.introduction : NameKind → Nat → Op
  | .variable => .define
  | .array => .defineArray
  | .flag => .mark

theorem NameKind.mem_only
    {k own : NameKind} {handle h : Nat} :
    h ∈ k.only own handle ↔ k = own ∧ h = handle := by
  unfold NameKind.only
  split_ifs with hk <;> simp [hk]

/-- An introduction mentions its own handle only. -/
theorem NameKind.mem_mentions_introduction
    {k own : NameKind} {handle h : Nat} :
    h ∈ (own.introduction handle).mentions k ↔ k = own ∧ h = handle := by
  cases own <;> exact NameKind.mem_only

end Mentions

namespace Names

/-- Every handle among the mentioned ones is in its table. -/
def Covers (t : Names) (mentions : NameKind → List Nat) : Prop :=
  ∀ k, ∀ h ∈ mentions k, h < (t.table k).length

/-- What a line of code does to the names.  It uses names that are there, and then
it places no flag; or it enters one new name, which its operation introduces.
The size of a new array is the number that the line spells. -/
inductive Extension (t : Names) (code : List Token) : Op → Names → Prop
  | uses {op : Op} :
      t.Covers op.mentions →
      (∀ f, op ≠ .mark f) →
      Extension t code op t
  | enters {k : NameKind} {name : Bytes} {size : Int} :
      name ∉ t.all →
      Spelling.allowed name k = true →
      (k = .array → ∃ n : Int32, size = n.toInt ∧
        code = [.name (ascii "undefine"), .name (ascii "single"), .name name, .bracket .left,
          .literal n, .bracket .right]) →
      Extension t code (k.introduction (t.table k).length) (t.insert name size k).1

section Covers

variable {t : Names}

theorem covers_append
    {f g : NameKind → List Nat} :
    t.Covers (fun k => f k ++ g k) ↔ t.Covers f ∧ t.Covers g := by
  constructor
  · intro h
    exact ⟨fun k i hi => h k i (List.mem_append_left _ hi),
      fun k i hi => h k i (List.mem_append_right _ hi)⟩
  · rintro ⟨hf, hg⟩ k i hi
    rcases List.mem_append.mp hi with hi | hi
    · exact hf k i hi
    · exact hg k i hi

theorem covers_nil :
    t.Covers (fun _ => []) := by
  intro k h hh
  cases hh

theorem covers_only
    {own : NameKind} {handle : Nat}
    (h : handle < (t.table own).length) :
    t.Covers (fun k => k.only own handle) := by
  intro k i hi
  obtain ⟨rfl, rfl⟩ := NameKind.mem_only.mp hi
  exact h

theorem lt_of_covers_only
    {own : NameKind} {handle : Nat}
    (h : t.Covers (fun k => k.only own handle)) :
    handle < (t.table own).length :=
  h own handle (NameKind.mem_only.mpr ⟨rfl, rfl⟩)

theorem covers_of_lookup
    {name : Bytes} {want : NameKind} {i : Nat}
    (h : t.lookup name want = .ok i) :
    t.Covers (fun k => k.only want i) :=
  covers_only (List.getElem?_eq_some_iff.mp (lookup_eq_ok h)).1

theorem covers_index
    {s : Subscript} {i : Index}
    (h : t.index s = .ok i) :
    t.Covers i.mentions := by
  cases s with
  | literal n =>
      cases h
      exact covers_nil
  | name x =>
      obtain ⟨v, hv, rfl⟩ := map_eq_ok_iff.mp h
      exact covers_of_lookup hv

theorem covers_element
    {array : Bytes} {s : Subscript} {p : Place}
    (h : t.element array s = .ok p) :
    t.Covers p.mentions := by
  unfold element at h
  obtain ⟨a, ha, h⟩ := bind_eq_ok_iff.mp h
  obtain ⟨i, hi, h⟩ := bind_eq_ok_iff.mp h
  cases h
  exact covers_append.mpr ⟨covers_of_lookup ha, covers_index hi⟩

theorem covers_place
    {w : Word} {p : Place}
    (h : t.place w = .ok p) :
    t.Covers p.mentions := by
  cases w with
  | name x =>
      obtain ⟨v, hv, rfl⟩ := map_eq_ok_iff.mp h
      exact covers_of_lookup hv
  | literal n => cases h
  | element array s => exact covers_element h

theorem covers_operand
    {w : Word} {v : Operand}
    (h : t.operand w = .ok v) :
    t.Covers v.mentions := by
  cases w with
  | literal n =>
      cases h
      exact covers_nil
  | name x =>
      obtain ⟨p, hp, rfl⟩ := map_eq_ok_iff.mp h
      exact covers_place hp
  | element array s =>
      obtain ⟨p, hp, rfl⟩ := map_eq_ok_iff.mp h
      exact covers_place hp

end Covers

section Meaning

variable {t t' : Names} {code : List Token} {op : Op}

theorem keeping_eq_ok
    {x : Except PhraseError Op}
    (h : Command.keeping t x = .ok (op, t')) :
    x = .ok op ∧ t' = t := by
  obtain ⟨o, ho, heq⟩ := map_eq_ok_iff.mp h
  cases heq
  exact ⟨ho, rfl⟩

/-- A line that uses one name, or what a word denotes. -/
theorem extension_of_map
    {α : Type} {x : Except PhraseError α} {f : α → Op}
    (h : Command.keeping t (x.map f) = .ok (op, t'))
    (hcovers : ∀ a, x = .ok a → t.Covers (f a).mentions)
    (hmark : ∀ a i, f a ≠ .mark i) :
    t.Extension code op t' := by
  obtain ⟨hx, rfl⟩ := keeping_eq_ok h
  obtain ⟨a, ha, rfl⟩ := map_eq_ok_iff.mp hx
  exact .uses (hcovers a ha) (hmark a)

/-- A line that introduces a name of a kind, for which the name may be known
already unless it is a flag. -/
theorem extension_of_intern
    {name : Bytes} {k : NameKind} {size : Int}
    (h : (t.intern name k size).map (fun r => (k.introduction r.2, r.1)) = .ok (op, t'))
    (hflag : k = .flag → ∀ i, t.find? name ≠ some (.flag, i))
    (hsize : k = .array → ∃ n : Int32, size = n.toInt ∧
      code = [.name (ascii "undefine"), .name (ascii "single"), .name name, .bracket .left,
        .literal n, .bracket .right]) :
    t.Extension code op t' := by
  obtain ⟨⟨t'', i⟩, hintern, heq⟩ := map_eq_ok_iff.mp h
  cases heq
  rcases intern_eq_ok hintern with ⟨rfl, hi, hfind⟩ | ⟨hnew, hok, rfl, rfl⟩
  · have hlt := (List.getElem?_eq_some_iff.mp hi).1
    refine .uses ?_ ?_
    · intro k' j hj
      obtain ⟨rfl, rfl⟩ := NameKind.mem_mentions_introduction.mp hj
      exact hlt
    · intro f hf
      cases k with
      | «variable» => cases hf
      | array => cases hf
      | flag => exact hflag rfl i hfind
  · exact .enters hnew hok hsize

/-- What the meaning of a command does to the names. -/
theorem extension_of_meaning
    {c : Command} {args : List Word}
    (hcode : code = (Piece.fill c.template args).flatMap Word.tokens)
    (h : c.meaning t args = .ok (op, t')) :
    t.Extension code op t' := by
  unfold Command.meaning at h
  split at h
  · -- the line spells the size, so its tokens are known
    rename_i array size
    exact extension_of_intern (k := .array) h (by simp) (fun _ => ⟨size, rfl, hcode⟩)
  · exact extension_of_map h (fun _ ha => covers_of_lookup ha) (by simp)
  · exact extension_of_intern (k := .variable) h (by simp) (by simp)
  · exact extension_of_map h (fun _ ha => covers_of_lookup ha) (by simp)
  · exact extension_of_map h (fun _ ha => covers_place ha) (by simp)
  · exact extension_of_map h (fun _ ha => covers_operand ha) (by simp)
  · exact extension_of_map h (fun _ ha => covers_operand ha) (by simp)
  · obtain ⟨h, rfl⟩ := keeping_eq_ok h
    obtain ⟨v, hv, h⟩ := bind_eq_ok_iff.mp h
    obtain ⟨p, hp, h⟩ := bind_eq_ok_iff.mp h
    cases h
    exact .uses (covers_append.mpr ⟨covers_operand hv, covers_place hp⟩) (by simp)
  · obtain ⟨h, rfl⟩ := keeping_eq_ok h
    obtain ⟨v, hv, h⟩ := bind_eq_ok_iff.mp h
    obtain ⟨p, hp, h⟩ := bind_eq_ok_iff.mp h
    cases h
    exact .uses (covers_append.mpr ⟨covers_operand hv, covers_place hp⟩) (by simp)
  · split at h
    · cases h
    · rename_i hfind
      exact extension_of_intern (k := .flag) h (fun _ i hi => hfind i hi) (by simp)
  · exact extension_of_map h (fun _ ha => covers_of_lookup ha) (by simp)
  · exact extension_of_map h (fun _ ha => covers_of_lookup ha) (by simp)
  · cases h
    exact .uses covers_nil (by simp)
  · obtain ⟨h, rfl⟩ := keeping_eq_ok h
    obtain ⟨v, hv, h⟩ := bind_eq_ok_iff.mp h
    obtain ⟨w, hw, h⟩ := bind_eq_ok_iff.mp h
    cases h
    exact .uses (covers_append.mpr ⟨covers_operand hv, covers_operand hw⟩) (by simp)
  · cases h
    exact .uses covers_nil (by simp)
  · cases h

end Meaning

end Names

/-- What a line of code is: its words fit the template of a command, which gives the
operation. -/
theorem Op.ofCode_eq_ok
    {t t' : Names} {code : List Token} {op : Op}
    (h : Op.ofCode t code = .ok (op, t')) :
    ∃ c ws args, code = ws.flatMap Word.tokens ∧ Piece.match? (Command.template c) ws = some args ∧
      c.meaning t args = .ok (op, t') := by
  unfold Op.ofCode Op.ofCodeWith at h
  split at h
  · cases h
  · rename_i words hwords
    split at h
    · cases h
    · rename_i c args hselect
      obtain ⟨c', -, hc⟩ := List.exists_of_findSome?_eq_some hselect
      obtain ⟨args', hargs, heq⟩ := Option.map_eq_some_iff.mp hc
      cases heq
      exact ⟨c, words, args, Word.tokens_of_ofTokens? hwords, hargs, h⟩

/-- What a line of code does to the names, whatever its command. -/
theorem Op.ofCode_extension
    {t t' : Names} {code : List Token} {op : Op}
    (h : Op.ofCode t code = .ok (op, t')) :
    t.Extension code op t' := by
  obtain ⟨c, ws, args, hcode, hargs, hmeaning⟩ := Op.ofCode_eq_ok h
  rw [Piece.fill_of_match? hargs] at hcode
  exact Names.extension_of_meaning hcode hmeaning

end Contrary
