import Contrary.Proofs.Template

/-!
# The table of commands

A line is tried against the templates of a table.  No line fits two of them, so the order of
the table makes no difference, and new lines of code can be tried in any order.

**Order.**  Tables with the same commands select the same one (`Command.select?_congr`), so
they give a line the same meaning (`Op.ofCodeWith_congr`).

**Structure.**  What fills the slots of a template is of the kinds that its slots ask for
(`Piece.accepted_of_match?`).  So a line that fits a template has a structure, and can only be
at fault for its names; the one exception is an array whose size is no number
(`Command.meaning_eq_invalidStructure_iff`).

**Results.**
* `Command.table_is_unambiguous`: one entry at most fits, in whatever order they are tried, and
  which lines have no structure.
-/

namespace Contrary

section Order

/-- Tables with the same commands select the same one. -/
theorem Command.select?_congr
    {commands others : List Command}
    (h : ∀ c, c ∈ commands ↔ c ∈ others) (ws : List Word) :
    Command.select? commands ws = Command.select? others ws := by
  cases hselect : Command.select? others ws with
  | none =>
      refine List.findSome?_eq_none_iff.mpr fun c hc => ?_
      exact List.findSome?_eq_none_iff.mp hselect c ((h c).mp hc)
  | some r =>
      obtain ⟨c, hc, hfits⟩ := List.exists_of_findSome?_eq_some hselect
      obtain ⟨args, hargs, rfl⟩ := Option.map_eq_some_iff.mp hfits
      exact Command.select?_of_mem ((h c).mpr hc) hargs

theorem Op.ofCodeWith_congr
    {commands others : List Command}
    (h : ∀ c, c ∈ commands ↔ c ∈ others) (t : Names) (code : List Token) :
    Op.ofCodeWith commands t code = Op.ofCodeWith others t code := by
  unfold Op.ofCodeWith
  cases Word.ofTokens? code with
  | none => rfl
  | some ws => simp only [Command.select?_congr h]

/-- No command has two entries. -/
theorem Command.nodup_all :
    Command.all.Nodup := by
  decide

end Order

section Slots

/-- The slots of a template. -/
def Piece.slots (ps : List Piece) : List Slot :=
  ps.filterMap fun
    | .fixed _ => none
    | .slot s => some s

/-- The words in the slots of a template are of the kinds that the slots ask for. -/
theorem Piece.accepted_of_match?
    {ps : List Piece} {ws args : List Word}
    (h : Piece.match? ps ws = some args) :
    List.Forall₂ (fun s w => Slot.accepts s w = true) (Piece.slots ps) args := by
  fun_induction Piece.match? ps ws generalizing args with
  | case1 =>
      cases h
      exact .nil
  | case2 keyword ps ws ih => exact ih h
  | case3 => cases h
  | case4 s ps w ws hw ih =>
      obtain ⟨args', hargs, rfl⟩ := Option.map_eq_some_iff.mp h
      exact .cons hw (ih hargs)
  | case5 => cases h
  | case6 => cases h

theorem Slot.exists_name
    {w : Word}
    (h : Slot.name.accepts w = true) :
    ∃ x, w = .name x := by
  cases w with
  | name x => exact ⟨x, rfl⟩
  | literal n => cases h
  | element array i => cases h

theorem Slot.ne_literal
    {w : Word}
    (h : Slot.place.accepts w = true) (n : Int32) :
    w ≠ .literal n := by
  rintro rfl
  cases h

theorem Slot.exists_element
    {w : Word}
    (h : Slot.element.accepts w = true) :
    ∃ array i, w = .element array i := by
  cases w with
  | name x => cases h
  | literal n => cases h
  | element array i => exact ⟨array, i, rfl⟩

end Slots

section Structure

/-- A reading that does not fail for want of structure. -/
def Structured {α : Type} (x : Except PhraseError α) : Prop :=
  x ≠ .error .invalidStructure

theorem Structured.ok
    {α : Type} (a : α) :
    Structured (.ok a) :=
  nofun

theorem Structured.map
    {α β : Type} {x : Except PhraseError α}
    (hx : Structured x) (f : α → β) :
    Structured (x.map f) := by
  cases x with
  | ok a => exact .ok (f a)
  | error e =>
      intro h
      cases h
      exact hx rfl

theorem Structured.bind
    {α β : Type} {x : Except PhraseError α} {f : α → Except PhraseError β}
    (hx : Structured x)
    (hf : ∀ a, Structured (f a)) :
    Structured (x >>= f) := by
  cases x with
  | ok a => exact hf a
  | error e =>
      intro h
      cases h
      exact hx rfl

variable (t : Names)

theorem structured_lookup
    (x : Bytes) (want : NameKind) :
    Structured (t.lookup x want) := by
  unfold Names.lookup
  cases t.find? x with
  | none => exact nofun
  | some r =>
      dsimp only
      split_ifs <;> exact nofun

theorem structured_intern
    (x : Bytes) (want : NameKind) (size : Int) :
    Structured (t.intern x want size) := by
  unfold Names.intern
  cases t.find? x with
  | none =>
      dsimp only
      split_ifs <;> exact nofun
  | some r =>
      dsimp only
      split_ifs <;> exact nofun

theorem structured_index
    (i : Subscript) :
    Structured (t.index i) := by
  cases i with
  | literal n => exact .ok _
  | name x => exact (structured_lookup t x .variable).map _

/-- A word that is no number denotes a place, or its names are at fault. -/
theorem structured_place
    {w : Word}
    (hw : ∀ n, w ≠ .literal n) :
    Structured (t.place w) := by
  cases w with
  | name x => exact (structured_lookup t x .variable).map _
  | literal n => exact absurd rfl (hw n)
  | element array i =>
      exact (structured_lookup t array .array).bind fun _ =>
        (structured_index t i).bind fun _ => .ok _

theorem structured_operand
    (w : Word) :
    Structured (t.operand w) := by
  cases w with
  | literal n => exact .ok _
  | name x => exact (structured_place t fun _ => Word.noConfusion).map _
  | element array i => exact (structured_place t fun _ => Word.noConfusion).map _

/-- A command with words of the right kinds in its slots has a meaning, or its names are at
fault, unless it is to define an array whose size is a name. -/
theorem structured_meaning
    {c : Command} {args : List Word}
    (hargs : List.Forall₂ (fun s w => Slot.accepts s w = true) (Piece.slots c.template) args)
    (hsize : ∀ array x, c = .defineArray → args ≠ [.element array (.name x)]) :
    Structured (c.meaning t args) := by
  -- the slots of a template are a concrete list, which gives the arguments one by one
  cases c with
  | defineArray =>
      obtain - | ⟨hw, ⟨⟩⟩ := hargs
      obtain ⟨array, i, rfl⟩ := Slot.exists_element hw
      cases i with
      | name x => exact absurd rfl (hsize array x rfl)
      | literal n => exact (structured_intern t array .array n.toInt).map _
  | undefineArray =>
      obtain - | ⟨hw, ⟨⟩⟩ := hargs
      obtain ⟨x, rfl⟩ := Slot.exists_name hw
      exact ((structured_lookup t x .array).map _).map _
  | define =>
      obtain - | ⟨hw, ⟨⟩⟩ := hargs
      obtain ⟨x, rfl⟩ := Slot.exists_name hw
      exact (structured_intern t x .variable 0).map _
  | undefine =>
      obtain - | ⟨hw, ⟨⟩⟩ := hargs
      obtain ⟨x, rfl⟩ := Slot.exists_name hw
      exact ((structured_lookup t x .variable).map _).map _
  | read =>
      obtain - | ⟨hw, ⟨⟩⟩ := hargs
      exact ((structured_place t (Slot.ne_literal hw)).map _).map _
  | print =>
      obtain - | ⟨hw, ⟨⟩⟩ := hargs
      exact ((structured_operand t _).map _).map _
  | printChar =>
      obtain - | ⟨hw, ⟨⟩⟩ := hargs
      exact ((structured_operand t _).map _).map _
  | subtract =>
      obtain - | ⟨hv, - | ⟨hw, ⟨⟩⟩⟩ := hargs
      exact ((structured_operand t _).bind fun _ =>
        (structured_place t (Slot.ne_literal hw)).bind fun _ => .ok _).map _
  | add =>
      obtain - | ⟨hv, - | ⟨hw, ⟨⟩⟩⟩ := hargs
      exact ((structured_operand t _).bind fun _ =>
        (structured_place t (Slot.ne_literal hw)).bind fun _ => .ok _).map _
  | mark =>
      obtain - | ⟨hw, ⟨⟩⟩ := hargs
      obtain ⟨x, rfl⟩ := Slot.exists_name hw
      unfold Command.meaning
      dsimp only
      split
      · exact nofun
      · exact (structured_intern t x .flag 0).map _
  | unmark =>
      obtain - | ⟨hw, ⟨⟩⟩ := hargs
      obtain ⟨x, rfl⟩ := Slot.exists_name hw
      exact ((structured_lookup t x .flag).map _).map _
  | pin =>
      obtain - | ⟨hw, ⟨⟩⟩ := hargs
      obtain ⟨x, rfl⟩ := Slot.exists_name hw
      exact ((structured_lookup t x .flag).map _).map _
  | goto =>
      cases hargs
      exact .ok _
  | closeBlock c =>
      have hslots : Piece.slots (Command.closeBlock c).template = [.value, .value] := by
        cases c <;> rfl
      rw [hslots] at hargs
      obtain - | ⟨hv, - | ⟨hw, ⟨⟩⟩⟩ := hargs
      exact ((structured_operand t _).bind fun _ =>
        (structured_operand t _).bind fun _ => .ok _).map _
  | openBlock =>
      cases hargs
      exact .ok _

/-- A line that fits a template has no structure exactly if it is to define an array whose
size is a name. -/
theorem Command.meaning_eq_invalidStructure_iff
    {c : Command} {ws args : List Word}
    (h : Piece.match? c.template ws = some args) :
    c.meaning t args = .error .invalidStructure ↔
      ∃ array x,
        ws = [.name (ascii "undefine"), .name (ascii "single"), .element array (.name x)] := by
  constructor
  · intro hmeaning
    by_contra hnone
    refine structured_meaning t (Piece.accepted_of_match? h) ?_ hmeaning
    rintro array x rfl rfl
    exact hnone ⟨array, x, Piece.fill_of_match? h⟩
  · rintro ⟨array, x, rfl⟩
    have hfits : Piece.match? Command.defineArray.template
        [.name (ascii "undefine"), .name (ascii "single"), .element array (.name x)] =
          some [.element array (.name x)] := rfl
    obtain rfl := Command.eq_of_match? h hfits
    obtain rfl := Option.some.inj (h.symm.trans hfits)
    rfl

end Structure

/-- **The table of commands is unambiguous.**  At most one entry of the table fits the words
of a line, whatever names they hold.  So a line has the same meaning, or the same fault, and
leaves the same names, in whatever order the commands are tried.  The line has no structure
exactly if its tokens do not fold into words, if its words fit no template, or if it is to
define an array whose size is a name. -/
theorem Command.table_is_unambiguous :
    (∀ (ws : List Word) (i j : Nat) (c d : Command),
      Command.all[i]? = some c → Command.all[j]? = some d →
      (Piece.match? c.template ws).isSome → (Piece.match? d.template ws).isSome → i = j) ∧
    (∀ commands : List Command, commands.Perm Command.all →
      ∀ (t : Names) (code : List Token), Op.ofCodeWith commands t code = Op.ofCode t code) ∧
    ∀ (t : Names) (code : List Token), Op.ofCode t code = .error .invalidStructure ↔
      Word.ofTokens? code = none ∨
      ∃ ws, Word.ofTokens? code = some ws ∧
        ((∀ c ∈ Command.all, Piece.match? c.template ws = none) ∨
          ∃ array x,
            ws = [.name (ascii "undefine"), .name (ascii "single"), .element array (.name x)]) := by
  refine ⟨?_, ?_, ?_⟩
  · intro ws i j c d hi hj hc hd
    obtain ⟨args, hargs⟩ := Option.isSome_iff_exists.mp hc
    obtain ⟨args', hargs'⟩ := Option.isSome_iff_exists.mp hd
    obtain rfl := Command.eq_of_match? hargs hargs'
    have hlt := (List.getElem?_eq_some_iff.mp hi).1
    exact (List.getElem?_inj hlt Command.nodup_all).mp (hi.trans hj.symm)
  · intro commands hperm t code
    exact Op.ofCodeWith_congr (fun _ => hperm.mem_iff) t code
  · intro t code
    unfold Op.ofCode Op.ofCodeWith
    cases Word.ofTokens? code with
    | none => exact iff_of_true rfl (.inl rfl)
    | some ws =>
        dsimp only
        cases hselect : Command.select? Command.all ws with
        | none =>
            refine iff_of_true rfl (.inr ⟨ws, rfl, .inl fun c hc => ?_⟩)
            exact Option.map_eq_none_iff.mp (List.findSome?_eq_none_iff.mp hselect c hc)
        | some r =>
            obtain ⟨c, hc, hfits⟩ := List.exists_of_findSome?_eq_some hselect
            obtain ⟨args, hargs, rfl⟩ := Option.map_eq_some_iff.mp hfits
            refine (Command.meaning_eq_invalidStructure_iff t hargs).trans ?_
            constructor
            · intro harray
              exact .inr ⟨ws, rfl, .inr harray⟩
            · rintro (hnone | ⟨ws', hws, hnone | harray⟩)
              · cases hnone
              · cases hws
                rw [hnone c hc] at hargs
                cases hargs
              · cases hws
                exact harray

/-- A variable called `single` is introduced also if the table is tried backwards, although the
line starts like one that defines an array.  A line that gives an array a name for its size has
no structure. -/
theorem Command.singleLines_are_unambiguous :
    Op.ofCodeWith Command.all.reverse Names.empty
        [.name (ascii "undefine"), .name (ascii "single")] =
      .ok (.define 0, ⟨#[ascii "single"], #[], #[]⟩) ∧
    Op.ofCode Names.empty
        [.name (ascii "undefine"), .name (ascii "single"), .name (ascii "a"), .bracket .left,
          .name (ascii "n"), .bracket .right] =
      .error .invalidStructure := by
  obtain ⟨-, horder, hstructure⟩ := Command.table_is_unambiguous
  constructor
  · rw [horder _ Command.all.reverse_perm]
    decide +kernel
  · exact (hstructure _ _).mpr (.inr ⟨_, rfl, .inr ⟨ascii "a", ascii "n", rfl⟩⟩)

end Contrary
