import Contrary.Proofs.Phrase

/-!
# Templates are unambiguous

A line fits the template of one command at most, whatever names it holds: keywords may
be names as well, so `undefine single` introduces a variable called `single`.

**Folding.**  The tokens of words fold into these words (`Word.ofTokens?_tokens`), because
no word starts with a bracket.

**Clashes.**  Two templates clash if they have different lengths, or different keywords at
the same place.  No words fit two templates that clash (`Piece.clash_of_fits`), and any two
templates of commands do (`Command.clash_template`).

**Results.**
* `Command.select?_of_match?`: words that fit a template select its command.
* `Op.ofCode_of_match?`: so the meaning of a line is that of its command.
-/

namespace Contrary

/-- The tokens of words fold into these words. -/
theorem Word.ofTokens?_tokens
    (ws : List Word) :
    Word.ofTokens? (ws.flatMap Word.tokens) = some ws := by
  induction ws with
  | nil => rfl
  | cons w ws ih =>
      rw [List.flatMap_cons]
      cases w with
      | literal n => exact congrArg (Option.map (Word.literal n :: ·)) ih
      | element a i =>
          cases i with
          | name x => exact congrArg (Option.map (Word.element a (.name x) :: ·)) ih
          | literal n => exact congrArg (Option.map (Word.element a (.literal n) :: ·)) ih
      | name x =>
          -- the next token decides whether the name is an array
          cases ws with
          | nil => rfl
          | cons w' ws =>
              have hname := congrArg (Option.map (Word.name x :: ·)) ih
              cases w' with
              | name x' => exact hname
              | literal n => exact hname
              | element a i => exact hname

section Clash

/-- Whether two templates have different lengths or different keywords at a place. -/
def Piece.clash : List Piece → List Piece → Bool
  | [], [] => false
  | .fixed a :: ps, .fixed b :: qs => ascii a != ascii b || clash ps qs
  | _ :: ps, _ :: qs => clash ps qs
  | _, _ => true

/-- Whether a word may stand at the place of a piece. -/
def Piece.Fits : Piece → Word → Prop
  | .fixed keyword, w => w = .name (ascii keyword)
  | .slot s, w => s.accepts w = true

theorem Piece.fits_of_match?
    {ps : List Piece} {ws args : List Word}
    (h : Piece.match? ps ws = some args) :
    List.Forall₂ Piece.Fits ps ws := by
  fun_induction Piece.match? ps ws generalizing args with
  | case1 => exact .nil
  | case2 keyword ps ws ih => exact .cons rfl (ih h)
  | case3 => cases h
  | case4 s ps w ws hw ih =>
      obtain ⟨args', hargs, -⟩ := Option.map_eq_some_iff.mp h
      exact .cons hw (ih hargs)
  | case5 => cases h
  | case6 => cases h

/-- Templates that the same words fit do not clash. -/
theorem Piece.clash_of_fits
    {ps qs : List Piece} {ws : List Word}
    (hp : List.Forall₂ Piece.Fits ps ws)
    (hq : List.Forall₂ Piece.Fits qs ws) :
    Piece.clash ps qs = false := by
  induction hp generalizing qs with
  | nil =>
      cases hq
      rfl
  | @cons p w ps ws hw _ ih =>
      cases hq with
      | @cons q _ qs _ hw' hq =>
          have hrest := ih hq
          cases p with
          | slot s => exact hrest
          | fixed a =>
              cases q with
              | slot s => exact hrest
              | fixed b =>
                  have hsame : ascii a = ascii b := Word.name.inj (hw.symm.trans hw')
                  simp [Piece.clash, hsame, hrest]

theorem Command.mem_all
    (c : Command) :
    c ∈ Command.all := by
  cases c with
  | closeBlock c => cases c <;> decide
  | _ => decide

/-- The templates of two commands clash. -/
theorem Command.clash_template
    {c d : Command}
    (h : c ≠ d) :
    Piece.clash c.template d.template = true := by
  have hall : ∀ c ∈ Command.all, ∀ d ∈ Command.all,
      c = d ∨ Piece.clash c.template d.template = true := by
    decide +kernel
  exact (hall c c.mem_all d d.mem_all).resolve_left h

/-- The templates of two commands do not fit the same words. -/
theorem Command.eq_of_match?
    {c d : Command} {ws args args' : List Word}
    (hc : Piece.match? c.template ws = some args)
    (hd : Piece.match? d.template ws = some args') :
    c = d := by
  by_contra hne
  have hclash := Piece.clash_of_fits (Piece.fits_of_match? hc) (Piece.fits_of_match? hd)
  rw [Command.clash_template hne] at hclash
  cases hclash

/-- Words that fit a template select its command, wherever it stands among others. -/
theorem Command.select?_of_mem
    {c : Command} {commands : List Command} {ws args : List Word}
    (hc : c ∈ commands)
    (h : Piece.match? c.template ws = some args) :
    Command.select? commands ws = some (c, args) := by
  cases hselect : Command.select? commands ws with
  | none =>
      have hnone := List.findSome?_eq_none_iff.mp hselect c hc
      rw [h] at hnone
      cases hnone
  | some r =>
      obtain ⟨d, -, hd⟩ := List.exists_of_findSome?_eq_some hselect
      obtain ⟨args', hargs, rfl⟩ := Option.map_eq_some_iff.mp hd
      obtain rfl := Command.eq_of_match? h hargs
      rw [h] at hargs
      cases hargs
      rfl

/-- Words that fit a template select its command. -/
theorem Command.select?_of_match?
    {c : Command} {ws args : List Word}
    (h : Piece.match? c.template ws = some args) :
    Command.select? Command.all ws = some (c, args) :=
  Command.select?_of_mem c.mem_all h

end Clash

/-- The meaning of a line is that of the command whose template it fits. -/
theorem Op.ofCode_of_match?
    {c : Command} {ws args : List Word}
    (h : Piece.match? c.template ws = some args) (t : Names) :
    Op.ofCode t (ws.flatMap Word.tokens) = c.meaning t args := by
  unfold Op.ofCode Op.ofCodeWith
  simp only [Word.ofTokens?_tokens, Command.select?_of_match? h]

end Contrary
