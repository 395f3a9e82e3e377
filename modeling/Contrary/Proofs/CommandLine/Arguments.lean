import Contrary.CommandLine.Options
import Mathlib.Data.List.Basic
import Mathlib.Tactic.SplitIfs

/-!
# Arguments in any order

The arguments of a command come in groups: a switch, the name of the output after its flag,
or the name of the input.  The word after `-o` belongs to it even if it looks like a switch,
so it is the groups that may be put in another order, and not the words.

**One group.**  `Argument.follow` says what one group asks for on top of what was asked before.
Only a second input is refused (`readFrom_cons`).

**Two groups.**  Two groups that are followed one after the other can be followed in the other
order with the same result, unless both name an output (`Argument.follow_comm`).

**Switches.**  A switch that is on stays on, and turning it on once more does nothing
(`readFrom_repeated`).  Turning it on before its time is noticed only if the arguments fail
(`readFrom_early`).

**Results.**
* `arguments_in_any_order`: groups in another order, and switches that are repeated.
-/

namespace Contrary
namespace CommandLine

/-- The switches of a command. -/
inductive Switch where
  | verbose
  | dump
  | run
  | interactive
  deriving DecidableEq, Repr

namespace Switch

/-- The word for a switch. -/
def word : Switch → Bytes
  | .verbose => ascii "-v"
  | .dump => ascii "-p"
  | .run => ascii "-r"
  | .interactive => ascii "-i"

/-- Turns a switch on. -/
def turnOn (o : Options) : Switch → Options
  | .verbose => { o with verbose := true }
  | .dump => { o with dump := true }
  | .run => { o with run := true }
  | .interactive => { o with interactive := true }

theorem turnOn_turnOn
    (o : Options) (x : Switch) :
    x.turnOn (x.turnOn o) = x.turnOn o := by
  cases x <;> rfl

theorem turnOn_comm
    (o : Options) (x y : Switch) :
    x.turnOn (y.turnOn o) = y.turnOn (x.turnOn o) := by
  cases x <;> cases y <;> rfl

theorem input_turnOn
    (o : Options) (x : Switch) :
    (x.turnOn o).input = o.input := by
  cases x <;> rfl

end Switch

/-- A word that names an input: it is not empty, and starts with a dash only if it is a
dash. -/
def IsInput (name : Bytes) : Prop :=
  name ≠ [] ∧ (name.head? ≠ some '-'.toUInt8 ∨ name = ascii "-")

/-- A group of words that belong together. -/
inductive Argument where
  | switch (x : Switch)
  | output (file : Bytes)
  | input (name : Bytes) (h : IsInput name)

namespace Argument

/-- The words of a group. -/
def words : Argument → List Bytes
  | .switch x => [x.word]
  | .output file => [ascii "-o", file]
  | .input name _ => [name]

/-- Whether a group names the output. -/
def isOutput : Argument → Bool
  | .output _ => true
  | _ => false

/-- What a group asks for on top of what was asked before; the input is named once. -/
def follow (o : Options) : Argument → Except ArgumentError Options
  | .switch x => .ok (x.turnOn o)
  | .output file => .ok { o with output := file }
  | .input name _ =>
      if o.input.isEmpty then .ok { o with input := name } else .error (.unexpected name)

end Argument

/-- The words of groups, one after another. -/
def wordsOf (gs : List Argument) : List Bytes :=
  gs.flatMap Argument.words

section Groups

theorem isFlag_of_isInput
    {name : Bytes}
    (h : IsInput name) :
    Options.isFlag name = false := by
  rcases h with ⟨-, hhead | rfl⟩
  · have hne : (name.head? == some '-'.toUInt8) = false := beq_eq_false_iff_ne.mpr hhead
    rw [Options.isFlag, hne, Bool.and_false]
  · rfl

/-- A flag is not the name of an input. -/
theorem ne_of_isFlag
    {name : Bytes}
    (h : IsInput name) (word : Bytes)
    (hword : Options.isFlag word = true) :
    (name == word) = false := by
  rw [beq_eq_false_iff_ne]
  rintro rfl
  rw [isFlag_of_isInput h] at hword
  cases hword

theorem readFrom_input
    {name : Bytes}
    (h : IsInput name) (o : Options) (more : List Bytes) :
    o.readFrom (name :: more) =
      if o.input.isEmpty then ({ o with input := name } : Options).readFrom more
      else (o, some (.unexpected name)) := by
  have hhelp : [ascii "-h", ascii "-help", ascii "--help"].contains name = false := by
    simp only [List.contains_cons, List.contains_nil, ne_of_isFlag h (ascii "-h") rfl,
      ne_of_isFlag h (ascii "-help") rfl, ne_of_isFlag h (ascii "--help") rfl, Bool.or_false]
  rw [Options.readFrom.eq_def]
  simp only [ne_of_isFlag h (ascii "-o") rfl, ne_of_isFlag h (ascii "-v") rfl,
    ne_of_isFlag h (ascii "-p") rfl, ne_of_isFlag h (ascii "-r") rfl,
    ne_of_isFlag h (ascii "-i") rfl, hhelp, isFlag_of_isInput h, Bool.false_eq_true, if_false]
  cases o.input.isEmpty <;> rfl

/-- The groups are read one after another, up to the first that cannot be followed. -/
theorem readFrom_cons
    (o : Options) (g : Argument) (gs : List Argument) :
    o.readFrom (wordsOf (g :: gs)) =
      match g.follow o with
      | .ok o' => o'.readFrom (wordsOf gs)
      | .error e => (o, some e) := by
  cases g with
  | switch x =>
      change o.readFrom (x.word :: wordsOf gs) = (x.turnOn o).readFrom (wordsOf gs)
      rw [Options.readFrom.eq_def]
      cases x <;> rfl
  | output file =>
      change o.readFrom (ascii "-o" :: file :: wordsOf gs) = _
      rw [Options.readFrom.eq_def]
      rfl
  | input name h =>
      change o.readFrom (name :: wordsOf gs) = _
      rw [readFrom_input h, Argument.follow]
      cases o.input.isEmpty <;> rfl

/-- Groups that are read without a fault: the first can be followed, and the others after it. -/
theorem readFrom_cons_eq_none_iff
    {o o' : Options} {g : Argument} {gs : List Argument} :
    o.readFrom (wordsOf (g :: gs)) = (o', none) ↔
      ∃ o₁, g.follow o = .ok o₁ ∧ o₁.readFrom (wordsOf gs) = (o', none) := by
  rw [readFrom_cons]
  cases g.follow o with
  | error e => simp
  | ok o₁ => simp

end Groups

section Order

/-- A switch makes no difference to whether a group can be followed, and is still on after
it. -/
theorem Argument.follow_turnOn
    (o : Options) (x : Switch) (g : Argument) :
    g.follow (x.turnOn o) = (g.follow o).map fun o' => x.turnOn o' := by
  cases g with
  | switch y => exact congrArg Except.ok (Switch.turnOn_comm o y x)
  | output file => cases x <;> rfl
  | input name h =>
      rw [follow, follow, Switch.input_turnOn]
      split_ifs
      · cases x <;> rfl
      · rfl

/-- Two groups can be followed in either order, unless both name the output. -/
theorem Argument.follow_comm
    {o o₁ o₂ : Options} {g g' : Argument}
    (hone : (g.isOutput && g'.isOutput) = false)
    (h : g.follow o = .ok o₁)
    (h' : g'.follow o₁ = .ok o₂) :
    ∃ o₁', g'.follow o = .ok o₁' ∧ g.follow o₁' = .ok o₂ := by
  cases g with
  | switch x =>
      cases h
      rw [follow_turnOn] at h'
      cases hg' : g'.follow o with
      | error e =>
          rw [hg'] at h'
          cases h'
      | ok o₁' =>
          rw [hg'] at h'
          exact ⟨o₁', rfl, h'⟩
  | output file =>
      cases h
      cases g' with
      | switch y =>
          cases h'
          exact ⟨_, rfl, follow_turnOn o y _⟩
      | output file' => cases hone
      | input name hname =>
          rw [follow] at h' ⊢
          split_ifs at h' ⊢ with hempty
          cases h'
          exact ⟨_, rfl, rfl⟩
  | input name hname =>
      cases g' with
      | switch y =>
          cases h'
          exact ⟨_, rfl, by rw [follow_turnOn, h]; rfl⟩
      | output file =>
          cases h'
          rw [follow] at h
          split_ifs at h with hempty
          cases h
          exact ⟨_, rfl, if_pos hempty⟩
      | input name' hname' =>
          -- the second input is refused
          rw [follow] at h h'
          split_ifs at h with hempty
          cases h
          split_ifs at h' with hname''
          exact absurd (List.isEmpty_iff.mp hname'') hname.1

/-- Groups that are read without a fault are read with the same result in any order, if at
most one of them names the output. -/
theorem readFrom_perm
    {gs gs' : List Argument}
    (hperm : gs.Perm gs') :
    ∀ {o o' : Options}, gs.countP Argument.isOutput ≤ 1 →
      o.readFrom (wordsOf gs) = (o', none) →
      o.readFrom (wordsOf gs') = (o', none) := by
  induction hperm with
  | nil =>
      intro o o' _ h
      exact h
  | cons g _ ih =>
      intro o o' hone h
      obtain ⟨o₁, hg, hrest⟩ := readFrom_cons_eq_none_iff.mp h
      rw [List.countP_cons] at hone
      exact readFrom_cons_eq_none_iff.mpr ⟨o₁, hg, ih (by omega) hrest⟩
  | swap g' g gs =>
      intro o o' hone h
      obtain ⟨o₁, hg, hrest⟩ := readFrom_cons_eq_none_iff.mp h
      obtain ⟨o₂, hg', hrest⟩ := readFrom_cons_eq_none_iff.mp hrest
      have hboth : (g.isOutput && g'.isOutput) = false := by
        rw [List.countP_cons, List.countP_cons] at hone
        cases hout : g.isOutput with
        | false => rfl
        | true =>
            cases hout' : g'.isOutput with
            | false => rfl
            | true =>
                rw [hout, hout', if_pos rfl] at hone
                omega
      obtain ⟨o₁', hg', hg⟩ := Argument.follow_comm hboth hg hg'
      exact readFrom_cons_eq_none_iff.mpr
        ⟨o₁', hg', readFrom_cons_eq_none_iff.mpr ⟨o₂, hg, hrest⟩⟩
  | trans hperm _ ih ih' =>
      intro o o' hone h
      refine ih' ?_ (ih hone h)
      rwa [← hperm.countP_eq]

end Order

section Switches

variable {x : Switch}

/-- A switch that is on does nothing, wherever it stands. -/
theorem readFrom_on
    (r l : List Argument) :
    ∀ {o : Options}, x.turnOn o = o →
      o.readFrom (wordsOf (l ++ .switch x :: r)) = o.readFrom (wordsOf (l ++ r)) := by
  induction l with
  | nil =>
      intro o hon
      rw [List.nil_append, List.nil_append, readFrom_cons]
      exact congrArg (fun o' : Options => o'.readFrom (wordsOf r)) hon
  | cons g l ih =>
      intro o hon
      have hkeeps := Argument.follow_turnOn o x g
      rw [hon] at hkeeps
      rw [List.cons_append, List.cons_append, readFrom_cons, readFrom_cons]
      cases hg : g.follow o with
      | error e => rfl
      | ok o₁ =>
          rw [hg] at hkeeps
          exact ih (Except.ok.inj hkeeps).symm

/-- A switch that was given before does nothing. -/
theorem readFrom_repeated
    (r l : List Argument) :
    ∀ {o : Options}, .switch x ∈ l →
      o.readFrom (wordsOf (l ++ .switch x :: r)) = o.readFrom (wordsOf (l ++ r)) := by
  induction l with
  | nil =>
      intro o hx
      cases hx
  | cons g l ih =>
      intro o hx
      rw [List.cons_append, List.cons_append, readFrom_cons, readFrom_cons]
      rcases List.mem_cons.mp hx with rfl | hx
      · exact readFrom_on r l (Switch.turnOn_turnOn o x)
      · cases g.follow o with
        | error e => rfl
        | ok o₁ => exact ih hx

/-- A switch that is given later makes no difference before, unless the arguments fail, and
then they fail alike. -/
theorem readFrom_early
    (gs : List Argument) :
    ∀ {o : Options}, .switch x ∈ gs →
      ((x.turnOn o).readFrom (wordsOf gs)).2 = (o.readFrom (wordsOf gs)).2 ∧
        ((o.readFrom (wordsOf gs)).2 = none →
          (x.turnOn o).readFrom (wordsOf gs) = o.readFrom (wordsOf gs)) := by
  induction gs with
  | nil =>
      intro o hx
      cases hx
  | cons g gs ih =>
      intro o hx
      rw [readFrom_cons, readFrom_cons, Argument.follow_turnOn]
      rcases List.mem_cons.mp hx with rfl | hx
      · have honce : ((Argument.switch x).follow o).map (fun o' => x.turnOn o') =
            (Argument.switch x).follow o :=
          congrArg Except.ok (Switch.turnOn_turnOn o x)
        rw [honce]
        exact ⟨rfl, fun _ => rfl⟩
      · cases g.follow o with
        | error e => exact ⟨rfl, fun hnone => by cases hnone⟩
        | ok o₁ => exact ih hx

/-- A switch may stand among the groups before it is given. -/
theorem readFrom_inserted
    (r l : List Argument)
    (hx : .switch x ∈ r) :
    ∀ {o : Options},
      (o.readFrom (wordsOf (l ++ .switch x :: r))).2 = (o.readFrom (wordsOf (l ++ r))).2 ∧
        ((o.readFrom (wordsOf (l ++ r))).2 = none →
          o.readFrom (wordsOf (l ++ .switch x :: r)) = o.readFrom (wordsOf (l ++ r))) := by
  induction l with
  | nil =>
      intro o
      rw [List.nil_append, List.nil_append, readFrom_cons]
      exact readFrom_early r hx
  | cons g l ih =>
      intro o
      rw [List.cons_append, List.cons_append, readFrom_cons, readFrom_cons]
      cases g.follow o with
      | error e => exact ⟨rfl, fun _ => rfl⟩
      | ok o₁ => exact ih

end Switches

/-- **Arguments in any order.**  Groups that are read without a fault, of which at most one
names the output, are read with the same result in every order.  A switch that is given once
more does not change the outcome: the fault is the same, and without a fault so is all that is
asked for.  After the place where it was given before it changes nothing at all. -/
theorem arguments_in_any_order :
    (∀ (gs gs' : List Argument) (o : Options), gs.countP Argument.isOutput ≤ 1 →
      gs.Perm gs' →
      Options.read (wordsOf gs) = (o, none) →
      Options.read (wordsOf gs') = (o, none)) ∧
    (∀ (l r : List Argument) (x : Switch), .switch x ∈ l ++ r →
      (Options.read (wordsOf (l ++ .switch x :: r))).2 = (Options.read (wordsOf (l ++ r))).2 ∧
      ((Options.read (wordsOf (l ++ r))).2 = none →
        Options.read (wordsOf (l ++ .switch x :: r)) = Options.read (wordsOf (l ++ r)))) ∧
    ∀ (l r : List Argument) (x : Switch), .switch x ∈ l →
      Options.read (wordsOf (l ++ .switch x :: r)) = Options.read (wordsOf (l ++ r)) := by
  refine ⟨?_, ?_, ?_⟩
  · intro gs gs' o hone hperm h
    exact readFrom_perm hperm hone h
  · intro l r x hx
    rcases List.mem_append.mp hx with hx | hx
    · have hsame := readFrom_repeated r l (o := Options.default) hx
      exact ⟨congrArg Prod.snd hsame, fun _ => hsame⟩
    · exact readFrom_inserted r l hx
  · intro l r x hx
    exact readFrom_repeated r l hx

theorem isInput_dash :
    IsInput (ascii "-") :=
  ⟨by decide, Or.inr rfl⟩

/-- A command that runs the program in a file whose name is a dash, with an output that looks
like a switch. -/
def awkward : List Argument :=
  [.input (ascii "-") isInput_dash, .output (ascii "-v"), .switch .run]

/-- What it asks for. -/
def awkwardOptions : Options :=
  ⟨ascii "-", ascii "-v", false, false, true, false⟩

/-- The groups of the command can be turned round, although its words cannot, and its switch
can be repeated at the front. -/
theorem awkward_in_any_order :
    Options.read (wordsOf awkward) = (awkwardOptions, none) ∧
    Options.read (wordsOf awkward.reverse) = (awkwardOptions, none) ∧
    Options.read (wordsOf awkward).reverse ≠ (awkwardOptions, none) ∧
    Options.read (wordsOf ([] ++ .switch .run :: awkward)) = (awkwardOptions, none) := by
  obtain ⟨hperm, hrepeat, -⟩ := arguments_in_any_order
  have hread : Options.read (wordsOf awkward) = (awkwardOptions, none) := by decide +kernel
  have hsame := (hrepeat [] awkward .run (by simp [awkward])).2 (congrArg Prod.snd hread)
  refine ⟨hread, ?_, by decide +kernel, hsame.trans hread⟩
  exact hperm awkward _ awkwardOptions (by decide) (List.reverse_perm _).symm hread

end CommandLine
end Contrary
