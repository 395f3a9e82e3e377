import Contrary.Machine.Run
import Contrary.Proofs.Source
import Contrary.Proofs.Target.Position

/-!
# Programs of a source run without a stray access

The machine indexes its tables by the handles of the program, by the positions
in its tables of blocks and of marks, and by the pinned flag.  For a program that
was read from a source none of these indexes is outside its table, in no state
that a run can reach.

**Before the start.**  `Machine.Linked` collects what the machine relies on:
sizes, handles, blocks and marks.  It holds of every machine that was loaded with
a program of a source (`linked_load`).  `Machine.Fitted` is the part that single
operations rely on, also of programs made by other means.

**States.**  `Machine.Sound` is the invariant: the tables have the sizes that the
names call for, the pinned flag is a flag, and the position is in the program or at
its end.  One step keeps it (`step_safe`), and so does every run (`runFor_safe`).

**Stops.**  `Halt.Lawful` says what a program can stop for.  A computation that
either gives a result with some property or stops so is described by `Gives`, and
checks, addresses and values are described once each.

**Results.**
* `run_safe`: every state of every run is sound, and every ending is lawful.
-/

namespace Contrary

section Stops

/-- A failure that says what it says: the array is declared with the size that is named,
and the index is outside of it. -/
def Failure.Lawful (names : Names) : Failure → Prop
  | .read _ => True
  | .outOfRange n array size =>
      ∃ d ∈ names.arrays.toList, array = d.name ∧ (size : Int) = d.size ∧
        ¬ (0 ≤ n.toInt ∧ n.toInt < d.size)

/-- A reason to stop at a line: no stray handle, and no failure of another line. -/
def Halt.Lawful (names : Names) (l : OpLine) : Halt → Prop
  | .abort _ => True
  | .failure line text cause => line = l.line ∧ text = l.text ∧ cause.Lawful names
  | .stray => False

/-- An ending of a run of a program: if it stops, it aborts or fails at one of its lines. -/
def Ending.Lawful (p : Program) : Ending → Prop
  | .finished => True
  | .stepLimit => True
  | .halted (.abort _) => True
  | .halted h => ∃ l ∈ p.ops.toList, h.Lawful p.names l

/-- The computation gives a result with a property, or stops for a lawful reason. -/
def Gives {α : Type} (names : Names) (l : OpLine) (P : α → Prop) : Except Halt α → Prop
  | .ok a => P a
  | .error h => h.Lawful names l

theorem Gives.bind
    {names : Names} {l : OpLine} {α β : Type} {P : α → Prop} {Q : β → Prop}
    {x : Except Halt α} {f : α → Except Halt β}
    (hx : Gives names l P x)
    (hf : ∀ a, P a → Gives names l Q (f a)) :
    Gives names l Q (x >>= f) := by
  cases x with
  | error h => exact hx
  | ok a => exact hf a hx

end Stops

section Sizes

/-- The sizes of the tables that the names of a program call for. -/
def Names.sizes (t : Names) : Nat × Array Int × Nat :=
  (t.vars.size, t.arrays.map ArrayDecl.size, t.flags.size)

namespace State

/-- The sizes of the tables of a state: variables, the cells of each array, flags. -/
def sizes (s : State) : Nat × Array Int × Nat :=
  (s.vars.size, s.arrays.map fun b => (b.cells.size : Int), s.flags.size)

/-- What a change of stored numbers and liveness leaves as it is. -/
def frame (s : State) : (Nat × Array Int × Nat) × Option Nat × Nat :=
  (s.sizes, s.pinned, s.pc)

end State

/-- An address within the tables of a state. -/
def Address.Within (s : State) : Address → Prop
  | .var v => v < s.vars.size
  | .cell a i => ∃ b, s.arrays[a]? = some b ∧ i < b.cells.size

/-- A change of one entry does not show in a view that it keeps. -/
theorem map_modify_of_eq
    {α β : Type} (xs : Array α) (i : Nat) {f : α → α} {g : α → β}
    (h : ∀ x, g (f x) = g x) :
    (xs.modify i f).map g = xs.map g := by
  refine Array.ext_getElem? ?_
  intro j
  simp only [Array.getElem?_map, Array.getElem?_modify]
  split_ifs
  · cases xs[j]? <;> simp [h]
  · rfl

variable {s : State}

theorem State.frame_modify
    (s : State) (f : Int32 → Int32) (q : Address) :
    (s.modify f q).frame = s.frame := by
  cases q with
  | var v => simp [State.modify, State.frame, State.sizes]
  | cell a i =>
      have hsizes := map_modify_of_eq s.arrays a
        (f := fun b => { b with cells := b.cells.modify i f })
        (g := fun b => (b.cells.size : Int)) (by simp)
      simp [State.modify, State.frame, State.sizes, hsizes]

theorem State.frame_shift
    (s : State) (d : Int32) (q : Address) :
    (s.shift d q).frame = s.frame :=
  State.frame_modify _ _ q

theorem State.frame_move
    (s : State) (names : Names) (l : OpLine) (direction : Int32 → Int32) (v : Operand)
    (target : Place) :
    (s.move names l direction v target).1.frame = s.frame := by
  unfold State.move
  dsimp only
  split
  · rfl
  · exact s.frame_shift _ _
  · split
    · exact s.frame_shift _ _
    · rw [State.frame_modify, State.frame_shift]

end Sizes

namespace State

variable {names : Names} {s : State} {l : OpLine}

/-- The cell that is found for a place is in the tables. -/
theorem within_of_address
    {p : Place} {q : Address}
    (h : s.address names l p = .ok q) :
    q.Within s := by
  cases p with
  | var v =>
      simp only [address] at h
      split_ifs at h with hv
      cases h
      exact hv
  | element a i =>
      obtain ⟨n, -, h⟩ := bind_eq_ok_iff.mp h
      split at h
      · cases h
      · rename_i b hb
        split_ifs at h with hn
        cases h
        exact ⟨b, hb, by omega⟩

variable (hsizes : s.sizes = names.sizes)
include hsizes

section Tables

theorem var_lt
    {v : Nat}
    (h : v < (names.table .variable).length) :
    v < s.vars.size := by
  have hvars : s.vars.size = names.vars.size := congrArg Prod.fst hsizes
  rw [hvars]
  simpa [Names.table] using h

theorem flag_lt
    {f : Nat}
    (h : f < (names.table .flag).length) :
    f < s.flags.size := by
  have hflags : s.flags.size = names.flags.size := congrArg (·.2.2) hsizes
  rw [hflags]
  simpa [Names.table] using h

/-- An array of a state has the cells that its declaration calls for. -/
theorem array_of_lt
    {a : Nat}
    (h : a < (names.table .array).length) :
    ∃ b d, s.arrays[a]? = some b ∧ names.arrays[a]? = some d ∧ (b.cells.size : Int) = d.size := by
  have harrays : s.arrays.map (fun b => (b.cells.size : Int)) = names.arrays.map ArrayDecl.size :=
    congrArg (·.2.1) hsizes
  have hlt : a < names.arrays.size := by simpa [Names.table] using h
  have hentry := congrArg (·[a]?) harrays
  simp only [Array.getElem?_map, Array.getElem?_eq_getElem hlt, Option.map_some,
    Option.map_eq_some_iff] at hentry
  obtain ⟨b, hb, hsize⟩ := hentry
  exact ⟨b, _, hb, Array.getElem?_eq_getElem hlt, hsize⟩

theorem array_lt
    {a : Nat}
    (h : a < (names.table .array).length) :
    a < s.arrays.size := by
  obtain ⟨b, -, hb, -⟩ := array_of_lt hsizes h
  exact (Array.getElem?_eq_some_iff.mp hb).1

end Tables

section Access

theorem gives_requireVar
    {v : Nat}
    (h : v < (names.table .variable).length) :
    Gives names l (fun _ => True) (s.requireVar v) := by
  unfold requireVar
  rw [Array.getElem?_eq_getElem (var_lt hsizes h)]
  dsimp only
  split_ifs <;> trivial

theorem gives_requireIndex
    {i : Index}
    (h : names.Covers i.mentions) :
    Gives names l (fun _ => True) (s.requireIndex i) := by
  cases i with
  | literal n => trivial
  | var v => exact gives_requireVar hsizes (h .variable v (by simp [Index.mentions, NameKind.only]))

theorem gives_requirePlace
    {p : Place}
    (h : names.Covers p.mentions) :
    Gives names l (fun _ => True) (s.requirePlace p) := by
  cases p with
  | var v => exact gives_requireVar hsizes (h .variable v (by simp [Place.mentions, NameKind.only]))
  | element a i =>
      obtain ⟨harray, hindex⟩ := Names.covers_append.mp h
      obtain ⟨b, -, hb, -⟩ := array_of_lt hsizes (harray .array a (by simp [NameKind.only]))
      refine (gives_requireIndex hsizes hindex).bind ?_
      intro _ _
      rw [hb]
      dsimp only
      split_ifs <;> trivial

theorem gives_indexValue
    {i : Index}
    (h : names.Covers i.mentions) :
    Gives names l (fun _ => True) (s.indexValue i) := by
  cases i with
  | literal n => trivial
  | var v =>
      have hv := var_lt hsizes (h .variable v (by simp [Index.mentions, NameKind.only]))
      simp only [indexValue, Array.getElem?_eq_getElem hv]
      trivial

/-- The cell of a place is found, or the index that is blamed is out of range. -/
theorem gives_address
    {p : Place}
    (h : names.Covers p.mentions) :
    Gives names l (fun _ => True) (s.address names l p) := by
  cases p with
  | var v =>
      have hv := var_lt hsizes (h .variable v (by simp [Place.mentions, NameKind.only]))
      simp only [address, if_pos hv]
      trivial
  | element a i =>
      obtain ⟨harray, hindex⟩ := Names.covers_append.mp h
      obtain ⟨b, d, hb, hd, hsize⟩ := array_of_lt hsizes (harray .array a (by simp [NameKind.only]))
      refine (gives_indexValue hsizes hindex).bind ?_
      intro n _
      rw [hb]
      dsimp only
      split_ifs with hn
      · trivial
      · have hname : (names.arrayDecl a).name = d.name := by
          simp [Names.arrayDecl, Array.getD_eq_getD_getElem?, hd]
        exact ⟨rfl, rfl, d, List.mem_of_getElem? (by simpa using hd), hname, hsize, by omega⟩

theorem gives_value
    {v : Operand}
    (h : names.Covers v.mentions) :
    Gives names l (fun _ => True) (s.value names l v) := by
  cases v with
  | literal n => trivial
  | stored p =>
      refine (gives_requirePlace hsizes h).bind ?_
      intro _ _
      refine (gives_address hsizes h).bind ?_
      intro _ _
      trivial

end Access

section Effects

theorem gives_define
    {v : Nat}
    (h : v < (names.table .variable).length) :
    Gives names l (fun s' => s'.frame = s.frame) (s.define v) := by
  unfold define
  rw [if_pos (var_lt hsizes h)]
  simp [Gives, frame, sizes]

theorem gives_undefine
    {v : Nat}
    (h : v < (names.table .variable).length) :
    Gives names l (fun s' => s'.frame = s.frame) (s.undefine v) := by
  unfold undefine
  rw [if_pos (var_lt hsizes h)]
  simp [Gives, frame, sizes]

theorem gives_defineArray
    {a : Nat}
    (h : a < (names.table .array).length) :
    Gives names l (fun s' => s'.frame = s.frame) (s.defineArray a) := by
  have hmap := map_modify_of_eq s.arrays a
    (f := fun b => ⟨b.cells.map fun _ => -s.offset, true⟩)
    (g := fun b => (b.cells.size : Int)) (by simp)
  unfold defineArray
  rw [if_pos (array_lt hsizes h)]
  simp [Gives, frame, sizes, hmap]

theorem gives_undefineArray
    {a : Nat}
    (h : a < (names.table .array).length) :
    Gives names l (fun s' => s'.frame = s.frame) (s.undefineArray a) := by
  have hmap := map_modify_of_eq s.arrays a
    (f := fun b => { b with live := false })
    (g := fun b => (b.cells.size : Int)) (by simp)
  unfold undefineArray
  rw [if_pos (array_lt hsizes h)]
  simp [Gives, frame, sizes, hmap]

theorem gives_unmark
    {f : Nat}
    (h : f < (names.table .flag).length) :
    Gives names l (fun s' => s'.frame = s.frame) (s.unmark f) := by
  unfold unmark
  rw [if_pos (flag_lt hsizes h)]
  simp [Gives, frame, sizes]

theorem gives_pin
    {f : Nat}
    (h : f < (names.table .flag).length) :
    Gives names l (fun s' => s' = { s with pinned := some f }) (s.pin f) := by
  have hf := flag_lt hsizes h
  unfold pin
  rw [Array.getElem?_eq_getElem hf]
  cases s.flags[f] with
  | true => rfl
  | false => trivial

theorem gives_receive
    {target : Place}
    (h : names.Covers target.mentions) (n : Int32) :
    Gives names l (fun s' => s'.frame = s.frame) (s.receive names l target n) := by
  refine (gives_address hsizes h).bind ?_
  intro q _
  exact frame_modify _ _ q

/-- A move stops, if it does, for a lawful reason. -/
theorem lawful_move
    (direction : Int32 → Int32) {v : Operand} {target : Place}
    (hv : names.Covers v.mentions)
    (htarget : names.Covers target.mentions)
    {h : Halt}
    (hh : (s.move names l direction v target).2 = some h) :
    h.Lawful names l := by
  have hfound : Gives names l (fun _ => True) (do
      let n ← s.value names l v
      s.requirePlace target
      let q ← s.address names l target
      return (direction n, q)) := by
    refine (gives_value hsizes hv).bind fun _ _ => ?_
    refine (gives_requirePlace hsizes htarget).bind fun _ _ => ?_
    exact (gives_address hsizes htarget).bind fun _ _ => trivial
  unfold move at hh
  dsimp only at hh
  split at hh
  · rename_i e hstop
    rw [hstop] at hfound
    cases hh
    exact hfound
  · cases hh
  · rename_i d q p _
    -- the operand is found again in a state with the same tables
    have hshift : (s.shift d q).sizes = names.sizes :=
      (congrArg Prod.fst (s.frame_shift d q)).trans hsizes
    have hagain := gives_address (l := l) (p := p) hshift hv
    split at hh
    · rename_i e hstop
      rw [hstop] at hagain
      cases hh
      exact hagain
    · cases hh

end Effects

end State

namespace Machine

/-- The entry of a flag is `i`, and the operation there places it. -/
def Places (m : Machine) (f i : Nat) : Prop :=
  m.marks[f]? = some i ∧ ∃ l, m.program.ops[i]? = some l ∧ l.op = .mark f

/-- What a machine relies on before it starts. -/
structure Linked (m : Machine) : Prop where
  sized : ∀ d ∈ m.program.names.arrays.toList, 0 ≤ d.size
  covered : ∀ l ∈ m.program.ops.toList, m.program.names.Covers l.op.mentions
  closing : ∀ i (l : OpLine), m.program.ops[i]? = some l → l.op = .openBlock → ∃ j, m.Closes i j
  marks : ∀ f, f < m.program.names.flags.size → ∃ i, m.Places f i

/-- What the operations of a machine rely on.  A flag that no operation places has an entry
all the same. -/
structure Fitted (m : Machine) : Prop where
  covered : ∀ l ∈ m.program.ops.toList, m.program.names.Covers l.op.mentions
  closing : ∀ i (l : OpLine), m.program.ops[i]? = some l → l.op = .openBlock → ∃ j, m.Closes i j
  marks : ∀ f, f < m.program.names.flags.size →
    ∃ i, m.marks[f]? = some i ∧ i ≤ m.program.ops.size

theorem Linked.fitted
    {m : Machine}
    (hm : m.Linked) :
    m.Fitted where
  covered := hm.covered
  closing := hm.closing
  marks := by
    intro f hf
    obtain ⟨i, hentry, l, hl, -⟩ := hm.marks f hf
    exact ⟨i, hentry, Nat.le_of_lt (Array.getElem?_eq_some_iff.mp hl).1⟩

/-- The invariant of the states of a run. -/
structure Sound (m : Machine) (s : State) : Prop where
  sizes : s.sizes = m.program.names.sizes
  pinned : ∀ f, s.pinned = some f → f < m.program.names.flags.size
  pc : s.pc ≤ m.program.ops.size

/-- The outcome of a step at a line is a sound state, with a lawful reason if it stops. -/
def Safe {σ : Type} (m : Machine) (l : OpLine) (t : Step σ) : Prop :=
  m.Sound t.state ∧ ∀ h, t.halt = some h → h.Lawful m.program.names l

section Start

/-- A machine has the pairs of the operations of its program. -/
theorem load_eq_ok
    {p : Program} {m : Machine}
    (hm : Machine.load p = .ok m) :
    m.program = p ∧ Pairing.ofOps (p.ops.toList.map OpLine.op) = .ok m.closing := by
  obtain ⟨t, ht, rfl⟩ := map_eq_ok_iff.mp hm
  exact ⟨rfl, ht⟩

/-- A machine that was loaded with a program of a source is linked. -/
theorem linked_load
    {source : Bytes} {p : Program} {m : Machine}
    (hp : Program.ofSource source = .ok p)
    (hm : Machine.load p = .ok m) :
    m.program = p ∧ m.Linked := by
  obtain ⟨lines, hread, hsizes, -⟩ := Program.readFrom_ofSource hp
  cases hn : Nesting.ofOps p.lineCount p.ops.toList with
  | error e =>
      obtain ⟨j, -, -, -, hpairs⟩ := ofOps_of_nesting_error hn
      unfold Machine.load at hm
      rw [hpairs] at hm
      cases hm
  | ok n =>
      obtain ⟨m', hm', rfl, hmarks, hlies, hend⟩ := resumes_load hn
      rw [hm] at hm'
      cases hm'
      have hwidth : 0 + n.width = m.program.ops.size := hend
      refine ⟨rfl, hsizes, hread.covered, ?_, ?_⟩
      · intro i l hl hop
        have hlt := (Array.getElem?_eq_some_iff.mp hl).1
        exact hlies.closing i l (by omega) (by omega) hl hop
      · intro f hf
        have hsize : f < m.marks.size := by rwa [hmarks, size_placeFlags]
        obtain ⟨i, hentry⟩ : ∃ i, m.marks[f]? = some i := ⟨_, Array.getElem?_eq_getElem hsize⟩
        exact ⟨i, hentry, mark_of_placeFlags hread (hmarks ▸ hentry)⟩

theorem sound_start
    {m : Machine}
    (hsized : ∀ d ∈ m.program.names.arrays.toList, 0 ≤ d.size) :
    m.Sound m.start where
  sizes := by
    have harrays : m.program.names.arrays.map (fun d => ((d.size.toNat : Nat) : Int)) =
        m.program.names.arrays.map ArrayDecl.size := by
      refine Array.map_congr_left ?_
      intro d hd
      exact Int.toNat_of_nonneg (hsized d (Array.mem_toList_iff.mpr hd))
    simpa [start, State.sizes, Names.sizes, Function.comp_def] using harrays
  pinned := by
    intro f hf
    cases hf
  pc := Nat.zero_le _

end Start

section Steps

variable {σ : Type} {m : Machine} {s : State} {input : σ} {l : OpLine}

theorem Sound.of_frame
    {s' : State}
    (hs : m.Sound s)
    (h : s'.frame = s.frame) :
    m.Sound s' := by
  simp only [State.frame, Prod.mk.injEq] at h
  obtain ⟨hsizes, hpinned, hpc⟩ := h
  exact ⟨hsizes.trans hs.sizes, by rw [hpinned]; exact hs.pinned, by rw [hpc]; exact hs.pc⟩

theorem safe_ofState
    {P : State → Prop} {x : Except Halt State}
    (hs : m.Sound s)
    (hx : Gives m.program.names l P x)
    (hP : ∀ s', P s' → m.Sound s') :
    m.Safe l (Step.ofState s input x) := by
  cases x with
  | ok s' => exact ⟨hP s' hx, by simp [Step.ofState, Step.next]⟩
  | error h =>
      refine ⟨hs, ?_⟩
      intro h' hh'
      cases hh'
      exact hx

theorem safe_writing
    {P : Int32 → Prop} {x : Except Halt Int32} {render : Int32 → Bytes}
    (hs : m.Sound s)
    (hx : Gives m.program.names l P x) :
    m.Safe l (Step.writing s input render x) := by
  cases x with
  | ok n => exact ⟨hs, by simp [Step.writing]⟩
  | error h =>
      refine ⟨hs, ?_⟩
      intro h' hh'
      cases hh'
      exact hx

theorem safe_stop
    {h : Halt}
    (hs : m.Sound s)
    (hh : h.Lawful m.program.names l) :
    m.Safe l (Step.stop s input h) := by
  refine ⟨hs, ?_⟩
  intro h' hh'
  cases hh'
  exact hh

/-- A jump goes to the operation that places the pinned flag. -/
theorem jump_of_pinned
    (hm : m.Linked)
    (hs : m.Sound s)
    {f : Nat}
    (hf : s.pinned = some f) :
    ∃ i, m.Places f i ∧ s.jump m.marks = .ok { s with pc := i } := by
  obtain ⟨i, hplaces⟩ := hm.marks f (hs.pinned f hf)
  exact ⟨i, hplaces, by simp [State.jump, hf, hplaces.1]⟩

variable (hm : m.Fitted)
include hm

/-- A block is entered, or the run goes on after the operation that closes it. -/
theorem gives_branch
    {i : Nat}
    (hs : m.Sound s)
    (hl : m.program.ops[i]? = some l)
    (hop : l.op = .openBlock) :
    Gives m.program.names l m.Sound (m.branch l i s) := by
  obtain ⟨j, hcloses⟩ := hm.closing i l hl hop
  obtain ⟨o, a, b, c, ho, hclose, hcond⟩ := condition?_of_closes hcloses
  have hcovered := hm.covered o (List.mem_of_getElem? (by simpa using ho))
  rw [hclose] at hcovered
  obtain ⟨ha, hb⟩ := Names.covers_append.mp hcovered
  unfold branch
  rw [hcond]
  refine (State.gives_value hs.sizes ha).bind fun x _ => ?_
  refine (State.gives_value hs.sizes hb).bind fun y _ => ?_
  by_cases hholds : c.holds x y = true
  · rw [if_pos hholds]
    exact hs
  · have hlt := (Array.getElem?_eq_some_iff.mp ho).1
    rw [if_neg hholds]
    exact ⟨hs.sizes, hs.pinned, hlt⟩

/-- The run goes on at the entry of the pinned flag. -/
theorem gives_jump
    (hs : m.Sound s) :
    Gives m.program.names l m.Sound (s.jump m.marks) := by
  cases hf : s.pinned with
  | none =>
      unfold State.jump
      rw [hf]
      trivial
  | some f =>
      obtain ⟨i, hentry, hle⟩ := hm.marks f (hs.pinned f hf)
      have hjump : s.jump m.marks = .ok { s with pc := i } := by simp [State.jump, hf, hentry]
      rw [hjump]
      exact ⟨hs.sizes, hs.pinned, hle⟩

variable [NumberSource σ]

/-- Every operation of the program is safe in a sound state. -/
theorem exec_safe
    {i : Nat}
    (hs : m.Sound s)
    (hl : m.program.ops[i]? = some l) :
    m.Safe l (m.exec l i s input) := by
  have hcovered := hm.covered l (List.mem_of_getElem? (by simpa using hl))
  have hframe : ∀ s' : State, s'.frame = s.frame → m.Sound s' := fun _ => hs.of_frame
  unfold exec
  generalize hop : l.op = op at hcovered ⊢
  cases op with
  | define v =>
      exact safe_ofState hs (State.gives_define hs.sizes (Names.lt_of_covers_only hcovered)) hframe
  | defineArray a =>
      exact safe_ofState hs (State.gives_defineArray hs.sizes (Names.lt_of_covers_only hcovered)) hframe
  | undefine v =>
      exact safe_ofState hs (State.gives_undefine hs.sizes (Names.lt_of_covers_only hcovered)) hframe
  | undefineArray a =>
      exact safe_ofState hs (State.gives_undefineArray hs.sizes (Names.lt_of_covers_only hcovered)) hframe
  | read target =>
      have hrequire := State.gives_requirePlace (l := l) (p := target) hs.sizes hcovered
      dsimp only
      split
      · rename_i h hstop
        rw [hstop] at hrequire
        exact safe_stop hs hrequire
      · split
        · exact safe_stop hs ⟨rfl, rfl, trivial⟩
        · exact safe_ofState hs (State.gives_receive hs.sizes hcovered _) hframe
  | print v => exact safe_writing hs (State.gives_value hs.sizes hcovered)
  | printChar v => exact safe_writing hs (State.gives_value hs.sizes hcovered)
  | add v target =>
      obtain ⟨hv, htarget⟩ := Names.covers_append.mp hcovered
      exact ⟨hs.of_frame (s.frame_move _ _ _ _ _),
        fun h hh => State.lawful_move hs.sizes id hv htarget hh⟩
  | subtract v target =>
      obtain ⟨hv, htarget⟩ := Names.covers_append.mp hcovered
      exact ⟨hs.of_frame (s.frame_move _ _ _ _ _),
        fun h hh => State.lawful_move hs.sizes (- ·) hv htarget hh⟩
  | openBlock => exact safe_ofState hs (gives_branch hm hs hl hop) fun _ h => h
  | closeBlock a b c => exact ⟨hs, by simp [Step.next]⟩
  | mark f => exact ⟨hs, by simp [Step.next]⟩
  | unmark f =>
      exact safe_ofState hs (State.gives_unmark hs.sizes (Names.lt_of_covers_only hcovered)) hframe
  | pin f =>
      have hf : f < (m.program.names.table .flag).length := Names.lt_of_covers_only hcovered
      refine safe_ofState hs (State.gives_pin hs.sizes hf) ?_
      rintro s' rfl
      refine ⟨hs.sizes, ?_, hs.pc⟩
      intro g hg
      cases hg
      simpa [Names.table] using hf
  | goto => exact safe_ofState hs (gives_jump hm hs) fun _ h => h

/-- One step of a run leads to a sound state, and stops, if it does, for a lawful reason at
a line of the program. -/
theorem step_safe
    (hs : m.Sound s) (input : σ) :
    m.Sound (m.step s input).state ∧
      ∀ h, (m.step s input).halt = some h →
        ∃ l ∈ m.program.ops.toList, h.Lawful m.program.names l := by
  unfold step
  cases hl : m.program.ops[s.pc]? with
  | none => exact ⟨hs, by simp [Step.next]⟩
  | some l =>
      have hlt := (Array.getElem?_eq_some_iff.mp hl).1
      have hnext : m.Sound { s with pc := s.pc + 1 } := ⟨hs.sizes, hs.pinned, hlt⟩
      obtain ⟨hsound, hlawful⟩ : m.Safe l (m.exec l s.pc { s with pc := s.pc + 1 } input) :=
        exec_safe hm hnext hl
      exact ⟨hsound, fun h hh => ⟨l, List.mem_of_getElem? (by simpa using hl), hlawful h hh⟩⟩

end Steps

section Runs

variable {σ : Type} {m : Machine}

theorem finish_safe
    {r : Run σ}
    (hs : m.Sound r.state) :
    m.Sound (m.finish r).1.state ∧ (m.finish r).2.Lawful m.program := by
  unfold finish finalHalt?
  cases m.leaked? r.state with
  | none => exact ⟨hs, trivial⟩
  | some name => exact ⟨hs, trivial⟩

/-- A run that starts in a sound state reaches sound states only, and ends lawfully. -/
theorem runFor_safe [NumberSource σ]
    (hm : m.Fitted) (limit : Nat) :
    ∀ r : Run σ, m.Sound r.state →
      m.Sound (m.runFor limit r).1.state ∧ (m.runFor limit r).2.Lawful m.program := by
  induction limit with
  | zero =>
      intro r hs
      unfold runFor
      split_ifs
      · exact finish_safe hs
      · exact ⟨hs, trivial⟩
  | succ limit ih =>
      intro r hs
      obtain ⟨hsound, hlawful⟩ := step_safe hm hs r.input
      unfold runFor
      split_ifs
      · exact finish_safe hs
      · split
        · rename_i r' h hadvance
          obtain ⟨rfl, hhalt⟩ := Prod.mk.inj hadvance
          refine ⟨hsound, ?_⟩
          cases h with
          | abort cause => trivial
          | failure line text cause => exact hlawful _ hhalt
          | stray => exact hlawful _ hhalt
        · rename_i r' hadvance
          obtain ⟨rfl, -⟩ := Prod.mk.inj hadvance
          exact ih _ hsound

/-- Every state of every run is sound, and every ending is lawful. -/
theorem run_sound [NumberSource σ]
    (hm : m.Linked) (limit : Nat) (input : σ) :
    m.Sound (m.run limit input).1.state ∧ (m.run limit input).2.Lawful m.program :=
  runFor_safe hm.fitted limit _ (sound_start hm.sized)

/-- **A program of a source runs without a stray access.**  Before the start, no array has
a negative size, every handle is in its table, every block has an entry that leads to
the operation that closes it, and every flag one that leads to the operation that places
it.  After any number of steps, the tables of the state have the sizes that the names
call for, the pinned flag is a flag and the position is in the program or at its end; a
cell that is found for a place is in the tables; and a jump lands where the pinned flag
is placed.  A run finishes, aborts, reaches its limit, or fails because no number could be
read or because an index is outside its array. -/
theorem run_safe [NumberSource σ]
    {source : Bytes} {p : Program}
    (hp : Program.ofSource source = .ok p)
    (hm : Machine.load p = .ok m) :
    m.program = p ∧ m.Linked ∧
    ∀ (limit : Nat) (input : σ),
      let r := (m.run limit input).1
      let ending := (m.run limit input).2
      m.Sound r.state ∧
      (∀ l place q, r.state.address p.names l place = .ok q → q.Within r.state) ∧
      (∀ (f : Nat) (l : OpLine), r.state.pinned = some f → p.ops[r.state.pc]? = some l →
        l.op = .goto →
        ∃ i, m.Places f i ∧ m.step r.state r.input = Step.next { r.state with pc := i } r.input) ∧
      (ending = .finished ∨ ending = .stepLimit ∨ (∃ cause, ending = .halted (.abort cause)) ∨
        ∃ l ∈ p.ops.toList, (∃ cause, ending = .halted (.failure l.line l.text (.read cause))) ∨
          ∃ n, ∃ d ∈ p.names.arrays.toList,
            ending = .halted (.failure l.line l.text (.outOfRange n d.name d.size.toNat)) ∧
            ¬ (0 ≤ n.toInt ∧ n.toInt < d.size)) := by
  obtain ⟨rfl, hlinked⟩ := linked_load hp hm
  refine ⟨rfl, hlinked, ?_⟩
  intro limit input r ending
  obtain ⟨hsound, hlawful⟩ := run_sound hlinked limit input
  refine ⟨hsound, fun _ _ _ => State.within_of_address, ?_, ?_⟩
  · intro f l hf hl hop
    -- the position moves on before the jump, which then overrides it
    obtain ⟨i, hplaces, hjump⟩ := jump_of_pinned hlinked
      (s := { r.state with pc := r.state.pc + 1 })
      ⟨hsound.sizes, hsound.pinned, (Array.getElem?_eq_some_iff.mp hl).1⟩ hf
    refine ⟨i, hplaces, ?_⟩
    unfold step
    rw [hl]
    dsimp only
    unfold exec
    rw [hop]
    dsimp only
    rw [hjump]
    rfl
  · change ending.Lawful m.program at hlawful
    cases hending : ending with
    | finished => exact Or.inl rfl
    | stepLimit => exact Or.inr (Or.inl rfl)
    | halted h =>
        rw [hending] at hlawful
        cases h with
        | abort cause => exact Or.inr (Or.inr (Or.inl ⟨cause, rfl⟩))
        | stray =>
            obtain ⟨_, _, hstray⟩ := hlawful
            exact hstray.elim
        | failure line text cause =>
            obtain ⟨l, hl, rfl, rfl, hcause⟩ := hlawful
            refine Or.inr (Or.inr (Or.inr ⟨l, hl, ?_⟩))
            cases cause with
            | read cause => exact Or.inl ⟨cause, rfl⟩
            | outOfRange n array size =>
                obtain ⟨d, hd, rfl, hsize, hn⟩ := hcause
                have hcells : size = d.size.toNat := by omega
                exact Or.inr ⟨n, d, hd, by rw [hcells], hn⟩

/-- Reads indexes and shows the cells of an array of two, until it is given a 7. -/
def lookAround : Bytes :=
  Listing.join <|
    [ "mark L", "define single a", "define x", "if x equal to 7", "halt", "fi", "read to a[x]",
      "print x", "forget L", "unmark L", "undefine single a[2]", "undefine x" ].map ascii

/-- The program of these lines. -/
def ofLookAround : Program where
  names := ⟨#[ascii "x"], #[⟨ascii "a", 2⟩], #[ascii "L"]⟩
  ops :=
    #[ ⟨.define 0, 1, ascii "undefine x"⟩,
      ⟨.defineArray 0, 2, ascii "undefine single a[2]"⟩,
      ⟨.mark 0, 3, ascii "unmark L"⟩,
      ⟨.pin 0, 4, ascii "forget L"⟩,
      ⟨.read (.var 0), 5, ascii "print x"⟩,
      ⟨.print (.stored (.element 0 (.var 0))), 6, ascii "read to a[x]"⟩,
      ⟨.openBlock, 7, ascii "fi"⟩,
      ⟨.goto, 8, ascii "halt"⟩,
      ⟨.closeBlock (.stored (.var 0)) (.literal 7) .notEqual, 9, ascii "if x equal to 7"⟩,
      ⟨.undefine 0, 10, ascii "define x"⟩,
      ⟨.undefineArray 0, 11, ascii "define single a"⟩,
      ⟨.unmark 0, 12, ascii "mark L"⟩ ]
  lineCount := 12

/-- It jumps back once and then fails at an index that is out of range. -/
theorem lookAround_safe :
    Program.ofSource lookAround = .ok ofLookAround ∧
    ∃ m, Machine.load ofLookAround = .ok m ∧ m.Linked ∧
      m.Sound (m.run 20 (Scanner.mk (ascii "1 5"))).1.state ∧
      (m.run 20 (Scanner.mk (ascii "1 5"))).1.output = (ascii "0\n").toArray ∧
      (m.run 20 (Scanner.mk (ascii "1 5"))).2 =
        .halted (.failure 6 (ascii "read to a[x]") (.outOfRange 5 (ascii "a") 2)) := by
  have hp : Program.ofSource lookAround = .ok ofLookAround := by decide +kernel
  cases hm : Machine.load ofLookAround with
  | error e => cases hm
  | ok m =>
      obtain ⟨-, hlinked, hrun⟩ := run_safe (σ := Scanner) hp hm
      obtain ⟨hsound, -⟩ := hrun 20 (Scanner.mk (ascii "1 5"))
      have hends : (m.run 20 (Scanner.mk (ascii "1 5"))).1.output = (ascii "0\n").toArray ∧
          (m.run 20 (Scanner.mk (ascii "1 5"))).2 =
            .halted (.failure 6 (ascii "read to a[x]") (.outOfRange 5 (ascii "a") 2)) := by
        cases hm
        decide +kernel
      exact ⟨hp, m, rfl, hlinked, hsound, hends⟩

end Runs

end Machine

end Contrary
