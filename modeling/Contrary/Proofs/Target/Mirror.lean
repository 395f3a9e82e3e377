import Contrary.Machine.Step
import Contrary.Proofs.Names
import Contrary.Proofs.Target.Semantics
import Contrary.Target.OfProgram

/-!
# The memory of the generated C mirrors the machine

What a program declares is a set of items: the cell of each variable, the cells
of each array, and the liveness of each variable, array and flag.  Every item has
an identifier in the generated C and, in a state of the machine, an object.
Since names are distinct, so are the identifiers (`Item.ident_inj`).

**The relation.**  `Mirrors names s c` says that the process `c` holds the state
`s`: the offset, the pinned flag, and the object of every item, in a
file with the definitions that generated files have.  One lemma,
`Mirrors.put`, covers all changes of a single item.

**Accesses.**  Under this relation the checks, addresses and values of the machine
are those of the generated statements (`guards_check`, `pointer_of_address`,
`eval_of_value`), and so are its assignments (`Mirrors.assign`).
-/

namespace Contrary
namespace Target

/-- What a program declares in C. -/
inductive Item where
  | var (v : Nat)
  | varLive (v : Nat)
  | array (a : Nat)
  | arrayLive (a : Nat)
  | flagLive (f : Nat)
  deriving DecidableEq, Repr

namespace Item

def ident (names : Names) : Item → Ident
  | .var v => varCell (names.varName v)
  | .varLive v => liveness (varCell (names.varName v))
  | .array a => arrayCell (names.arrayDecl a).name
  | .arrayLive a => liveness (arrayCell (names.arrayDecl a).name)
  | .flagLive f => liveness (flagCell (names.flagName f))

def Declared (names : Names) : Item → Prop
  | .var v => v < names.vars.size
  | .varLive v => v < names.vars.size
  | .array a => a < names.arrays.size
  | .arrayLive a => a < names.arrays.size
  | .flagLive f => f < names.flags.size

def object? (s : State) : Item → Option Object
  | .var v => s.vars[v]?.map fun c => .int c.stored
  | .varLive v => s.vars[v]?.map fun c => .bool c.live
  | .array a => s.arrays[a]?.map fun b => .array b.cells
  | .arrayLive a => s.arrays[a]?.map fun b => .bool b.live
  | .flagLive f => s.flags[f]?.map .bool

/-- The identifiers of different items differ: their stems tell the kinds of items
apart, and the names after the stems tell the items of a kind apart. -/
theorem ident_inj
    {names : Names}
    (hd : names.all.Nodup)
    {it it' : Item}
    (h : it.Declared names)
    (h' : it'.Declared names)
    (heq : it.ident names = it'.ident names) :
    it = it' := by
  have hvar : ∀ {v w : Nat}, v < names.vars.size → w < names.vars.size →
      names.varName v = names.varName w → v = w := by
    intro v w hv hw hname
    have hw' := Names.table_varName hw
    rw [← hname] at hw'
    exact (Names.handle_unique hd (Names.table_varName hv) hw').2
  have harray : ∀ {a b : Nat}, a < names.arrays.size → b < names.arrays.size →
      (names.arrayDecl a).name = (names.arrayDecl b).name → a = b := by
    intro a b ha hb hname
    have hb' := Names.table_arrayDecl hb
    rw [← hname] at hb'
    exact (Names.handle_unique hd (Names.table_arrayDecl ha) hb').2
  have hflag : ∀ {f g : Nat}, f < names.flags.size → g < names.flags.size →
      names.flagName f = names.flagName g → f = g := by
    intro f g hf hg hname
    have hg' := Names.table_flagName hg
    rw [← hname] at hg'
    exact (Names.handle_unique hd (Names.table_flagName hf) hg').2
  cases it <;> cases it' <;>
    simp [ident, varCell, arrayCell, flagCell, liveness, ascii, Char.toUInt8] at heq
  · rw [hvar h h' heq]
  · rw [hvar h h' heq]
  · rw [harray h h' heq]
  · rw [harray h h' heq]
  · rw [hflag h h' heq]

end Item

/-- A state with the tables that the names of a program call for. -/
structure Fits (names : Names) (s : State) : Prop where
  vars : s.vars.size = names.vars.size
  arrays : s.arrays.size = names.arrays.size
  flags : s.flags.size = names.flags.size
  cells : ∀ a b, s.arrays[a]? = some b → b.cells.size = (names.arrayDecl a).size.toNat

theorem Fits.declared
    {names : Names} {s : State} {it : Item} {o : Object}
    (h : Fits names s)
    (ho : it.object? s = some o) :
    it.Declared names := by
  obtain ⟨hv, ha, hf, -⟩ := h
  cases it <;>
  · obtain ⟨x, hx, -⟩ := Option.map_eq_some_iff.mp ho
    have hlt := (Array.getElem?_eq_some_iff.mp hx).1
    simp only [Item.Declared]
    omega

/-- The state `s'` differs from `s` in one item only, which is now `o`. -/
structure Updates (names : Names) (s : State) (it : Item) (o : Object) (s' : State) : Prop where
  old : ∃ o', it.object? s = some o'
  new : it.object? s' = some o
  other : ∀ it' ≠ it, it'.object? s' = it'.object? s
  fits : Fits names s'
  offset : s'.offset = s.offset
  pinned : s'.pinned = s.pinned
  pc : s'.pc = s.pc

section Updates

variable {names : Names} {s : State}

/-- A change of one variable leaves all items but its cell and its liveness. -/
theorem object?_modify_vars
    {v : Nat} {g : Cell → Cell} {it : Item}
    (hcell : it ≠ .var v)
    (hlive : it ≠ .varLive v) :
    it.object? { s with vars := s.vars.modify v g } = it.object? s := by
  cases it with
  | var w =>
      have : v ≠ w := by
        rintro rfl
        exact hcell rfl
      simp [Item.object?, Array.getElem?_modify, this]
  | varLive w =>
      have : v ≠ w := by
        rintro rfl
        exact hlive rfl
      simp [Item.object?, Array.getElem?_modify, this]
  | _ => rfl

theorem object?_modify_arrays
    {a : Nat} {g : Bank → Bank} {it : Item}
    (hcells : it ≠ .array a)
    (hlive : it ≠ .arrayLive a) :
    it.object? { s with arrays := s.arrays.modify a g } = it.object? s := by
  cases it with
  | array w =>
      have : a ≠ w := by
        rintro rfl
        exact hcells rfl
      simp [Item.object?, Array.getElem?_modify, this]
  | arrayLive w =>
      have : a ≠ w := by
        rintro rfl
        exact hlive rfl
      simp [Item.object?, Array.getElem?_modify, this]
  | _ => rfl

variable (hfits : Fits names s)

include hfits

theorem updates_var
    {v : Nat} {c : Cell} {g : Cell → Cell}
    (hc : s.vars[v]? = some c)
    (hlive : (g c).live = c.live) :
    Updates names s (.var v) (.int (g c).stored) { s with vars := s.vars.modify v g } where
  old := ⟨.int c.stored, by simp [Item.object?, hc]⟩
  new := by simp [Item.object?, Array.getElem?_modify, hc]
  other := by
    intro it hne
    by_cases hit : it = .varLive v
    · simp [hit, Item.object?, Array.getElem?_modify, hc, hlive]
    · exact object?_modify_vars hne hit
  fits := { hfits with vars := by simpa using hfits.vars }
  offset := rfl
  pinned := rfl
  pc := rfl

theorem updates_varLive
    {v : Nat} {c : Cell} {g : Cell → Cell}
    (hc : s.vars[v]? = some c)
    (hstored : (g c).stored = c.stored) :
    Updates names s (.varLive v) (.bool (g c).live) { s with vars := s.vars.modify v g } where
  old := ⟨.bool c.live, by simp [Item.object?, hc]⟩
  new := by simp [Item.object?, Array.getElem?_modify, hc]
  other := by
    intro it hne
    by_cases hit : it = .var v
    · simp [hit, Item.object?, Array.getElem?_modify, hc, hstored]
    · exact object?_modify_vars hit hne
  fits := { hfits with vars := by simpa using hfits.vars }
  offset := rfl
  pinned := rfl
  pc := rfl

theorem fits_modify_arrays
    {a : Nat} {b : Bank} {g : Bank → Bank}
    (hb : s.arrays[a]? = some b)
    (hsize : (g b).cells.size = b.cells.size) :
    Fits names { s with arrays := s.arrays.modify a g } where
  vars := hfits.vars
  arrays := by simpa using hfits.arrays
  flags := hfits.flags
  cells := by
    intro a' b' hb'
    simp only [Array.getElem?_modify] at hb'
    split_ifs at hb' with ha
    · subst ha
      rw [hb] at hb'
      cases hb'
      rw [hsize]
      exact hfits.cells _ _ hb
    · exact hfits.cells _ _ hb'

theorem updates_array
    {a : Nat} {b : Bank} {g : Bank → Bank}
    (hb : s.arrays[a]? = some b)
    (hlive : (g b).live = b.live)
    (hsize : (g b).cells.size = b.cells.size) :
    Updates names s (.array a) (.array (g b).cells) { s with arrays := s.arrays.modify a g } where
  old := ⟨.array b.cells, by simp [Item.object?, hb]⟩
  new := by simp [Item.object?, Array.getElem?_modify, hb]
  other := by
    intro it hne
    by_cases hit : it = .arrayLive a
    · simp [hit, Item.object?, Array.getElem?_modify, hb, hlive]
    · exact object?_modify_arrays hne hit
  fits := fits_modify_arrays hfits hb hsize
  offset := rfl
  pinned := rfl
  pc := rfl

theorem updates_arrayLive
    {a : Nat} {b : Bank} {g : Bank → Bank}
    (hb : s.arrays[a]? = some b)
    (hcells : (g b).cells = b.cells) :
    Updates names s (.arrayLive a) (.bool (g b).live) { s with arrays := s.arrays.modify a g } where
  old := ⟨.bool b.live, by simp [Item.object?, hb]⟩
  new := by simp [Item.object?, Array.getElem?_modify, hb]
  other := by
    intro it hne
    by_cases hit : it = .array a
    · simp [hit, Item.object?, Array.getElem?_modify, hb, hcells]
    · exact object?_modify_arrays hit hne
  fits := fits_modify_arrays hfits hb (by rw [hcells])
  offset := rfl
  pinned := rfl
  pc := rfl

theorem updates_flagLive
    {f : Nat} {live : Bool}
    (hf : f < s.flags.size) :
    Updates names s (.flagLive f) (.bool live)
      { s with flags := s.flags.setIfInBounds f live } where
  old := ⟨.bool s.flags[f], by simp [Item.object?, hf]⟩
  new := by simp [Item.object?, hf]
  other := by
    intro it hne
    cases it with
    | flagLive g =>
        have : f ≠ g := by
          rintro rfl
          exact hne rfl
        simp [Item.object?, Array.getElem?_setIfInBounds_ne this]
    | _ => rfl
  fits := { hfits with flags := by simpa using hfits.flags }
  offset := rfl
  pinned := rfl
  pc := rfl

end Updates

theorem modify_eq_setIfInBounds
    {α : Type} {xs : Array α} {i : Nat}
    (h : i < xs.size) (f : α → α) :
    xs.modify i f = xs.setIfInBounds i (f xs[i]) := by
  refine Array.ext_getElem? ?_
  intro j
  by_cases hij : i = j
  · subst hij
    simp [h, Array.getElem_modify]
  · simp [Array.getElem?_modify, Array.getElem?_setIfInBounds_ne hij, hij]

/-- The process holds the state of the machine. -/
structure Mirrors {σ : Type} (names : Names) (s : State) (c : Process σ) : Prop where
  defs : c.defs = .generated
  distinct : names.all.Nodup
  fits : Fits names s
  global : c.global = s.offset
  label : c.label = s.pinned.map names.flagName
  memory : ∀ it o, Item.object? s it = some o → c.memory (it.ident names) = some o

section Mirrors

variable {σ : Type} {names : Names} {s s' : State} {c : Process σ} {it : Item}

/-- A change of one item is a change of what its identifier stands for. -/
theorem Mirrors.put
    {o : Object}
    (hm : Mirrors names s c)
    (hu : Updates names s it o s') :
    Mirrors names s' { c with memory := c.memory.put (it.ident names) o } where
  defs := hm.defs
  distinct := hm.distinct
  fits := hu.fits
  global := hm.global.trans hu.offset.symm
  label := by rw [hu.pinned]; exact hm.label
  memory := by
    intro it' o' ho'
    simp only [Memory.put]
    by_cases hit : it' = it
    · subst hit
      rw [hu.new] at ho'
      rw [if_pos rfl, ho']
    · obtain ⟨old, hold⟩ := hu.old
      rw [hu.other it' hit] at ho'
      have hne : it'.ident names ≠ it.ident names := by
        intro heq
        exact hit (Item.ident_inj hm.distinct (hm.fits.declared ho') (hm.fits.declared hold) heq)
      rw [if_neg hne]
      exact hm.memory it' o' ho'

/-- What is kept in `temp` and `addr` does not matter. -/
theorem Mirrors.keep
    (hm : Mirrors names s c) (temp : Option Int32) (addr : Option Pointer) :
    Mirrors names s { c with temp := temp, addr := addr } :=
  ⟨hm.defs, hm.distinct, hm.fits, hm.global, hm.label, hm.memory⟩

/-- The function `get` undoes the offset. -/
theorem Mirrors.get
    (hm : Mirrors names s c) (n : Int32) :
    c.get n = n + s.offset := by
  rw [Process.get, hm.defs, hm.global]
  rfl

theorem Mirrors.int?
    {v : Nat} {cell : Cell}
    (hm : Mirrors names s c)
    (hv : s.vars[v]? = some cell) :
    c.memory.int? (varCell (names.varName v)) = some cell.stored := by
  have h := hm.memory (.var v) (.int cell.stored) (by simp [Item.object?, hv])
  simp only [Item.ident] at h
  simp [Memory.int?, h]

theorem Mirrors.cells?
    {a : Nat} {b : Bank}
    (hm : Mirrors names s c)
    (ha : s.arrays[a]? = some b) :
    c.memory.cells? (arrayCell (names.arrayDecl a).name) = some b.cells := by
  have h := hm.memory (.array a) (.array b.cells) (by simp [Item.object?, ha])
  simp only [Item.ident] at h
  simp [Memory.cells?, h]

theorem Mirrors.bool?
    {b : Bool}
    (hm : Mirrors names s c)
    (it : Item)
    (h : it.object? s = some (.bool b)) :
    c.memory.bool? (it.ident names) = some b := by
  simp [Memory.bool?, hm.memory it _ h]

end Mirrors

section Checks

variable {σ : Type} [NumberSource σ] {names : Names} {s : State} {c : Process σ} {α β : Type}

/-- Checks that go on without a change where the machine gets what it requires, and
quit with its message where it aborts. -/
def Guards (c : Process σ) (r : Except Halt α) (e : Effect σ) : Prop :=
  match r with
  | .ok _ => e = .next c
  | .error (.abort cause) => e = .quit (c.write cause.message) 1
  | .error _ => True

theorem execAll_append
    (ss ts : List Stmt) :
    ∀ c : Process σ,
      execAll c (ss ++ ts) =
        match execAll c ss with
        | .next c' => execAll c' ts
        | e => e := by
  induction ss with
  | nil =>
      intro c
      rfl
  | cons s ss ih =>
      intro c
      simp only [List.cons_append, execAll]
      cases s.exec c with
      | next c' => exact ih c'
      | jump c' name => rfl
      | quit c' status => rfl
      | undefined => rfl

theorem Guards.append
    {r : Except Halt α} {f : α → Except Halt β} {ss ts : List Stmt}
    (h : Guards c r (execAll c ss))
    (h' : ∀ a, r = .ok a → Guards c (f a) (execAll c ts)) :
    Guards c (r >>= f) (execAll c (ss ++ ts)) := by
  rw [execAll_append]
  cases r with
  | ok a =>
      have hnext : execAll c ss = .next c := h
      rw [hnext]
      exact h' a rfl
  | error e =>
      cases e with
      | abort cause =>
          have hquit : execAll c ss = .quit (c.write cause.message) 1 := h
          rw [hquit]
          rfl
      | failure line text cause => trivial
      | stray => trivial

theorem guards_assertLive
    (it : Item) {b : Bool}
    (hm : Mirrors names s c)
    (h : it.object? s = some (.bool b)) :
    Guards c (if b then .ok () else .error (.abort .undefinedUse) : Except Halt Unit)
      (execAll c [.assertLive (it.ident names)]) := by
  simp only [execAll, Stmt.exec, hm.bool? it h, hm.defs]
  cases b with
  | true => rfl
  | false => rfl

theorem guards_checkVar
    (hm : Mirrors names s c) (v : Nat) :
    Guards c (s.requireVar v) (execAll c [checkVar names v]) := by
  unfold State.requireVar
  cases hv : s.vars[v]? with
  | none => trivial
  | some cell =>
      exact guards_assertLive (.varLive v) hm (by simp [Item.object?, hv])

theorem guards_checkPlace
    (hm : Mirrors names s c) (p : Place) :
    Guards c (s.requirePlace p) (execAll c (checkPlace names p)) := by
  cases p with
  | var v => exact guards_checkVar hm v
  | element a i =>
      refine Guards.append ?_ ?_
      · cases i with
        | literal n => rfl
        | var v => exact guards_checkVar hm v
      · intro _ _
        cases ha : s.arrays[a]? with
        | none => trivial
        | some b =>
            exact guards_assertLive (.arrayLive a) hm (by simp [Item.object?, ha])

end Checks

section Accesses

variable {σ : Type} {names : Names} {s : State} {c : Process σ} {l : OpLine}

/-- Where the generated program keeps what is at an address of the machine. -/
def pointerOf (names : Names) : Address → Pointer
  | .var v => .scalar (varCell (names.varName v))
  | .cell a i => .element (arrayCell (names.arrayDecl a).name) i

/-- The address is within the tables. -/
def Holds (s : State) : Address → Prop
  | .var v => ∃ cell, s.vars[v]? = some cell
  | .cell a i => ∃ b, s.arrays[a]? = some b ∧ i < b.cells.size

theorem eval_of_indexValue
    {i : Index} {n : Int32}
    (hm : Mirrors names s c)
    (h : s.indexValue i = .ok n) :
    (position names i).eval c = some n := by
  cases i with
  | literal m =>
      cases h
      rfl
  | var v =>
      simp only [State.indexValue] at h
      cases hv : s.vars[v]? with
      | none =>
          rw [hv] at h
          cases h
      | some cell =>
          simp only [hv] at h
          cases h
          simp [position, Position.eval, hm.int? hv, hm.get]

/-- The address of a place is found alike. -/
theorem pointer_of_address
    {p : Place} {q : Address}
    (hm : Mirrors names s c)
    (h : s.address names l p = .ok q) :
    (lvalue names p).pointer c = some (pointerOf names q) ∧ Holds s q := by
  cases p with
  | var v =>
      simp only [State.address] at h
      split_ifs at h with hv
      cases h
      have hcell : s.vars[v]? = some s.vars[v] := Array.getElem?_eq_getElem hv
      refine ⟨?_, _, hcell⟩
      simp [lvalue, LValue.pointer, hm.int? hcell, pointerOf]
  | element a i =>
      simp only [State.address] at h
      obtain ⟨n, hn, h⟩ := bind_eq_ok_iff.mp h
      cases ha : s.arrays[a]? with
      | none =>
          rw [ha] at h
          cases h
      | some b =>
          simp only [ha] at h
          split_ifs at h with hrange
          cases h
          refine ⟨?_, b, ha, by omega⟩
          simp [lvalue, LValue.pointer, hm.cells? ha, eval_of_indexValue hm hn, hrange, pointerOf]

/-- A place that is not found does not abort the program. -/
theorem address_ne_abort
    {p : Place} {cause : Abort} :
    s.address names l p ≠ .error (.abort cause) := by
  intro h
  cases p with
  | var v =>
      simp only [State.address] at h
      split_ifs at h
      cases h
  | element a i =>
      cases i with
      | literal n =>
          simp only [State.address, State.indexValue, bind, Except.bind] at h
          split at h
          · cases h
          · split_ifs at h
            cases h
      | var v =>
          simp only [State.address, State.indexValue, bind, Except.bind] at h
          cases hv : s.vars[v]? with
          | none =>
              rw [hv] at h
              cases h
          | some cell =>
              simp only [hv] at h
              split at h
              · cases h
              · split_ifs at h
                cases h

theorem load_of_holds
    {q : Address}
    (hm : Mirrors names s c)
    (hq : Holds s q) :
    c.memory.load (pointerOf names q) = some (s.load q) := by
  cases q with
  | var v =>
      obtain ⟨cell, hv⟩ := hq
      simp [pointerOf, Memory.load, hm.int? hv, State.load, hv]
  | cell a i =>
      obtain ⟨b, ha, hi⟩ := hq
      simp [pointerOf, Memory.load, hm.cells? ha, State.load, ha, hi]

/-- The machine and the generated program change a number alike. -/
theorem Mirrors.assign
    {q : Address}
    (hm : Mirrors names s c)
    (hq : Holds s q)
    (f : Int32 → Int32) :
    ∃ memory, c.assign f (pointerOf names q) = some { c with memory := memory } ∧
      Mirrors names (s.modify f q) { c with memory := memory } := by
  have hload := load_of_holds hm hq
  cases q with
  | var v =>
      obtain ⟨cell, hv⟩ := hq
      have hu := updates_var hm.fits (g := fun c => { c with stored := f c.stored }) hv rfl
      refine ⟨_, ?_, hm.put hu⟩
      simp only [Process.assign, hload, State.load, Array.getD_eq_getD_getElem?, hv]
      simp [pointerOf, Memory.store, hm.int? hv, Item.ident]
  | cell a i =>
      obtain ⟨b, ha, hi⟩ := hq
      have hu := updates_array hm.fits (g := fun b => { b with cells := b.cells.modify i f }) ha
        rfl (by simp)
      refine ⟨_, ?_, hm.put hu⟩
      have hcells := modify_eq_setIfInBounds hi f
      simp only [Process.assign, hload, State.load, Array.getD_eq_getD_getElem?, ha]
      simp [pointerOf, Memory.store, hm.cells? ha, Item.ident, hi, hcells]

end Accesses

section Values

variable {σ : Type} {names : Names} {s : State} {c : Process σ} {l : OpLine}

theorem guards_check [NumberSource σ]
    (hm : Mirrors names s c) (v : Operand) :
    Guards c (s.value names l v) (execAll c (check names v)) := by
  cases v with
  | literal n => rfl
  | stored p =>
      have hp := guards_checkPlace hm p
      simp only [State.value, check]
      cases hr : s.requirePlace p with
      | error h =>
          rw [hr] at hp
          cases h with
          | abort cause => exact hp
          | failure line text cause => trivial
          | stray => trivial
      | ok u =>
          rw [hr] at hp
          cases ha : s.address names l p with
          | ok q => exact hp
          | error h =>
              cases h with
              | abort cause => exact absurd ha address_ne_abort
              | failure line text cause => trivial
              | stray => trivial

theorem eval_of_value
    {v : Operand} {n : Int32}
    (hm : Mirrors names s c)
    (h : s.value names l v = .ok n) :
    (expr names v).eval c = some n := by
  cases v with
  | literal m =>
      cases h
      rfl
  | stored p =>
      simp only [State.value] at h
      obtain ⟨-, -, h⟩ := bind_eq_ok_iff.mp h
      obtain ⟨q, hq, h⟩ := bind_eq_ok_iff.mp h
      cases h
      obtain ⟨hpointer, hholds⟩ := pointer_of_address hm hq
      simp [expr, Expr.eval, hpointer, load_of_holds hm hholds, hm.get]

end Values

end Target
end Contrary
