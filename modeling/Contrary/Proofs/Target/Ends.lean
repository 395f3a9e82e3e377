import Contrary.Machine.Run
import Contrary.Proofs.Target.Mirror

/-!
# The start and the end of the generated C

**Start.**  The declarations introduce the items of a program one after another
(`objects_declarations`).  Their identifiers are distinct and hide nothing, so
the declarations are accepted, and the memory that they make mirrors the state
before the first operation (`mirrors_start`).

**End.**  The leak checks look at the liveness of all variables, arrays and flags
in the order in which the machine does, and blame the same name
(`checkLeaks_eq`).
-/

namespace Contrary
namespace Target

variable {names : Names}

theorem toList_eq_map_range
    {α : Type} (xs : Array α) (d : α) :
    xs.toList = (List.range xs.size).map fun i => xs.getD i d := by
  refine List.ext_getElem (by simp) ?_
  intro i hi _
  have hlt : i < xs.size := by simpa using hi
  simp [hlt]

section Start

/-- The items of a program, in the order of their declarations. -/
def Item.all (names : Names) : List Item :=
  ((List.range names.vars.size).flatMap fun v => [.var v, .varLive v]) ++
    ((List.range names.arrays.size).flatMap fun a => [.array a, .arrayLive a]) ++
    (List.range names.flags.size).map .flagLive

def Item.initial (names : Names) : Item → Object
  | .var _ => .int 0
  | .varLive _ => .bool false
  | .array a => .array (Array.replicate (names.arrayDecl a).size.toNat 0)
  | .arrayLive _ => .bool false
  | .flagLive _ => .bool true

theorem Item.mem_all
    {it : Item} :
    it ∈ Item.all names ↔ it.Declared names := by
  cases it <;> simp [Item.all, Item.Declared]

/-- Two kinds of items, in turn. -/
theorem nodup_flatMap_pair
    {f g : Nat → Item}
    (hf : ∀ i j, f i = f j → i = j)
    (hg : ∀ i j, g i = g j → i = j)
    (hfg : ∀ i j, f i ≠ g j)
    (n : Nat) :
    ((List.range n).flatMap fun i => [f i, g i]).Nodup := by
  rw [List.nodup_flatMap]
  refine ⟨by simp [hfg], List.nodup_range.imp ?_⟩
  intro i j hij x hx hx'
  rcases List.mem_pair.mp hx with rfl | rfl
  · rcases List.mem_pair.mp hx' with h | h
    · exact hij (hf _ _ h)
    · exact hfg _ _ h
  · rcases List.mem_pair.mp hx' with h | h
    · exact hfg _ _ h.symm
    · exact hij (hg _ _ h)

theorem Item.all_nodup :
    (Item.all names).Nodup := by
  have hflags : ((List.range names.flags.size).map Item.flagLive).Nodup :=
    List.nodup_range.map fun i j h => Item.flagLive.inj h
  unfold Item.all
  rw [List.nodup_append, List.nodup_append]
  refine ⟨⟨nodup_flatMap_pair (by simp) (by simp) (by simp) _,
    nodup_flatMap_pair (by simp) (by simp) (by simp) _, ?_⟩, hflags, ?_⟩
  · intro x hx y hy
    simp only [List.mem_flatMap, List.mem_pair] at hx hy
    grind
  · intro x hx y hy
    simp only [List.mem_append, List.mem_flatMap, List.mem_map, List.mem_pair] at hx hy
    grind

/-- No identifier of an item hides a name that every program has. -/
theorem Item.ident_notMem_hidden
    (it : Item) :
    it.ident names ∉ hidden := by
  intro h
  have hstart : ∀ x ∈ hidden, x.head? ≠ some '_'.toUInt8 := by decide
  exact hstart _ h (by cases it <;> rfl)

/-- Declarations of new names that hide nothing are accepted. -/
theorem declare_eq_some
    (objects : List (Ident × Object)) :
    ∀ m : Memory,
      (objects.map Prod.fst).Nodup →
      (∀ x ∈ objects.map Prod.fst, m x = none ∧ x ∉ hidden) →
      ∃ m', m.declare objects = some m' ∧ (∀ x o, (x, o) ∈ objects → m' x = some o) ∧
        ∀ x ∉ objects.map Prod.fst, m' x = m x := by
  induction objects with
  | nil =>
      intro m _ _
      exact ⟨m, rfl, by simp, by simp⟩
  | cons entry objects ih =>
      obtain ⟨x, o⟩ := entry
      intro m hnodup hnew
      rw [List.map_cons, List.nodup_cons] at hnodup
      obtain ⟨hx, hnodup⟩ := hnodup
      obtain ⟨hnone, hhidden⟩ := hnew x (by simp)
      obtain ⟨m', hm', hmem, hother⟩ := ih (m.put x o) hnodup (by
        intro y hy
        obtain ⟨hynone, hyhidden⟩ := hnew y (List.mem_cons_of_mem _ hy)
        have hne : y ≠ x := by
          rintro rfl
          exact hx hy
        exact ⟨by simp [Memory.put, hne, hynone], hyhidden⟩)
      refine ⟨m', ?_, ?_, ?_⟩
      · simp [Memory.declare, hnone, hhidden, hm']
      · intro y o' hy
        rcases List.mem_cons.mp hy with heq | hy
        · cases heq
          rw [hother x hx]
          simp [Memory.put]
        · exact hmem y o' hy
      · intro y hy
        rw [List.map_cons, List.mem_cons, not_or] at hy
        rw [hother y hy.2]
        simp [Memory.put, hy.1]

/-- What the declarations introduce: the items of the program with their first
values. -/
theorem objects_declarations
    (names : Names) :
    (declarations names).flatMap Decl.objects =
      (Item.all names).map fun it => (it.ident names, it.initial names) := by
  unfold declarations
  rw [toList_eq_map_range names.vars [], toList_eq_map_range names.arrays ⟨[], 0⟩,
    toList_eq_map_range names.flags []]
  simp [List.flatMap_append, List.flatMap_map, List.map_flatMap, Item.all, Item.ident, Item.initial,
    Decl.objects, Names.varName, Names.arrayDecl, Names.flagName]
  rw [List.map_eq_flatMap]
  rfl

/-- Before the first operation every item has its first value. -/
theorem object?_start
    {m : Machine} {it : Item} {o : Object}
    (h : it.object? m.start = some o) :
    it ∈ Item.all m.program.names ∧ o = it.initial m.program.names := by
  rw [Item.mem_all]
  cases it with
  | var v =>
      simp only [Item.object?, Machine.start, Array.getElem?_map, Option.map_map] at h
      obtain ⟨x, hx, rfl⟩ := Option.map_eq_some_iff.mp h
      exact ⟨(Array.getElem?_eq_some_iff.mp hx).1, rfl⟩
  | varLive v =>
      simp only [Item.object?, Machine.start, Array.getElem?_map, Option.map_map] at h
      obtain ⟨x, hx, rfl⟩ := Option.map_eq_some_iff.mp h
      exact ⟨(Array.getElem?_eq_some_iff.mp hx).1, rfl⟩
  | array a =>
      simp only [Item.object?, Machine.start, Array.getElem?_map, Option.map_map] at h
      obtain ⟨d, hd, rfl⟩ := Option.map_eq_some_iff.mp h
      exact ⟨(Array.getElem?_eq_some_iff.mp hd).1, by simp [Item.initial, Names.arrayDecl, hd]⟩
  | arrayLive a =>
      simp only [Item.object?, Machine.start, Array.getElem?_map, Option.map_map] at h
      obtain ⟨d, hd, rfl⟩ := Option.map_eq_some_iff.mp h
      exact ⟨(Array.getElem?_eq_some_iff.mp hd).1, rfl⟩
  | flagLive f =>
      simp only [Item.object?, Machine.start, Array.getElem?_map, Option.map_map] at h
      obtain ⟨x, hx, rfl⟩ := Option.map_eq_some_iff.mp h
      exact ⟨(Array.getElem?_eq_some_iff.mp hx).1, rfl⟩

theorem fits_start
    (m : Machine) :
    Fits m.program.names m.start where
  vars := by simp [Machine.start]
  arrays := by simp [Machine.start]
  flags := by simp [Machine.start]
  cells := by
    intro a b hb
    simp only [Machine.start, Array.getElem?_map] at hb
    obtain ⟨d, hd, rfl⟩ := Option.map_eq_some_iff.mp hb
    simp [Names.arrayDecl, hd]

/-- The declarations make the memory of the state before the first operation. -/
theorem mirrors_start
    {σ : Type} {m : Machine} (input : σ)
    (hd : m.program.names.all.Nodup)
    (hsizes : ∀ d ∈ m.program.names.arrays.toList, 0 ≤ d.size) :
    ∃ memory, Memory.ofDecls (declarations m.program.names) = some memory ∧
      Mirrors m.program.names m.start ⟨.generated, memory, 0, none, none, none, input, #[]⟩ := by
  have hobjects := objects_declarations m.program.names
  have hkeys : ((declarations m.program.names).flatMap Decl.objects).map Prod.fst =
      (Item.all m.program.names).map (Item.ident m.program.names) := by
    rw [hobjects, List.map_map]
    rfl
  have hnodup : (((declarations m.program.names).flatMap Decl.objects).map Prod.fst).Nodup := by
    rw [hkeys]
    refine Item.all_nodup.map_on ?_
    intro it hit it' hit' heq
    exact Item.ident_inj hd (Item.mem_all.mp hit) (Item.mem_all.mp hit') heq
  obtain ⟨memory, hmemory, hmem, -⟩ := declare_eq_some _ (fun _ => none) hnodup (by
    intro x hx
    rw [hkeys] at hx
    obtain ⟨it, -, rfl⟩ := List.mem_map.mp hx
    exact ⟨rfl, it.ident_notMem_hidden⟩)
  have hsized : (declarations m.program.names).all Decl.isSized = true := by
    rw [List.all_eq_true]
    intro d hdecl
    simp only [declarations, List.mem_append, List.mem_map] at hdecl
    rcases hdecl with (⟨x, -, rfl⟩ | ⟨e, he, rfl⟩) | ⟨f, -, rfl⟩
    · rfl
    · simpa [Decl.isSized] using hsizes e he
    · rfl
  refine ⟨memory, ?_, rfl, hd, fits_start m, rfl, rfl, ?_⟩
  · unfold Memory.ofDecls
    rw [if_pos hsized, hmemory]
  · intro it o ho
    obtain ⟨hit, rfl⟩ := object?_start ho
    refine hmem _ _ ?_
    rw [hobjects]
    exact List.mem_map.mpr ⟨it, hit, rfl⟩

end Start

section End

variable {σ : Type} {c : Process σ}

/-- A leak check that looks at the liveness of an entry. -/
def Looks (c : Process σ) (k : LeakCheck) (entry : Bytes × Bool) : Prop :=
  k.name = entry.1 ∧ c.memory.bool? k.live = some entry.2

theorem checkLeaks_of_looks
    {ks : List LeakCheck} {entries : List (Bytes × Bool)}
    (hdefs : c.defs = .generated)
    (h : List.Forall₂ (Looks c) ks entries) :
    checkLeaks c ks =
      match (entries.find? (·.2)).map (·.1) with
      | some name => .exited (c.output ++ (Abort.leak name).message) 1
      | none => .exited c.output 0 := by
  induction h with
  | nil => rfl
  | @cons k entry ks entries hk _ ih =>
      obtain ⟨name, live⟩ := entry
      obtain ⟨hname, hlive⟩ := hk
      simp only at hname hlive
      cases live with
      | true =>
          simp only [checkLeaks, hlive, hname, hdefs, List.find?_cons]
          rfl
      | false =>
          simp only [checkLeaks, hlive, List.find?_cons]
          exact ih

/-- The leak checks of the names of a kind. -/
theorem looks_zip
    (live : Bytes → Ident) (xs : List Bytes) :
    ∀ ys : List Bool,
      xs.length = ys.length →
      (∀ (i : Nat) (x : Bytes) (y : Bool), xs[i]? = some x → ys[i]? = some y → c.memory.bool? (live x) = some y) →
      List.Forall₂ (Looks c) (xs.map fun x => ⟨live x, x⟩) (xs.zip ys) := by
  induction xs with
  | nil =>
      intro ys _ _
      exact .nil
  | cons x xs ih =>
      intro ys hlen h
      cases ys with
      | nil => cases hlen
      | cons y ys =>
          refine .cons ⟨rfl, h 0 x y rfl rfl⟩ (ih ys (by simpa using hlen) ?_)
          intro i x' y' hx' hy'
          exact h (i + 1) x' y' hx' hy'

/-- The checks at the end find what the machine finds. -/
theorem checkLeaks_eq
    {m : Machine} {s : State}
    (hm : Mirrors m.program.names s c) :
    checkLeaks c (leakChecks m.program.names) =
      match m.leaked? s with
      | some name => .exited (c.output ++ (Abort.leak name).message) 1
      | none => .exited c.output 0 := by
  have hvars : List.Forall₂ (Looks c)
      (m.program.names.vars.toList.map fun x => ⟨liveness (varCell x), x⟩)
      (m.program.names.vars.toList.zip (s.vars.toList.map Cell.live)) := by
    refine looks_zip _ _ _ (by simp [hm.fits.vars]) ?_
    intro v x live hx hlive
    have hobject : Item.object? s (.varLive v) = some (.bool live) := by
      simpa [Item.object?] using hlive
    simpa [Item.ident, Names.varName, show m.program.names.vars[v]? = some x by simpa using hx]
      using hm.bool? (.varLive v) hobject
  have harrays : List.Forall₂ (Looks c)
      (m.program.names.arrays.toList.map fun d => ⟨liveness (arrayCell d.name), d.name⟩)
      ((m.program.names.arrays.toList.map ArrayDecl.name).zip (s.arrays.toList.map Bank.live)) := by
    have hzip := looks_zip (c := c) (fun x => liveness (arrayCell x))
      (m.program.names.arrays.toList.map ArrayDecl.name) (s.arrays.toList.map Bank.live)
      (by simp [hm.fits.arrays]) ?_
    · simpa [Function.comp_def] using hzip
    intro a x live hx hlive
    have hobject : Item.object? s (.arrayLive a) = some (.bool live) := by
      simpa [Item.object?] using hlive
    rw [List.getElem?_map] at hx
    obtain ⟨d, hd, rfl⟩ := Option.map_eq_some_iff.mp hx
    simpa [Item.ident, Names.arrayDecl, show m.program.names.arrays[a]? = some d by simpa using hd]
      using hm.bool? (.arrayLive a) hobject
  have hflags : List.Forall₂ (Looks c)
      (m.program.names.flags.toList.map fun f => ⟨liveness (flagCell f), f⟩)
      (m.program.names.flags.toList.zip s.flags.toList) := by
    refine looks_zip _ _ _ (by simp [hm.fits.flags]) ?_
    intro f x live hx hlive
    have hobject : Item.object? s (.flagLive f) = some (.bool live) := by
      simpa [Item.object?] using hlive
    simpa [Item.ident, Names.flagName, show m.program.names.flags[f]? = some x by simpa using hx]
      using hm.bool? (.flagLive f) hobject
  unfold leakChecks
  rw [checkLeaks_of_looks hm.defs (List.rel_append (List.rel_append hvars harrays) hflags)]
  simp only [Machine.leaked?, List.find?_append, Option.map_or, Option.or_assoc]

end End

end Target
end Contrary
