import Contrary.Naming.Scope
import Mathlib.Data.List.Nodup
import Mathlib.Tactic.SplitIfs

/-!
# Handles of names

The three name tables of a program, seen as one: `table` gives the names of a
kind in the order of their handles, so that what holds of every kind is said
once.

**Results.**
* `find?_eq_some`: a name that is found stands in its table at its handle.
* `find?_eq_none_iff`: a name that is not found stands in no table.
* `lookup_eq_ok`, `intern_eq_ok`: what a line that uses or introduces a name
  does to the tables.
-/

namespace Contrary

section Outcomes

variable {ε α β : Type}

theorem isOk_eq_true_iff
    {x : Except ε α} :
    x.isOk = true ↔ ∃ a, x = .ok a := by
  cases x <;> simp [Except.isOk, Except.toBool]

theorem map_eq_ok_iff
    {x : Except ε α} {f : α → β} {b : β} :
    x.map f = .ok b ↔ ∃ a, x = .ok a ∧ f a = b := by
  cases x <;> simp [Except.map]

theorem bind_eq_ok_iff
    {x : Except ε α} {f : α → Except ε β} {b : β} :
    (x >>= f) = .ok b ↔ ∃ a, x = .ok a ∧ f a = .ok b := by
  cases x <;> simp [bind, Except.bind]

/-- Two outcomes that agree in a view: both fail with the same view of the error, or both
succeed with the same view of the value. -/
theorem map_mapError_eq_iff
    {ε' : Type} {f : ε → ε'} {g : α → β} {x y : Except ε α} :
    (x.mapError f).map g = (y.mapError f).map g ↔
      (∃ e e', x = .error e ∧ y = .error e' ∧ f e = f e') ∨
        ∃ a a', x = .ok a ∧ y = .ok a' ∧ g a = g a' := by
  cases x <;> cases y <;> simp [Except.mapError, Except.map]

end Outcomes

/-- The entries of two tables with the same views. -/
theorem getElem?_of_map_eq
    {α β : Type} {xs ys : Array α} {view : α → β}
    (h : xs.map view = ys.map view) (i : Nat) :
    (xs[i]? = none ∧ ys[i]? = none) ∨
      ∃ x y, xs[i]? = some x ∧ ys[i]? = some y ∧ view x = view y := by
  have hi : xs[i]?.map view = ys[i]?.map view := by
    rw [← Array.getElem?_map, ← Array.getElem?_map, h]
  cases hx : xs[i]? with
  | none =>
      rw [hx, Option.map_none] at hi
      exact Or.inl ⟨rfl, Option.map_eq_none_iff.mp hi.symm⟩
  | some x =>
      rw [hx, Option.map_some] at hi
      obtain ⟨y, hy, hview⟩ := Option.map_eq_some_iff.mp hi.symm
      exact Or.inr ⟨x, y, rfl, hy, hview.symm⟩

namespace Spelling

theorem isIdentifier_eq_true_iff
    {x : Bytes} :
    isIdentifier x = true ↔
      x ≠ [] ∧ x.head?.any Bytes.isDigit = false ∧ ∀ b ∈ x, isIdentifierByte b = true := by
  cases x with
  | nil => simp [isIdentifier]
  | cons b x => simp [isIdentifier]

/-- Every name that a program may introduce is an identifier. -/
theorem isIdentifier_of_allowed
    {name : Bytes} {k : NameKind}
    (h : allowed name k = true) :
    isIdentifier name = true := by
  cases k with
  | «variable» =>
      simp only [allowed, Bool.and_eq_true] at h
      exact h.1
  | array => exact h
  | flag =>
      simp only [allowed, Bool.and_eq_true] at h
      exact h.1.1.1

end Spelling

namespace Names

/-- The names of a kind, in the order of their handles. -/
def table (t : Names) : NameKind → List Bytes
  | .variable => t.vars.toList
  | .array => t.arrays.toList.map ArrayDecl.name
  | .flag => t.flags.toList

/-- All names, of every kind. -/
def all (t : Names) : List Bytes :=
  t.table .variable ++ t.table .array ++ t.table .flag

section Find

theorem findIdx?_toList
    {α : Type} (xs : Array α) (p : α → Bool) :
    xs.findIdx? p = xs.toList.findIdx? p := by
  rw [← List.findIdx?_toArray, Array.toArray_toList]

theorem getElem?_of_findIdx?
    {xs : List Bytes} {name : Bytes} {i : Nat}
    (h : xs.findIdx? (· == name) = some i) :
    xs[i]? = some name := by
  obtain ⟨hi, hp, _⟩ := List.findIdx?_eq_some_iff_getElem.mp h
  rw [List.getElem?_eq_getElem hi]
  simpa using hp

/-- The search through the table of a kind. -/
theorem handle?_eq
    (t : Names) (name : Bytes) :
    t.varHandle? name = (t.table .variable).findIdx? (· == name) ∧
    t.arrayHandle? name = (t.table .array).findIdx? (· == name) ∧
    t.flagHandle? name = (t.table .flag).findIdx? (· == name) := by
  refine ⟨?_, ?_, ?_⟩
  · simp [varHandle?, table, findIdx?_toList]
  · simp [arrayHandle?, table, findIdx?_toList, List.findIdx?_map, Function.comp_def]
  · simp [flagHandle?, table, findIdx?_toList]

/-- A name that is found stands in the table of its kind at its handle. -/
theorem find?_eq_some
    {t : Names} {name : Bytes} {k : NameKind} {i : Nat}
    (h : t.find? name = some (k, i)) :
    (t.table k)[i]? = some name := by
  obtain ⟨hv, ha, hf⟩ := handle?_eq t name
  unfold find? at h
  cases hvar : t.varHandle? name with
  | some v =>
      simp only [hvar, Option.some.injEq, Prod.mk.injEq] at h
      obtain ⟨rfl, rfl⟩ := h
      exact getElem?_of_findIdx? (hv ▸ hvar)
  | none =>
      cases harr : t.arrayHandle? name with
      | some a =>
          simp only [hvar, harr, Option.some.injEq, Prod.mk.injEq] at h
          obtain ⟨rfl, rfl⟩ := h
          exact getElem?_of_findIdx? (ha ▸ harr)
      | none =>
          simp only [hvar, harr, Option.map_eq_some_iff, Prod.mk.injEq] at h
          obtain ⟨f, hflag, rfl, rfl⟩ := h
          exact getElem?_of_findIdx? (hf ▸ hflag)

/-- A name is not found exactly if it stands in no table. -/
theorem find?_eq_none_iff
    {t : Names} {name : Bytes} :
    t.find? name = none ↔ name ∉ t.all := by
  obtain ⟨hv, ha, hf⟩ := handle?_eq t name
  have hnone : ∀ xs : List Bytes, xs.findIdx? (· == name) = none ↔ name ∉ xs := by
    intro xs
    rw [List.findIdx?_eq_none_iff]
    constructor
    · intro h hm
      simpa using h name hm
    · rintro h x hx
      simp only [beq_eq_false_iff_ne, ne_eq]
      rintro rfl
      exact h hx
  have hall : name ∉ t.all ↔
      t.varHandle? name = none ∧ t.arrayHandle? name = none ∧ t.flagHandle? name = none := by
    rw [hv, ha, hf, hnone, hnone, hnone, all]
    simp
  rw [hall]
  unfold find?
  cases t.varHandle? name <;> cases t.arrayHandle? name <;> simp

end Find

section Scope

/-- A name that a line may use has the wanted kind. -/
theorem lookup_eq_ok
    {t : Names} {name : Bytes} {want : NameKind} {i : Nat}
    (h : t.lookup name want = .ok i) :
    (t.table want)[i]? = some name := by
  unfold lookup at h
  split at h
  · cases h
  · rename_i known j hfind
    split_ifs at h with hk
    cases h
    subst hk
    exact find?_eq_some hfind

/-- A name that is entered gets the next handle of its kind. -/
theorem insert_handle
    (t : Names) (name : Bytes) (size : Int) (k : NameKind) :
    (t.insert name size k).2 = (t.table k).length := by
  cases k <;> simp [insert, table]

/-- A name that is entered is the last one of its kind. -/
theorem table_insert_self
    (t : Names) (name : Bytes) (size : Int) (k : NameKind) :
    (t.insert name size k).1.table k = t.table k ++ [name] := by
  cases k <;> simp [insert, table]

/-- The other tables stay as they are. -/
theorem table_insert_of_ne
    (t : Names) (name : Bytes) (size : Int) {k k' : NameKind}
    (h : k' ≠ k) :
    (t.insert name size k).1.table k' = t.table k' := by
  cases k <;> cases k' <;> simp_all [insert, table]

theorem table_prefix_insert
    (t : Names) (name : Bytes) (size : Int) (k k' : NameKind) :
    t.table k' <+: (t.insert name size k).1.table k' := by
  by_cases h : k' = k
  · subst h
    rw [table_insert_self]
    exact List.prefix_append _ _
  · exact (table_insert_of_ne t name size h).symm ▸ List.prefix_rfl

/-- Entering a name adds it to all names, and nothing else. -/
theorem all_insert_perm
    (t : Names) (name : Bytes) (size : Int) (k : NameKind) :
    (t.insert name size k).1.all.Perm (name :: t.all) := by
  cases k with
  | «variable» =>
      simp only [all, insert, table, Array.toList_push, List.append_assoc]
      exact List.perm_middle
  | array =>
      simp only [all, insert, table, Array.toList_push, List.map_append, List.map_cons,
        List.map_nil, List.append_assoc]
      rw [← List.append_assoc, ← List.append_assoc t.vars.toList]
      exact List.perm_middle
  | flag =>
      simp only [all, insert, table, Array.toList_push]
      rw [← List.append_assoc]
      exact List.perm_append_singleton _ _

/-- What introducing a name does: it is known with the wanted kind and keeps its
handle, or it is new and is entered. -/
theorem intern_eq_ok
    {t t' : Names} {name : Bytes} {want : NameKind} {size : Int} {i : Nat}
    (h : t.intern name want size = .ok (t', i)) :
    (t' = t ∧ (t.table want)[i]? = some name ∧ t.find? name = some (want, i)) ∨
    (name ∉ t.all ∧ Spelling.allowed name want = true ∧
      t' = (t.insert name size want).1 ∧ i = (t.table want).length) := by
  unfold intern at h
  split at h
  · rename_i known j hfind
    split_ifs at h with hk
    cases h
    subst hk
    exact Or.inl ⟨rfl, find?_eq_some hfind, hfind⟩
  · rename_i hfind
    split_ifs at h with hallowed
    simp only [Except.ok.injEq, Prod.ext_iff] at h
    obtain ⟨ht, hi⟩ := h
    rw [insert_handle] at hi
    exact Or.inr ⟨find?_eq_none_iff.mp hfind, hallowed, ht.symm, hi.symm⟩

end Scope

section Distinct

theorem table_varName
    {t : Names} {v : Nat}
    (h : v < t.vars.size) :
    (t.table .variable)[v]? = some (t.varName v) := by
  simp [table, varName, h]

theorem table_arrayDecl
    {t : Names} {a : Nat}
    (h : a < t.arrays.size) :
    (t.table .array)[a]? = some (t.arrayDecl a).name := by
  simp [table, arrayDecl, h]

theorem table_flagName
    {t : Names} {f : Nat}
    (h : f < t.flags.size) :
    (t.table .flag)[f]? = some (t.flagName f) := by
  simp [table, flagName, h]

/-- Where all names are distinct, a name has one kind and one handle. -/
theorem handle_unique
    {t : Names} (hd : t.all.Nodup)
    {name : Bytes} {k k' : NameKind} {i i' : Nat}
    (h : (t.table k)[i]? = some name)
    (h' : (t.table k')[i']? = some name) :
    k = k' ∧ i = i' := by
  have hm := List.mem_of_getElem? h
  have hm' := List.mem_of_getElem? h'
  unfold all at hd
  rw [List.nodup_append, List.nodup_append] at hd
  obtain ⟨⟨hv, ha, hva⟩, hf, hvf⟩ := hd
  have hk : k = k' := by
    cases k <;> cases k' <;> first
      | rfl
      | exact absurd rfl (hva _ hm _ hm')
      | exact absurd rfl (hva _ hm' _ hm)
      | exact absurd rfl (hvf _ (by simp [hm]) _ hm')
      | exact absurd rfl (hvf _ (by simp [hm']) _ hm)
  subst hk
  refine ⟨rfl, ?_⟩
  have hn : (t.table k).Nodup := by
    cases k <;> assumption
  obtain ⟨hi, he⟩ := List.getElem?_eq_some_iff.mp h
  obtain ⟨hi', he'⟩ := List.getElem?_eq_some_iff.mp h'
  exact (List.Nodup.getElem_inj_iff hn).mp (he.trans he'.symm)

end Distinct

end Names
end Contrary
