import Contrary.Proofs.FailedSteps

/-!
# The values that operands show

An operand can be read if what it uses is alive and its index is in range.  The value that it
shows is then what is stored in its cell, with the offset added.

**Alive.**  A check goes through exactly if the names that it is about are alive
(`requireVar_eq_ok_iff`, `requirePlace_element_iff`).

**Results.**
* `value_eq_ok_iff`: an operand has a value exactly if it can be read, and which one.
-/

namespace Contrary

namespace State

/-- A variable that is alive, and the value that it shows. -/
def ShowsVar (s : State) (v : Nat) (x : Int32) : Prop :=
  ∃ c, s.vars[v]? = some c ∧ c.live = true ∧ x = c.stored + s.offset

/-- An index that can be read, and its value. -/
def ShowsIndex (s : State) : Index → Int32 → Prop
  | .literal n, x => x = n
  | .var v, x => s.ShowsVar v x

/-- An operand that can be read, and the value that it shows.  An element can be read if its
array is alive and its index is in range. -/
def Shows (s : State) : Operand → Int32 → Prop
  | .literal n, x => x = n
  | .stored (.var v), x => s.ShowsVar v x
  | .stored (.element a i), x =>
      ∃ (k : Int32) (n : Nat) (b : Bank) (c : Int32), s.ShowsIndex i k ∧ k.toInt = n ∧
        s.arrays[a]? = some b ∧ b.live = true ∧ b.cells[n]? = some c ∧ x = c + s.offset

section Values

variable {s : State} {names : Names} {l : OpLine}

theorem requireVar_eq_ok_iff
    {v : Nat} :
    s.requireVar v = .ok () ↔ ∃ c, s.vars[v]? = some c ∧ c.live = true := by
  unfold requireVar
  cases s.vars[v]? with
  | none => simp
  | some c => cases hlive : c.live <;> simp [hlive]

theorem requirePlace_element_iff
    {a : Nat} {i : Index} :
    s.requirePlace (.element a i) = .ok () ↔
      s.requireIndex i = .ok () ∧ ∃ b, s.arrays[a]? = some b ∧ b.live = true := by
  constructor
  · intro h
    obtain ⟨_, hindex, h⟩ := bind_eq_ok_iff.mp h
    cases hb : s.arrays[a]? with
    | none =>
        rw [hb] at h
        cases h
    | some b =>
        rw [hb] at h
        dsimp only at h
        split_ifs at h with hlive
        exact ⟨hindex, b, rfl, hlive⟩
  · rintro ⟨hindex, b, hb, hlive⟩
    exact bind_eq_ok_iff.mpr ⟨(), hindex, by rw [hb]; exact if_pos hlive⟩

theorem showsIndex_iff
    {i : Index} {k : Int32} :
    s.ShowsIndex i k ↔ s.requireIndex i = .ok () ∧ s.indexValue i = .ok k := by
  cases i with
  | literal n =>
      constructor
      · rintro rfl
        exact ⟨rfl, rfl⟩
      · rintro ⟨-, h⟩
        cases h
        rfl
  | var v =>
      constructor
      · rintro ⟨c, hc, hlive, rfl⟩
        exact ⟨requireVar_eq_ok_iff.mpr ⟨c, hc, hlive⟩, by simp only [indexValue, hc]⟩
      · rintro ⟨hrequire, hvalue⟩
        obtain ⟨c, hc, hlive⟩ := requireVar_eq_ok_iff.mp hrequire
        simp only [indexValue, hc] at hvalue
        cases hvalue
        exact ⟨c, hc, hlive, rfl⟩

theorem load_var
    {v : Nat} {c : Cell}
    (hc : s.vars[v]? = some c) :
    s.load (.var v) = c.stored := by
  simp [load, Array.getD_eq_getD_getElem?, hc]

theorem load_cell
    {a n : Nat} {b : Bank} {c : Int32}
    (hb : s.arrays[a]? = some b)
    (hc : b.cells[n]? = some c) :
    s.load (.cell a n) = c := by
  simp [load, Array.getD_eq_getD_getElem?, hb, hc]

theorem value_var_iff
    {v : Nat} {x : Int32} :
    s.value names l (.stored (.var v)) = .ok x ↔ s.ShowsVar v x := by
  constructor
  · intro h
    obtain ⟨_, hrequire, h⟩ := bind_eq_ok_iff.mp h
    obtain ⟨q, hq, h⟩ := bind_eq_ok_iff.mp h
    obtain ⟨c, hc, hlive⟩ := requireVar_eq_ok_iff.mp hrequire
    simp only [address] at hq
    split_ifs at hq
    cases hq
    cases h
    exact ⟨c, hc, hlive, by rw [load_var hc]⟩
  · rintro ⟨c, hc, hlive, rfl⟩
    have hv := (Array.getElem?_eq_some_iff.mp hc).1
    refine bind_eq_ok_iff.mpr ⟨(), requireVar_eq_ok_iff.mpr ⟨c, hc, hlive⟩, ?_⟩
    refine bind_eq_ok_iff.mpr ⟨.var v, if_pos hv, ?_⟩
    rw [load_var hc]
    rfl

theorem value_element_iff
    {a : Nat} {i : Index} {x : Int32} :
    s.value names l (.stored (.element a i)) = .ok x ↔ s.Shows (.stored (.element a i)) x := by
  constructor
  · intro h
    obtain ⟨_, hrequire, h⟩ := bind_eq_ok_iff.mp h
    obtain ⟨q, hq, h⟩ := bind_eq_ok_iff.mp h
    obtain ⟨hindex, b, hb, hlive⟩ := requirePlace_element_iff.mp hrequire
    obtain ⟨k, -, hk, -⟩ := index_of_address hq
    rw [address_element names l hk hb] at hq
    split_ifs at hq with hrange
    cases hq
    cases h
    have hn : k.toInt.toNat < b.cells.size := by omega
    refine ⟨k, k.toInt.toNat, b, b.cells[k.toInt.toNat], showsIndex_iff.mpr ⟨hindex, hk⟩,
      by omega, hb, hlive, Array.getElem?_eq_getElem hn, ?_⟩
    rw [load_cell hb (Array.getElem?_eq_getElem hn)]
  · rintro ⟨k, n, b, c, hindex, hn, hb, hlive, hc, rfl⟩
    obtain ⟨hrequire, hk⟩ := showsIndex_iff.mp hindex
    have hlt := (Array.getElem?_eq_some_iff.mp hc).1
    have hnat : k.toInt.toNat = n := by omega
    refine bind_eq_ok_iff.mpr ⟨(), requirePlace_element_iff.mpr ⟨hrequire, b, hb, hlive⟩, ?_⟩
    refine bind_eq_ok_iff.mpr ⟨.cell a n, ?_, ?_⟩
    · rw [address_element names l hk hb, if_pos (by omega), hnat]
    · rw [load_cell hb hc]
      rfl

/-- The value of an operand is found exactly if it can be read, and it is the one shown. -/
theorem value_eq_ok_iff
    {v : Operand} {x : Int32} :
    s.value names l v = .ok x ↔ s.Shows v x := by
  cases v with
  | literal n =>
      constructor
      · intro h
        cases h
        rfl
      · rintro rfl
        rfl
  | stored p =>
      cases p with
      | var v => exact value_var_iff
      | element a i => exact value_element_iff

end Values

end State

end Contrary
