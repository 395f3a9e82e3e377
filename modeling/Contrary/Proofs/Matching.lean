import Contrary.Program.Pairing
import Mathlib.Order.Bounds.Basic
import Mathlib.Data.Nat.Find

/-!
# Pairing is bracket matching

Operations that open and close blocks are brackets.  This module says what it means for
brackets to match, by counting only, and shows that the scan finds exactly this.

**Depth.**  `Op.depth ops k` is the number of blocks that are opened among the first `k`
operations, less those that are closed.  It moves by at most one at each operation.  That
the operations between two positions are balanced is a fact about the depth alone
(`balanced_iff_level`).

**Blocks.**  `Op.Encloses ops f j` says that the block that is opened at `f` is closed at
`j`: what stands between them is balanced.  A block has one end, an end belongs to one
block, and blocks do not cross.

**Scan.**  The positions on the stack are those of the open blocks, with balanced pieces
between them (`Stacked`), and the table holds the blocks that were closed so far.  One
operation keeps this (`Scanned`), so it holds when the scan ends (`scan_judged`).

**Results.**
* `ofOps_matches_brackets`: success, the pairs that are found, and the operation that is
  blamed.
-/

namespace Contrary
namespace Op

/-- The operation opens a block. -/
def opens : Op → Bool
  | .openBlock => true
  | _ => false

/-- The operation closes a block. -/
def closes : Op → Bool
  | .closeBlock _ _ _ => true
  | _ => false

/-- Blocks are closed as often as they are opened, and at no point more often. -/
structure Balanced (ops : List Op) : Prop where
  upTo : ∀ front, front <+: ops → front.countP closes ≤ front.countP opens
  total : ops.countP opens = ops.countP closes

/-- A block is opened at position `f`. -/
def OpensAt (ops : List Op) (f : Nat) : Prop :=
  ops[f]? = some .openBlock

/-- A block is closed at position `j`. -/
def ClosesAt (ops : List Op) (j : Nat) : Prop :=
  ∃ a b c, ops[j]? = some (.closeBlock a b c)

/-- The operations from position `i` on and before position `j`. -/
def between (ops : List Op) (i j : Nat) : List Op :=
  (ops.drop i).take (j - i)

/-- The block that is opened at `f` is closed at `j`. -/
structure Encloses (ops : List Op) (f j : Nat) : Prop where
  lt : f < j
  opening : OpensAt ops f
  closing : ClosesAt ops j
  inner : Balanced (between ops (f + 1) j)

/-- Up to and including position `i`, more blocks are closed than opened. -/
def Excess (ops : List Op) (i : Nat) : Prop :=
  (ops.take (i + 1)).countP opens < (ops.take (i + 1)).countP closes

/-- A block is opened at `f` that no later operation closes. -/
def Unclosed (ops : List Op) (f : Nat) : Prop :=
  OpensAt ops f ∧ ∀ j, ¬ Encloses ops f j

section Depth

/-- How many blocks are open after the first `k` operations. -/
def depth (ops : List Op) (k : Nat) : Int :=
  (ops.take k).countP opens - (ops.take k).countP closes

variable {ops : List Op} {i j k : Nat}

@[simp] theorem depth_zero :
    depth ops 0 = 0 := by
  simp [depth]

theorem depth_succ
    {op : Op}
    (h : ops[k]? = some op) :
    depth ops (k + 1) =
      depth ops k + ((if op.opens then 1 else 0) - (if op.closes then 1 else 0)) := by
  simp only [depth, List.take_add_one, h, Option.toList_some, List.countP_append,
    List.countP_singleton]
  cases op.opens <;> cases op.closes <;> simp <;> omega

theorem OpensAt.depth_succ
    (h : OpensAt ops k) :
    depth ops (k + 1) = depth ops k + 1 := by
  rw [Op.depth_succ h]
  rfl

theorem ClosesAt.depth_succ
    (h : ClosesAt ops k) :
    depth ops (k + 1) = depth ops k - 1 := by
  obtain ⟨a, b, c, h⟩ := h
  rw [Op.depth_succ h]
  rfl

theorem OpensAt.lt_length
    (h : OpensAt ops k) :
    k < ops.length :=
  (List.getElem?_eq_some_iff.mp h).1

theorem ClosesAt.lt_length
    (h : ClosesAt ops k) :
    k < ops.length := by
  obtain ⟨a, b, c, h⟩ := h
  exact (List.getElem?_eq_some_iff.mp h).1

theorem OpensAt.not_closesAt
    (h : OpensAt ops k) :
    ¬ ClosesAt ops k := by
  rintro ⟨a, b, c, h'⟩
  rw [OpensAt, h'] at h
  cases h

theorem depth_of_length_le
    (h : ops.length ≤ k) :
    depth ops k = depth ops ops.length := by
  simp only [depth, List.take_of_length_le h, List.take_length]

/-- What one operation can do to the depth. -/
theorem depth_succ_cases
    (ops : List Op) (k : Nat) :
    OpensAt ops k ∨ ClosesAt ops k ∨ depth ops (k + 1) = depth ops k := by
  cases h : ops[k]? with
  | none =>
      right
      right
      have hlength := List.getElem?_eq_none_iff.mp h
      rw [depth_of_length_le hlength, depth_of_length_le (Nat.le_succ_of_le hlength)]
  | some op =>
      cases op with
      | openBlock => exact Or.inl h
      | closeBlock a b c => exact Or.inr (Or.inl ⟨a, b, c, h⟩)
      | _ =>
          right
          right
          rw [Op.depth_succ h]
          simp [opens, closes]

theorem excess_iff :
    Excess ops i ↔ depth ops (i + 1) < 0 := by
  unfold Excess depth
  omega

/-- Between two positions of the same depth, the depth is never less. -/
structure Level (ops : List Op) (i j : Nat) : Prop where
  le : i ≤ j
  eq : depth ops j = depth ops i
  least : ∀ k, i ≤ k → k ≤ j → depth ops i ≤ depth ops k

theorem depth_between
    (ops : List Op)
    (hij : i ≤ j) :
    ((between ops i j).countP opens : Int) - (between ops i j).countP closes =
      depth ops j - depth ops i := by
  have hsplit : ops.take j = ops.take i ++ between ops i j := by
    rw [between, ← List.take_add, Nat.add_sub_cancel' hij]
  unfold depth
  rw [hsplit, List.countP_append, List.countP_append]
  push_cast
  omega

/-- Operations are balanced if the depth is the same before and after them, and nowhere
less between. -/
theorem balanced_iff_level
    (hij : i ≤ j) :
    Balanced (between ops i j) ↔ Level ops i j := by
  have hwhole := depth_between ops hij
  constructor
  · rintro ⟨hupTo, htotal⟩
    refine ⟨hij, by omega, ?_⟩
    intro k hik hkj
    have hfront : between ops i k <+: between ops i j :=
      List.take_prefix_take_left (by omega)
    have hcount := hupTo _ hfront
    have hpart := depth_between ops hik
    omega
  · rintro ⟨-, heq, hleast⟩
    refine ⟨?_, by omega⟩
    intro front hfront
    -- a prefix ends at the position that its length tells
    have hlength := hfront.length_le
    simp only [between, List.length_take, List.length_drop] at hlength
    have hend : front = between ops i (i + front.length) := by
      have htake := List.prefix_iff_eq_take.mp hfront
      rw [between, List.take_take, Nat.min_eq_left (by omega)] at htake
      rwa [between, Nat.add_sub_cancel_left]
    have hpart := depth_between ops (Nat.le_add_right i front.length)
    have hdepth := hleast (i + front.length) (by omega) (by omega)
    rw [← hend] at hpart
    omega

theorem balanced_iff_level_length :
    Balanced ops ↔ Level ops 0 ops.length := by
  have hwhole : between ops 0 ops.length = ops := by
    simp [between]
  rw [← balanced_iff_level (Nat.zero_le _), hwhole]

namespace Level

theorem refl
    (ops : List Op) (i : Nat) :
    Level ops i i := by
  refine ⟨Nat.le_refl i, rfl, ?_⟩
  intro k hik hki
  rw [Nat.le_antisymm hki hik]

/-- An operation that keeps the depth. -/
theorem snoc
    (h : Level ops i j)
    (hj : depth ops (j + 1) = depth ops j) :
    Level ops i (j + 1) := by
  refine ⟨Nat.le_succ_of_le h.le, hj.trans h.eq, ?_⟩
  intro k hik hkj
  rcases Nat.le_succ_iff.mp hkj with hkj | rfl
  · exact h.least k hik hkj
  · rw [hj]
    exact h.least j h.le (Nat.le_refl j)

/-- A block, and what stands before it. -/
theorem block
    (h : Level ops i j)
    (hopen : OpensAt ops j)
    (hinner : Level ops (j + 1) k)
    (hclose : ClosesAt ops k) :
    Level ops i (k + 1) := by
  have hle := h.le
  have hle' := hinner.le
  have heq := h.eq
  have heq' := hinner.eq
  have hup := hopen.depth_succ
  have hdown := hclose.depth_succ
  refine ⟨by omega, by omega, ?_⟩
  intro n hin hnk
  by_cases hnj : n ≤ j
  · exact h.least n hin hnj
  · by_cases hn : n ≤ k
    · have := hinner.least n (by omega) hn
      omega
    · have hend : n = k + 1 := by omega
      subst hend
      omega

end Level

end Depth

section Blocks

variable {ops : List Op} {f f' i j j' : Nat}

theorem encloses_iff :
    Encloses ops f j ↔
      f < j ∧ OpensAt ops f ∧ ClosesAt ops j ∧ Level ops (f + 1) j := by
  constructor
  · rintro ⟨hlt, hopen, hclose, hinner⟩
    exact ⟨hlt, hopen, hclose, (balanced_iff_level hlt).mp hinner⟩
  · rintro ⟨hlt, hopen, hclose, hlevel⟩
    exact ⟨hlt, hopen, hclose, (balanced_iff_level hlt).mpr hlevel⟩

namespace Encloses

theorem level
    (h : Encloses ops f j) :
    Level ops (f + 1) j :=
  (balanced_iff_level h.lt).mp h.inner

/-- The end of a block does not stand after a point at which the depth has fallen below
that of the block. -/
theorem lt_of_depth_lt
    (h : Encloses ops f j)
    {k : Nat}
    (hk : f + 1 ≤ k)
    (hdepth : depth ops k < depth ops (f + 1)) :
    j < k := by
  by_contra hle
  have hleast := h.level.least k hk (by omega)
  omega

/-- A block is closed once. -/
theorem closing_unique
    (h : Encloses ops f j)
    (h' : Encloses ops f j') :
    j = j' := by
  have hafter : ∀ {a b : Nat}, Encloses ops f a → Encloses ops f b → b ≤ a := by
    intro a b ha hb
    have hlt := ha.lt
    have heq := ha.level.eq
    have hdown := ha.closing.depth_succ
    have hbefore : b < a + 1 := hb.lt_of_depth_lt (by omega) (by omega)
    omega
  exact Nat.le_antisymm (hafter h' h) (hafter h h')

/-- An operation closes one block. -/
theorem opening_unique
    (h : Encloses ops f j)
    (h' : Encloses ops f' j) :
    f = f' := by
  have hbefore : ∀ {a b : Nat}, Encloses ops a j → Encloses ops b j → b ≤ a := by
    intro a b ha hb
    by_contra hab
    have hlt := hb.lt
    have hup := hb.opening.depth_succ
    have heq := ha.level.eq
    have heq' := hb.level.eq
    have hleast := ha.level.least b (by omega) (by omega)
    omega
  exact Nat.le_antisymm (hbefore h' h) (hbefore h h')

/-- Of two blocks, one is inside the other, or the first is closed before the second is
opened. -/
theorem nested
    (h : Encloses ops f j)
    (h' : Encloses ops f' j')
    (hlt : f < f') :
    j < f' ∨ j' < j := by
  by_contra hcross
  have hne : f' ≠ j := by
    rintro rfl
    exact h'.opening.not_closesAt h.closing
  have hup := h'.opening.depth_succ
  have heq := h.level.eq
  have hinner := h'.level.least j (by omega) (by omega)
  have houter := h.level.least f' (by omega) (by omega)
  omega

end Encloses

/-- A block is closed if the depth falls below that of the block. -/
theorem OpensAt.exists_encloses
    (hopen : OpensAt ops f)
    {k : Nat}
    (hk : f + 1 ≤ k)
    (hdepth : depth ops k < depth ops (f + 1)) :
    ∃ j, j < k ∧ Encloses ops f j := by
  -- the end is the operation with which the depth falls for the first time
  have hfalls : ∃ n, depth ops (f + 1 + n) < depth ops (f + 1) :=
    ⟨k - (f + 1), by rwa [Nat.add_sub_cancel' hk]⟩
  obtain ⟨n, hn⟩ : ∃ n, Nat.find hfalls = n + 1 := by
    refine Nat.exists_eq_succ_of_ne_zero ?_
    intro hzero
    have hspec := Nat.find_spec hfalls
    rw [hzero] at hspec
    simp at hspec
  have hspec := Nat.find_spec hfalls
  have hfirst : ∀ n' ≤ n, depth ops (f + 1) ≤ depth ops (f + 1 + n') := by
    intro n' hn'
    exact Int.not_lt.mp (Nat.find_min hfalls (by omega))
  have hle : Nat.find hfalls ≤ k - (f + 1) :=
    Nat.find_min' hfalls (by rwa [Nat.add_sub_cancel' hk])
  rw [hn, ← Nat.add_assoc] at hspec
  have hlast := hfirst n (Nat.le_refl n)
  have hclose : ClosesAt ops (f + 1 + n) := by
    rcases depth_succ_cases ops (f + 1 + n) with hopen' | hclose | hsame
    · have := hopen'.depth_succ
      omega
    · exact hclose
    · omega
  have hdown := hclose.depth_succ
  refine ⟨f + 1 + n, by omega, encloses_iff.mpr ⟨by omega, hopen, hclose, by omega, by omega, ?_⟩⟩
  intro k' hlow hhigh
  have := hfirst (k' - (f + 1)) (by omega)
  rwa [Nat.add_sub_cancel' hlow] at this

/-- An operation closes a block if the depth was lower at some point before it. -/
theorem ClosesAt.exists_encloses
    (hclose : ClosesAt ops j)
    {k : Nat}
    (hk : k ≤ j)
    (hdepth : depth ops k < depth ops j) :
    ∃ f, Encloses ops f j := by
  -- the block is opened by the operation with which the depth rises for the last time
  obtain ⟨f, hf⟩ : ∃ f, Nat.findGreatest (fun n => depth ops n < depth ops j) j = f := ⟨_, rfl⟩
  have hlow : depth ops f < depth ops j := by
    rw [← hf]
    exact Nat.findGreatest_spec (P := fun n => depth ops n < depth ops j) hk hdepth
  have hle : f ≤ j := by
    rw [← hf]
    exact Nat.findGreatest_le j
  have hlater : ∀ n, f + 1 ≤ n → n ≤ j → depth ops j ≤ depth ops n := by
    intro n hfn hnj
    have hlast : Nat.findGreatest (fun n => depth ops n < depth ops j) j < n := by
      rw [hf]
      exact hfn
    exact Int.not_lt.mp (Nat.findGreatest_is_greatest hlast hnj)
  have hlt : f < j := by
    rcases Nat.lt_or_eq_of_le hle with hlt | rfl
    · exact hlt
    · exact absurd hlow (Int.lt_irrefl _)
  have hnext := hlater (f + 1) (Nat.le_refl _) hlt
  have hopen : OpensAt ops f := by
    rcases depth_succ_cases ops f with hopen | hclose' | hsame
    · exact hopen
    · have := hclose'.depth_succ
      omega
    · omega
  have hup := hopen.depth_succ
  refine ⟨f, encloses_iff.mpr ⟨hlt, hopen, hclose, hlt, by omega, ?_⟩⟩
  intro n hfn hnj
  have := hlater n hfn hnj
  omega

/-- In a balanced list there is nothing to blame. -/
theorem Balanced.not_excess
    (h : Balanced ops) (k : Nat) :
    ¬ Excess ops k := by
  have := h.upTo (ops.take (k + 1)) (List.take_prefix _ _)
  unfold Excess
  omega

theorem Balanced.not_unclosed
    (h : Balanced ops) (f : Nat) :
    ¬ Unclosed ops f := by
  rintro ⟨hf, hunclosed⟩
  have hlevel := balanced_iff_level_length.mp h
  have hup := hf.depth_succ
  have heq := hlevel.eq
  have hleast := hlevel.least f (Nat.zero_le f) (Nat.le_of_lt hf.lt_length)
  obtain ⟨j, -, hj⟩ := hf.exists_encloses (k := ops.length) hf.lt_length (by omega)
  exact hunclosed j hj

end Blocks

end Op

namespace Pairing

open Op

/-- The table holds the blocks of a balanced list: each block is entered where it is
opened, each end belongs to one block, what stands in a block is balanced, and blocks do not
cross. -/
structure Matches (ops : List Op) (t : Pairing) : Prop where
  keys : ∀ f : Nat, (∃ j, t[f]? = some (some j)) ↔ OpensAt ops f
  onto : ∀ j, ClosesAt ops j → ∃! f : Nat, t[f]? = some (some j)
  closes : ∀ f j : Nat, t[f]? = some (some j) →
    f < j ∧ ClosesAt ops j ∧ Balanced (between ops (f + 1) j)
  nested : ∀ f j f' j' : Nat, t[f]? = some (some j) → t[f']? = some (some j') →
    f < f' → j < f' ∨ j' < j

section Scan

variable {ops : List Op} {i : Nat} {opened : List Nat} {t : Pairing}

/-- The positions are those of the blocks that are open before position `i`, innermost
first: what stands between them is balanced. -/
def Stacked (ops : List Op) : Nat → List Nat → Prop
  | i, [] => Level ops 0 i
  | i, o :: outer => Level ops (o + 1) i ∧ OpensAt ops o ∧ Stacked ops o outer

namespace Stacked

/-- Before the end, no more blocks are closed than opened. -/
theorem depth_nonneg
    (h : Stacked ops i opened) :
    ∀ k ≤ i, 0 ≤ depth ops k := by
  induction opened generalizing i with
  | nil =>
      intro k hk
      have := h.least k (Nat.zero_le k) hk
      rwa [depth_zero] at this
  | cons o outer ih =>
      obtain ⟨hlevel, hopen, houter⟩ := h
      intro k hk
      by_cases hko : k ≤ o
      · exact ih houter k hko
      · have hup := hopen.depth_succ
        have hbase := ih houter o (Nat.le_refl o)
        have := hlevel.least k (by omega) hk
        omega

theorem skip
    (h : Stacked ops i opened)
    (hi : depth ops (i + 1) = depth ops i) :
    Stacked ops (i + 1) opened := by
  cases opened with
  | nil => exact Level.snoc h hi
  | cons o outer => exact ⟨h.1.snoc hi, h.2⟩

theorem enter
    (h : Stacked ops i opened)
    (hi : OpensAt ops i) :
    Stacked ops (i + 1) (i :: opened) :=
  ⟨Level.refl ops (i + 1), hi, h⟩

theorem leave
    {o : Nat} {outer : List Nat}
    (h : Stacked ops i (o :: outer))
    (hi : ClosesAt ops i) :
    Stacked ops (i + 1) outer := by
  obtain ⟨hlevel, hopen, houter⟩ := h
  cases outer with
  | nil => exact Level.block houter hopen hlevel hi
  | cons o' outer => exact ⟨houter.1.block hopen hlevel hi, houter.2⟩

/-- The innermost open block is closed by the next operation that closes one. -/
theorem encloses
    {o : Nat} {outer : List Nat}
    (h : Stacked ops i (o :: outer))
    (hi : ClosesAt ops i) :
    Encloses ops o i :=
  encloses_iff.mpr ⟨h.1.le, h.2.1, hi, h.1⟩

end Stacked

/-- What holds when the operations before position `i` have been scanned. -/
structure Scanned (ops : List Op) (i : Nat) (opened : List Nat) (t : Pairing) : Prop where
  stack : Stacked ops i opened
  size : t.size = ops.length
  entries : ∀ f j, t[f]? = some (some j) ↔ j < i ∧ Encloses ops f j

namespace Scanned

theorem start
    (ops : List Op) :
    Scanned ops 0 [] (Array.replicate ops.length none) where
  stack := Level.refl ops 0
  size := Array.size_replicate
  entries := by
    intro f j
    simp [Array.getElem?_replicate]

/-- An operation that closes no block changes no entry. -/
theorem entries_succ
    (h : Scanned ops i opened t)
    (hi : ¬ ClosesAt ops i) (f j : Nat) :
    t[f]? = some (some j) ↔ j < i + 1 ∧ Encloses ops f j := by
  rw [h.entries]
  constructor
  · rintro ⟨hj, hencloses⟩
    exact ⟨Nat.lt_succ_of_lt hj, hencloses⟩
  · rintro ⟨hj, hencloses⟩
    refine ⟨Nat.lt_of_le_of_ne (Nat.le_of_lt_succ hj) ?_, hencloses⟩
    rintro rfl
    exact hi hencloses.closing

theorem skip
    (h : Scanned ops i opened t)
    (hi : ¬ ClosesAt ops i)
    (hdepth : depth ops (i + 1) = depth ops i) :
    Scanned ops (i + 1) opened t :=
  ⟨h.stack.skip hdepth, h.size, h.entries_succ hi⟩

theorem enter
    (h : Scanned ops i opened t)
    (hi : OpensAt ops i) :
    Scanned ops (i + 1) (i :: opened) t :=
  ⟨h.stack.enter hi, h.size, h.entries_succ hi.not_closesAt⟩

/-- An operation that closes a block adds the entry of the innermost open block. -/
theorem leave
    {o : Nat} {outer : List Nat}
    (h : Scanned ops i (o :: outer) t)
    (hi : ClosesAt ops i) :
    Scanned ops (i + 1) outer (t.setIfInBounds o (some i)) := by
  have hencloses := h.stack.encloses hi
  have ho : o < t.size := by
    rw [h.size]
    exact Nat.lt_trans hencloses.lt hi.lt_length
  refine ⟨h.stack.leave hi, by rw [Array.size_setIfInBounds, h.size], ?_⟩
  intro f j
  by_cases hf : o = f
  · subst hf
    rw [Array.getElem?_setIfInBounds_self_of_lt ho]
    constructor
    · intro hentry
      cases hentry
      exact ⟨Nat.lt_succ_self i, hencloses⟩
    · rintro ⟨-, hj⟩
      rw [hencloses.closing_unique hj]
  · rw [Array.getElem?_setIfInBounds_ne hf, h.entries]
    constructor
    · rintro ⟨hj, hfj⟩
      exact ⟨Nat.lt_succ_of_lt hj, hfj⟩
    · rintro ⟨hj, hfj⟩
      refine ⟨Nat.lt_of_le_of_ne (Nat.le_of_lt_succ hj) ?_, hfj⟩
      rintro rfl
      exact hf (hencloses.opening_unique hfj)

end Scanned

/-- What the result of a scan says about the operations. -/
def Judged (ops : List Op) : Except BlockError Pairing → Prop
  | .ok t => Balanced ops ∧ ∀ f j, t[f]? = some (some j) ↔ Encloses ops f j
  | .error ⟨i, .unmatchedIf⟩ => IsLeast {k | Excess ops k} i
  | .error ⟨i, .unmatchedFi⟩ => (∀ k, ¬ Excess ops k) ∧ IsGreatest {f | Unclosed ops f} i

/-- The end of the operations, with no block open. -/
theorem Scanned.judged_ok
    (h : Scanned ops ops.length [] t) :
    Judged ops (.ok t) := by
  refine ⟨balanced_iff_level_length.mpr h.stack, ?_⟩
  intro f j
  rw [h.entries]
  exact ⟨And.right, fun hfj => ⟨hfj.closing.lt_length, hfj⟩⟩

/-- An operation that closes a block while none is open. -/
theorem Scanned.judged_unmatchedIf
    (h : Scanned ops i [] t)
    (hi : ClosesAt ops i) :
    Judged ops (.error ⟨i, .unmatchedIf⟩) := by
  have hlevel : Level ops 0 i := h.stack
  constructor
  · have heq := hlevel.eq
    have hdown := hi.depth_succ
    rw [depth_zero] at heq
    exact excess_iff.mpr (by omega)
  · intro k hk
    have hneg := excess_iff.mp hk
    by_contra hki
    have := h.stack.depth_nonneg (k + 1) (by omega)
    omega

/-- The end of the operations, with a block open. -/
theorem Scanned.judged_unmatchedFi
    {o : Nat} {outer : List Nat}
    (h : Scanned ops ops.length (o :: outer) t) :
    Judged ops (.error ⟨o, .unmatchedFi⟩) := by
  obtain ⟨hlevel, hopen, -⟩ := h.stack
  refine ⟨?_, ⟨hopen, ?_⟩, ?_⟩
  · intro k hk
    have hneg := excess_iff.mp hk
    by_cases hlength : k + 1 ≤ ops.length
    · have := h.stack.depth_nonneg (k + 1) hlength
      omega
    · rw [depth_of_length_le (by omega)] at hneg
      have := h.stack.depth_nonneg ops.length (Nat.le_refl _)
      omega
  · intro j hj
    have hlt := hj.lt
    have hlength := hj.closing.lt_length
    have heq := hj.level.eq
    have hdown := hj.closing.depth_succ
    have := hlevel.least (j + 1) (by omega) (by omega)
    omega
  · -- what stands after the innermost open block is balanced, so its blocks are closed
    rintro f ⟨hf, hunclosed⟩
    by_contra hof
    have hlength := hf.lt_length
    have hup := hf.depth_succ
    have heq := hlevel.eq
    have hleast := hlevel.least f (by omega) (by omega)
    obtain ⟨j, -, hj⟩ := hf.exists_encloses (k := ops.length) hlength (by omega)
    exact hunclosed j hj

/-- Every scan ends with a result that is right about the operations. -/
theorem scan_judged
    (rest : List Op) :
    ∀ {i : Nat} {opened : List Nat} {t : Pairing},
      ops.drop i = rest →
      i ≤ ops.length →
      Scanned ops i opened t →
      Judged ops (scan i opened t rest) := by
  induction rest with
  | nil =>
      intro i opened t hrest hi h
      have hend : i = ops.length := Nat.le_antisymm hi (List.drop_eq_nil_iff.mp hrest)
      subst hend
      cases opened with
      | nil => exact h.judged_ok
      | cons o outer => exact h.judged_unmatchedFi
  | cons op rest ih =>
      intro i opened t hrest hi h
      have hop : ops[i]? = some op := by
        rw [← List.head?_drop, hrest]
        rfl
      have hlt : i < ops.length := (List.getElem?_eq_some_iff.mp hop).1
      have hrest' : ops.drop (i + 1) = rest := by
        rw [← List.tail_drop, hrest]
        rfl
      have hnext : ∀ {opened : List Nat} {t : Pairing}, Scanned ops (i + 1) opened t →
          Judged ops (scan (i + 1) opened t rest) := ih hrest' hlt
      cases op with
      | openBlock => exact hnext (h.enter hop)
      | closeBlock a b c =>
          cases opened with
          | nil => exact h.judged_unmatchedIf ⟨a, b, c, hop⟩
          | cons o outer => exact hnext (h.leave ⟨a, b, c, hop⟩)
      | _ =>
          refine hnext (h.skip ?_ ?_)
          · rintro ⟨a, b, c, hclose⟩
            rw [hop] at hclose
            cases hclose
          · rw [depth_succ hop]
            simp [opens, closes]

theorem ofOps_judged
    (ops : List Op) :
    Judged ops (ofOps ops) :=
  scan_judged ops List.drop_zero (Nat.zero_le _) (Scanned.start ops)

end Scan

section Whole

variable {ops : List Op}

/-- A table that holds exactly the blocks of a balanced list. -/
theorem matches_of_encloses
    {t : Pairing}
    (h : Balanced ops)
    (ht : ∀ f j, t[f]? = some (some j) ↔ Encloses ops f j) :
    Matches ops t where
  keys := by
    intro f
    constructor
    · rintro ⟨j, hj⟩
      exact ((ht f j).mp hj).opening
    · intro hf
      by_contra hnone
      refine h.not_unclosed f ⟨hf, ?_⟩
      intro j hj
      exact hnone ⟨j, (ht f j).mpr hj⟩
  onto := by
    intro j hj
    have hlevel := balanced_iff_level_length.mp h
    have hdown := hj.depth_succ
    have hleast := hlevel.least (j + 1) (Nat.zero_le _) hj.lt_length
    rw [depth_zero] at hleast
    obtain ⟨f, hf⟩ := hj.exists_encloses (Nat.zero_le j) (by rw [depth_zero]; omega)
    refine ⟨f, (ht f j).mpr hf, ?_⟩
    intro f' hf'
    exact ((ht f' j).mp hf').opening_unique hf
  closes := by
    intro f j hj
    have hencloses := (ht f j).mp hj
    exact ⟨hencloses.lt, hencloses.closing, hencloses.inner⟩
  nested := by
    intro f j f' j' hj hj'
    exact ((ht f j).mp hj).nested ((ht f' j').mp hj')

/-- The entries of the table are the blocks. -/
theorem encloses_of_ofOps
    {t : Pairing}
    (ht : ofOps ops = .ok t) {f j : Nat} :
    t[f]? = some (some j) ↔ Encloses ops f j := by
  have hjudged := ofOps_judged ops
  rw [ht] at hjudged
  exact hjudged.2 f j

theorem exists_ofOps_iff :
    (∃ t, ofOps ops = .ok t) ↔ Balanced ops := by
  have hjudged := ofOps_judged ops
  constructor
  · rintro ⟨t, ht⟩
    rw [ht] at hjudged
    exact hjudged.1
  · intro hbalanced
    cases hresult : ofOps ops with
    | ok t => exact ⟨t, rfl⟩
    | error e =>
        obtain ⟨i, cause⟩ := e
        rw [hresult] at hjudged
        cases cause with
        | unmatchedIf => exact absurd hjudged.1 (hbalanced.not_excess i)
        | unmatchedFi => exact absurd hjudged.2.1 (hbalanced.not_unclosed i)

theorem ofOps_eq_unmatchedIf_iff
    {i : Nat} :
    ofOps ops = .error ⟨i, .unmatchedIf⟩ ↔ IsLeast {k | Excess ops k} i := by
  have hjudged := ofOps_judged ops
  constructor
  · intro hresult
    rw [hresult] at hjudged
    exact hjudged
  · intro hleast
    cases hresult : ofOps ops with
    | ok t =>
        rw [hresult] at hjudged
        exact absurd hleast.1 (hjudged.1.not_excess i)
    | error e =>
        obtain ⟨i', cause⟩ := e
        rw [hresult] at hjudged
        cases cause with
        | unmatchedIf => rw [IsLeast.unique hjudged hleast]
        | unmatchedFi => exact absurd hleast.1 (hjudged.1 i)

theorem ofOps_eq_unmatchedFi_iff
    {i : Nat} :
    ofOps ops = .error ⟨i, .unmatchedFi⟩ ↔
      (∀ k, ¬ Excess ops k) ∧ IsGreatest {f | Unclosed ops f} i := by
  have hjudged := ofOps_judged ops
  constructor
  · intro hresult
    rw [hresult] at hjudged
    exact hjudged
  · rintro ⟨hnone, hgreatest⟩
    cases hresult : ofOps ops with
    | ok t =>
        rw [hresult] at hjudged
        exact absurd hgreatest.1 (hjudged.1.not_unclosed i)
    | error e =>
        obtain ⟨i', cause⟩ := e
        rw [hresult] at hjudged
        cases cause with
        | unmatchedIf => exact absurd hjudged.1 (hnone i')
        | unmatchedFi => rw [hjudged.2.unique hgreatest]

/-- **Pairing is bracket matching.**  The blocks of a list of operations pair exactly if
they are balanced, and then the table is their matching.  An operation that closes a block
is blamed exactly if it is the first one up to which more blocks are closed than opened; one
that opens a block is blamed exactly if there is no such operation, and it is the last that
opens a block which nothing closes. -/
theorem ofOps_matches_brackets
    (ops : List Op) :
    ((∃ t, ofOps ops = .ok t) ↔ Balanced ops) ∧
    (∀ t, ofOps ops = .ok t → Matches ops t) ∧
    (∀ i, ofOps ops = .error ⟨i, .unmatchedIf⟩ ↔ IsLeast {k | Excess ops k} i) ∧
    ∀ i, ofOps ops = .error ⟨i, .unmatchedFi⟩ ↔
      (∀ k, ¬ Excess ops k) ∧ IsGreatest {f | Unclosed ops f} i := by
  refine ⟨exists_ofOps_iff, ?_, fun i => ofOps_eq_unmatchedIf_iff,
    fun i => ofOps_eq_unmatchedFi_iff⟩
  intro t ht
  have hjudged := ofOps_judged ops
  rw [ht] at hjudged
  exact matches_of_encloses hjudged.1 hjudged.2

end Whole

end Pairing
end Contrary
