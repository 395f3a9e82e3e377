import Contrary.Proofs.Blocks

/-!
# The table of blocks

What stands in the table of a program whose blocks pair.

**Entries.**  `Nesting.Tabulated t i n` says that the table `t` describes the nesting `n`,
whose operations stand from position `i` on: the entry of an operation that opens a
block is the position of the one that closes it, and no other operation has an entry.
The table that the scan makes is such a table (`tabulated_ofOps`).

**Pairs.**  `Nesting.pairs` lists the pairs of a nesting, outer blocks before the blocks
inside them.  These are the pairs of the table, in the same order (`pairs_of_tabulated`),
and each of them lies within its nesting (`mem_pairs`).
-/

namespace Contrary
namespace Nesting

section Entries

variable {j : Nat}

theorem size_pairUp
    (n : Nesting) :
    ∀ (i : Nat) (t : Pairing), (n.pairUp i t).size = t.size := by
  induction n with
  | done =>
      intro i t
      rfl
  | op l next ih =>
      intro i t
      exact ih (i + 1) t
  | block a b c body next ihBody ihNext =>
      intro i t
      simp only [pairUp, ihNext, Array.size_setIfInBounds, ihBody]

/-- The pairs of a nesting are entered at its own positions only. -/
theorem pairUp_getElem?_of_outside
    (n : Nesting) :
    ∀ {i : Nat} {t : Pairing},
      (j < i ∨ i + n.width ≤ j) →
      (n.pairUp i t)[j]? = t[j]? := by
  induction n with
  | done =>
      intro i t _
      rfl
  | op l next ih =>
      intro i t hj
      simp only [width] at hj
      exact ih (by omega)
  | block a b c body next ihBody ihNext =>
      intro i t hj
      simp only [width] at hj
      have hne : i ≠ j := by omega
      simp only [pairUp]
      rw [ihNext (by omega), Array.getElem?_setIfInBounds_ne hne, ihBody (by omega)]

/-- The table describes the operations of a nesting from position `i` on. -/
def Tabulated (t : Pairing) : Nat → Nesting → Prop
  | _, .done => True
  | i, .op _ next => t[i]? = some none ∧ next.Tabulated t (i + 1)
  | i, .block _ _ _ body next =>
      t[i]? = some (some (i + body.width + 1)) ∧ body.Tabulated t (i + 1) ∧
        t[i + body.width + 1]? = some none ∧ next.Tabulated t (i + body.width + 2)

/-- Only the entries at the positions of a nesting matter. -/
theorem Tabulated.congr
    {t t' : Pairing} {n : Nesting} :
    ∀ {i : Nat},
      n.Tabulated t i →
      (∀ j, i ≤ j → j < i + n.width → t'[j]? = t[j]?) →
      n.Tabulated t' i := by
  induction n with
  | done =>
      intro i _ _
      trivial
  | op l next ih =>
      intro i h heq
      simp only [width] at heq
      refine ⟨(heq i (by omega) (by omega)).trans h.1, ih h.2 ?_⟩
      intro j hj hlt
      exact heq j (by omega) (by omega)
  | block a b c body next ihBody ihNext =>
      intro i h heq
      simp only [width] at heq
      obtain ⟨hopen, hbody, hclose, hnext⟩ := h
      refine ⟨(heq i (by omega) (by omega)).trans hopen, ihBody hbody ?_,
        (heq _ (by omega) (by omega)).trans hclose, ihNext hnext ?_⟩
      · intro j hj hlt
        exact heq j (by omega) (by omega)
      · intro j hj hlt
        exact heq j (by omega) (by omega)

/-- Entering the pairs of a nesting into a table that is empty there. -/
theorem tabulated_pairUp
    (n : Nesting) :
    ∀ {i : Nat} {t : Pairing},
      (∀ j, i ≤ j → j < i + n.width → t[j]? = some none) →
      n.Tabulated (n.pairUp i t) i := by
  induction n with
  | done =>
      intro i t _
      trivial
  | op l next ih =>
      intro i t hnone
      simp only [width] at hnone
      refine ⟨?_, ih ?_⟩
      · exact (next.pairUp_getElem?_of_outside (by omega)).trans (hnone i (by omega) (by omega))
      · intro j hj hlt
        exact hnone j (by omega) (by omega)
  | block a b c body next ihBody ihNext =>
      intro i t hnone
      simp only [width] at hnone
      have hsize : i < (body.pairUp (i + 1) t).size := by
        rw [size_pairUp]
        exact (Array.getElem?_eq_some_iff.mp (hnone i (by omega) (by omega))).1
      -- what stands inside the block was entered before its own pair
      have hbody : body.Tabulated (body.pairUp (i + 1) t) (i + 1) := by
        refine ihBody ?_
        intro j hj hlt
        exact hnone j (by omega) (by omega)
      have hinner : ∀ j, j < i + body.width + 2 →
          ((block a b c body next).pairUp i t)[j]? =
            ((body.pairUp (i + 1) t).setIfInBounds i (some (i + body.width + 1)))[j]? := by
        intro j hj
        exact next.pairUp_getElem?_of_outside (by omega)
      refine ⟨?_, hbody.congr ?_, ?_, ihNext ?_⟩
      · rw [hinner i (by omega), Array.getElem?_setIfInBounds_self_of_lt hsize]
      · intro j hj hlt
        rw [hinner j (by omega), Array.getElem?_setIfInBounds_ne (by omega)]
      · rw [hinner _ (by omega), Array.getElem?_setIfInBounds_ne (by omega),
          body.pairUp_getElem?_of_outside (by omega)]
        exact hnone _ (by omega) (by omega)
      · intro j hj hlt
        rw [Array.getElem?_setIfInBounds_ne (by omega), body.pairUp_getElem?_of_outside (by omega)]
        exact hnone j (by omega) (by omega)

end Entries

section Pairs

/-- The pairs of the blocks, where the first operation is at position `i`. -/
def pairs (i : Nat) : Nesting → List (Nat × Nat)
  | .done => []
  | .op _ next => next.pairs (i + 1)
  | .block _ _ _ body next =>
      (i, i + body.width + 1) :: (body.pairs (i + 1) ++ next.pairs (i + body.width + 2))

/-- A pair lies within its nesting, and is closed after it is opened. -/
theorem mem_pairs
    {n : Nesting} {q : Nat × Nat} :
    ∀ {i : Nat}, q ∈ n.pairs i → i ≤ q.1 ∧ q.1 < q.2 ∧ q.2 < i + n.width := by
  induction n with
  | done =>
      intro i hq
      cases hq
  | op l next ih =>
      intro i hq
      have := ih hq
      simp only [width]
      omega
  | block a b c body next ihBody ihNext =>
      intro i hq
      simp only [width]
      rcases List.mem_cons.mp hq with rfl | hq
      · exact ⟨Nat.le_refl _, by omega, by omega⟩
      · rcases List.mem_append.mp hq with hq | hq
        · have := ihBody hq
          omega
        · have := ihNext hq
          omega

/-- The positions of a block: the two bounds, and what stands inside and after it. -/
theorem range'_block
    (i w w' : Nat) :
    List.range' i (w + w' + 2) =
      i :: (List.range' (i + 1) w ++ (i + w + 1) :: List.range' (i + w + 2) w') := by
  have hfirst : w + w' + 2 = w + (w' + 1) + 1 := by omega
  rw [hfirst, List.range'_succ, ← List.range'_append_1, List.range'_succ]
  have hstart : i + 1 + w = i + w + 1 := by omega
  rw [hstart]

/-- The entries of a table at the positions of a nesting are its pairs. -/
theorem filterMap_of_tabulated
    {t : Pairing} {n : Nesting} :
    ∀ {i : Nat},
      n.Tabulated t i →
      ((List.range' i n.width).filterMap fun k => t[k]?.join.map fun c => (k, c)) = n.pairs i := by
  induction n with
  | done =>
      intro i _
      rfl
  | op l next ih =>
      intro i h
      obtain ⟨hi, hnext⟩ := h
      rw [width, List.range'_succ, List.filterMap_cons, hi]
      exact ih hnext
  | block a b c body next ihBody ihNext =>
      intro i h
      obtain ⟨hopen, hbody, hclose, hnext⟩ := h
      rw [width, range'_block, List.filterMap_cons, List.filterMap_append, List.filterMap_cons,
        hopen, hclose, ihBody hbody]
      exact congrArg (fun qs => (i, i + body.width + 1) :: (body.pairs (i + 1) ++ qs)) (ihNext hnext)

end Pairs

end Nesting

section Table

/-- The pairs of a table, position by position. -/
theorem Pairing.pairs_eq
    (t : Pairing) :
    t.pairs = (List.range' 0 t.size).filterMap fun k => t[k]?.join.map fun c => (k, c) := by
  have hentries : t.toList.zipIdx = (List.range' 0 t.size).map fun k => (t.getD k none, k) := by
    refine List.ext_getElem (by simp) ?_
    intro k hk _
    have hlt : k < t.size := by simpa using hk
    simp [hlt]
  unfold Pairing.pairs
  rw [hentries, List.filterMap_map]
  refine List.filterMap_congr ?_
  intro k _
  simp only [Function.comp_apply, Array.getD_eq_getD_getElem?]
  cases t[k]? <;> rfl

/-- The table of a program whose blocks pair describes its nesting, and its pairs are
those of the nesting. -/
theorem tabulated_ofOps
    (lineCount : Int) {ls : List OpLine} {t : Pairing}
    (ht : Pairing.ofOps (ls.map OpLine.op) = .ok t) :
    ∃ n, Nesting.ofOps lineCount ls = .ok n ∧ n.Spells ls ∧ n.Tabulated t 0 ∧ t.pairs = n.pairs 0 := by
  cases hn : Nesting.ofOps lineCount ls with
  | error e =>
      obtain ⟨j, l, -, -, hpairs⟩ := ofOps_of_nesting_error hn
      rw [ht] at hpairs
      cases hpairs
  | ok n =>
      obtain ⟨hspells, hpairs⟩ := ofOps_of_nesting hn
      rw [ht] at hpairs
      cases hpairs
      have hwidth := hspells.length_eq
      have htab : n.Tabulated (n.pairUp 0 (Array.replicate ls.length none)) 0 := by
        refine n.tabulated_pairUp ?_
        intro j _ hj
        have hlt : j < ls.length := by omega
        simp [hlt]
      have hsize : (n.pairUp 0 (Array.replicate ls.length none)).size = n.width := by
        rw [Nesting.size_pairUp, Array.size_replicate, hwidth]
      refine ⟨n, rfl, hspells, htab, ?_⟩
      rw [Pairing.pairs_eq, hsize]
      exact Nesting.filterMap_of_tabulated htab

end Table

end Contrary
