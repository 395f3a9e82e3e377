import Contrary.Program.OfTokens
import Contrary.Proofs.Phrase

/-!
# Programs that were read are well formed

What holds of every program that was read from token lines, whatever the lines
are.  The machine and the generator of C index their tables by the handles of a
program without a check, and this is what they rely on.

**Invariant.**  `Program.ReadFrom lines below p` says what is known of the
program `p` after the first `below` of the token lines.  It holds of the empty
program (`readFrom_empty`), and every line keeps it (`ReadFrom.push`): a line
that uses names keeps all tables and places no flag, and a line that enters a
name gives it the next handle, which no operation before it can mention.

**Results.**
* `readFrom_ofTokenLines`: the invariant holds of every program that was read.
* `ofTokenLines_wellFormed`: the same, spelled out.
-/

namespace Contrary
namespace Program

/-- The position of the first operation with a property. -/
def firstOp? (p : Program) (q : Op → Bool) : Option Nat :=
  p.ops.toList.findIdx? fun l => q l.op

/-- The position of the first operation that mentions a handle of a kind. -/
def firstMention? (p : Program) (k : NameKind) (h : Nat) : Option Nat :=
  p.firstOp? fun op => h ∈ op.mentions k

/-- The position of the first operation that defines an array. -/
def firstDefinition? (p : Program) (a : Nat) : Option Nat :=
  p.firstOp? fun op => op = .defineArray a

/-- The token line with a number, where the first line has number 1. -/
def numberedLine? (lines : List TokenLine) (line : Int) : Option TokenLine :=
  lines[(line - 1).toNat]?

/-- What is known of a program after the first `below` of its token lines. -/
structure ReadFrom (lines : List TokenLine) (below : Nat) (p : Program) : Prop where
  distinct : p.names.all.Nodup
  allowed : ∀ k, ∀ name ∈ p.names.table k, Spelling.allowed name k = true
  covered : ∀ l ∈ p.ops.toList, p.names.Covers l.op.mentions
  /-- The first mention of a handle introduces it. -/
  introduced : ∀ k h, h < (p.names.table k).length →
    ∃ i l, p.firstMention? k h = some i ∧ p.ops.toList[i]? = some l ∧ l.op = k.introduction h
  /-- Handles are introduced in their order. -/
  ordered : ∀ k h h' i i', h < h' → h' < (p.names.table k).length →
    p.firstMention? k h = some i → p.firstMention? k h' = some i' → i < i'
  markedOnce : ∀ f, f < (p.names.table .flag).length →
    (p.ops.toList.map OpLine.op).count (.mark f) = 1
  /-- The size of an array is the number in its first definition. -/
  sized : ∀ a d, p.names.arrays.toList[a]? = some d →
    ∃ i l tl, ∃ n : Int32, p.firstDefinition? a = some i ∧ p.ops.toList[i]? = some l ∧
      numberedLine? lines l.line = some tl ∧ d.size = n.toInt ∧
      code tl = [.name (ascii "undefine"), .name (ascii "single"), .name d.name, .bracket .left,
        .literal n, .bracket .right]
  increasing : (p.ops.toList.map OpLine.line).Pairwise (· < ·)
  located : ∀ l ∈ p.ops.toList, 1 ≤ l.line ∧ l.line ≤ below ∧
    ∃ tl, numberedLine? lines l.line = some tl ∧ l.text = tl.raw

section Push

/-- A program with one more operation, under new names. -/
def push (p : Program) (names : Names) (l : OpLine) : Program :=
  { p with names := names, ops := p.ops.push l }

variable {p : Program} {names : Names} {l : OpLine}

@[simp] theorem push_names :
    (p.push names l).names = names :=
  rfl

@[simp] theorem push_ops :
    (p.push names l).ops.toList = p.ops.toList ++ [l] := by
  simp [push]

theorem firstOp?_lt
    {q : Op → Bool} {i : Nat}
    (hi : p.firstOp? q = some i) :
    i < p.ops.toList.length :=
  (List.findIdx?_eq_some_iff_getElem.mp hi).1

theorem firstOp?_push_of_some
    {q : Op → Bool} {i : Nat}
    (hi : p.firstOp? q = some i) :
    (p.push names l).firstOp? q = some i := by
  unfold firstOp? at hi ⊢
  rw [push_ops, List.findIdx?_append, hi]
  rfl

theorem firstOp?_push_of_none
    {q : Op → Bool}
    (hnone : p.firstOp? q = none)
    (hq : q l.op = true) :
    (p.push names l).firstOp? q = some p.ops.toList.length := by
  unfold firstOp? at hnone ⊢
  rw [push_ops, List.findIdx?_append, hnone]
  simp [hq]

/-- An operation that was found is still there after the push. -/
theorem getElem?_push
    {i : Nat} {l' : OpLine}
    (hi : p.ops.toList[i]? = some l') :
    (p.push names l).ops.toList[i]? = some l' := by
  have hlt := (List.getElem?_eq_some_iff.mp hi).1
  rw [push_ops, List.getElem?_append_left hlt, hi]

/-- A handle outside the tables is mentioned by no operation. -/
theorem firstMention?_eq_none
    (hcov : ∀ l ∈ p.ops.toList, p.names.Covers l.op.mentions)
    {k : NameKind} {h : Nat}
    (hh : (p.names.table k).length ≤ h) :
    p.firstMention? k h = none := by
  unfold firstMention? firstOp?
  rw [List.findIdx?_eq_none_iff]
  intro l hl
  simp only [decide_eq_false_iff_not]
  intro hm
  have := hcov l hl k h hm
  omega

/-- A handle outside the tables is introduced by no operation. -/
theorem introduction_notMem
    (hcov : ∀ l ∈ p.ops.toList, p.names.Covers l.op.mentions)
    {k : NameKind} {h : Nat}
    (hh : (p.names.table k).length ≤ h) :
    k.introduction h ∉ p.ops.toList.map OpLine.op := by
  intro hm
  obtain ⟨l, hl, hop⟩ := List.mem_map.mp hm
  have hmention : h ∈ l.op.mentions k := by
    rw [hop]
    exact NameKind.mem_mentions_introduction.mpr ⟨rfl, rfl⟩
  have := hcov l hl k h hmention
  omega

end Push

theorem readFrom_empty
    (lines : List TokenLine) (lineCount : Int) :
    ReadFrom lines 0 ⟨Names.empty, #[], lineCount⟩ where
  distinct := by simp [Names.empty, Names.all, Names.table]
  allowed := by
    intro k name hm
    cases k <;> simp [Names.empty, Names.table] at hm
  covered := by simp
  introduced := by
    intro k h hh
    cases k <;> simp [Names.empty, Names.table] at hh
  ordered := by
    intro k h h' i i' _ _ hi
    simp [firstMention?, firstOp?] at hi
  markedOnce := by simp [Names.empty, Names.table]
  sized := by simp [Names.empty]
  increasing := by simp
  located := by simp

namespace ReadFrom

variable {lines : List TokenLine} {below : Nat} {p : Program} {names : Names} {tl : TokenLine}
  {op : Op}

theorem increasing_push
    (hp : ReadFrom lines below p) :
    ((p.push names ⟨op, below + 1, tl.raw⟩).ops.toList.map OpLine.line).Pairwise (· < ·) := by
  rw [push_ops, List.map_append, List.pairwise_append]
  refine ⟨hp.increasing, by simp, ?_⟩
  intro x hx y hy
  obtain ⟨l, hl, rfl⟩ := List.mem_map.mp hx
  have hle := (hp.located l hl).2.1
  simp only [List.map_cons, List.map_nil, List.mem_singleton] at hy
  omega

theorem located_push
    (hp : ReadFrom lines below p)
    (htl : lines[below]? = some tl) :
    ∀ l ∈ (p.push names ⟨op, below + 1, tl.raw⟩).ops.toList,
      1 ≤ l.line ∧ l.line ≤ (below + 1 : Nat) ∧
        ∃ tl, numberedLine? lines l.line = some tl ∧ l.text = tl.raw := by
  intro l hl
  rw [push_ops, List.mem_append, List.mem_singleton] at hl
  rcases hl with hl | rfl
  · obtain ⟨h1, h2, h3⟩ := hp.located l hl
    exact ⟨h1, by omega, h3⟩
  · refine ⟨by simp only; omega, by simp only; omega, tl, ?_, rfl⟩
    simpa [numberedLine?] using htl

/-- The first mention of a handle that is in the tables does not change. -/
theorem firstMention?_push
    (hp : ReadFrom lines below p) (l : OpLine)
    {k : NameKind} {h : Nat}
    (hh : h < (p.names.table k).length) :
    (p.push names l).firstMention? k h = p.firstMention? k h := by
  obtain ⟨i, -, hi, -⟩ := hp.introduced k h hh
  rw [hi]
  exact firstOp?_push_of_some hi

theorem introduced_push_of_lt
    (hp : ReadFrom lines below p) (l : OpLine)
    {k : NameKind} {h : Nat}
    (hh : h < (p.names.table k).length) :
    ∃ i l', (p.push names l).firstMention? k h = some i ∧
      (p.push names l).ops.toList[i]? = some l' ∧ l'.op = k.introduction h := by
  obtain ⟨i, l', hi, hl, hop⟩ := hp.introduced k h hh
  exact ⟨i, l', firstOp?_push_of_some hi, getElem?_push hl, hop⟩

theorem ordered_push_of_lt
    (hp : ReadFrom lines below p) (l : OpLine)
    {k : NameKind} {h h' i i' : Nat}
    (hlt : h < h')
    (hh' : h' < (p.names.table k).length)
    (hi : (p.push names l).firstMention? k h = some i)
    (hi' : (p.push names l).firstMention? k h' = some i') :
    i < i' := by
  rw [hp.firstMention?_push l (by omega)] at hi
  rw [hp.firstMention?_push l hh'] at hi'
  exact hp.ordered k h h' i i' hlt hh' hi hi'

theorem sized_push_of_some
    (hp : ReadFrom lines below p) (l : OpLine)
    {a : Nat} {d : ArrayDecl}
    (hd : p.names.arrays.toList[a]? = some d) :
    ∃ i l' tl, ∃ n : Int32, (p.push names l).firstDefinition? a = some i ∧
      (p.push names l).ops.toList[i]? = some l' ∧
      numberedLine? lines l'.line = some tl ∧ d.size = n.toInt ∧
      code tl = [.name (ascii "undefine"), .name (ascii "single"), .name d.name, .bracket .left,
        .literal n, .bracket .right] := by
  obtain ⟨i, l', tl, n, hi, hl, htl, hsize, hcode⟩ := hp.sized a d hd
  exact ⟨i, l', tl, n, firstOp?_push_of_some hi, getElem?_push hl, htl, hsize, hcode⟩

/-- A line that uses names keeps the invariant. -/
theorem push_uses
    (hp : ReadFrom lines below p)
    (htl : lines[below]? = some tl)
    (hcov : p.names.Covers op.mentions)
    (hmark : ∀ f, op ≠ .mark f) :
    ReadFrom lines (below + 1) (p.push p.names ⟨op, below + 1, tl.raw⟩) where
  distinct := hp.distinct
  allowed := hp.allowed
  covered := by
    intro l hl
    rw [push_ops, List.mem_append, List.mem_singleton] at hl
    rcases hl with hl | rfl
    · exact hp.covered l hl
    · exact hcov
  introduced := fun k h hh => introduced_push_of_lt hp _ hh
  ordered := fun k h h' i i' hlt hh' hi hi' => ordered_push_of_lt hp _ hlt hh' hi hi'
  markedOnce := by
    intro f hf
    rw [push_ops, List.map_append, List.count_append]
    simp only [List.map_cons, List.map_nil]
    rw [List.count_singleton, hp.markedOnce f hf]
    simp [hmark f]
  sized := fun a d hd => sized_push_of_some hp _ hd
  increasing := hp.increasing_push
  located := hp.located_push htl

section Enter

variable {k : NameKind} {name : Bytes} {size : Int} {l : OpLine}

/-- A handle of the longer tables was there before or is the new one. -/
theorem lt_or_eq_of_lt_insert
    {k' : NameKind} {h : Nat}
    (hh : h < ((p.names.insert name size k).1.table k').length) :
    h < (p.names.table k').length ∨ (k' = k ∧ h = (p.names.table k).length) := by
  by_cases hk : k' = k
  · subst hk
    rw [Names.table_insert_self, List.length_append, List.length_singleton] at hh
    by_cases hlast : h = (p.names.table k').length
    · exact Or.inr ⟨rfl, hlast⟩
    · exact Or.inl (by omega)
  · rw [Names.table_insert_of_ne _ _ _ hk] at hh
    exact Or.inl hh

/-- The new handle is first mentioned by the operation that introduces it. -/
theorem firstMention?_new
    (hp : ReadFrom lines below p)
    (hl : l.op = k.introduction (p.names.table k).length) :
    (p.push names l).firstMention? k (p.names.table k).length = some p.ops.toList.length := by
  refine firstOp?_push_of_none (firstMention?_eq_none hp.covered (Nat.le_refl _)) ?_
  rw [hl]
  exact decide_eq_true (NameKind.mem_mentions_introduction.mpr ⟨rfl, rfl⟩)

theorem allowed_insert
    (hp : ReadFrom lines below p)
    (hok : Spelling.allowed name k = true) :
    ∀ k', ∀ x ∈ (p.names.insert name size k).1.table k', Spelling.allowed x k' = true := by
  intro k' x hx
  by_cases hk : k' = k
  · subst hk
    rw [Names.table_insert_self, List.mem_append, List.mem_singleton] at hx
    rcases hx with hx | rfl
    · exact hp.allowed k' x hx
    · exact hok
  · rw [Names.table_insert_of_ne _ _ _ hk] at hx
    exact hp.allowed k' x hx

theorem covered_insert
    (hp : ReadFrom lines below p)
    (hl : l.op = k.introduction (p.names.table k).length) :
    ∀ l' ∈ (p.push (p.names.insert name size k).1 l).ops.toList,
      (p.names.insert name size k).1.Covers l'.op.mentions := by
  intro l' hl' k' h hm
  have hle := (Names.table_prefix_insert p.names name size k k').length_le
  rw [push_ops, List.mem_append, List.mem_singleton] at hl'
  rcases hl' with hl' | rfl
  · have := hp.covered l' hl' k' h hm
    omega
  · rw [hl] at hm
    obtain ⟨rfl, rfl⟩ := NameKind.mem_mentions_introduction.mp hm
    rw [Names.table_insert_self, List.length_append, List.length_singleton]
    omega

theorem markedOnce_insert
    (hp : ReadFrom lines below p)
    (hl : l.op = k.introduction (p.names.table k).length) :
    ∀ f, f < ((p.names.insert name size k).1.table .flag).length →
      ((p.push (p.names.insert name size k).1 l).ops.toList.map OpLine.op).count (.mark f) = 1 := by
  intro f hf
  rw [push_ops, List.map_append, List.count_append, List.map_singleton, List.count_singleton, hl]
  rcases lt_or_eq_of_lt_insert hf with hlt | ⟨rfl, rfl⟩
  · have hne : k.introduction (p.names.table k).length ≠ .mark f := by
      intro heq
      cases k with
      | «variable» => cases heq
      | array => cases heq
      | flag =>
          cases heq
          omega
    rw [hp.markedOnce f hlt]
    simp [hne]
  · have hnone := introduction_notMem (k := .flag) hp.covered (Nat.le_refl _)
    have hzero : (p.ops.toList.map OpLine.op).count (.mark (p.names.table .flag).length) = 0 :=
      List.count_eq_zero.mpr hnone
    rw [hzero]
    simp [NameKind.introduction]

/-- The first definition of a new array is the line that enters it. -/
theorem sized_insert
    (hp : ReadFrom lines below p)
    (htl : lines[below]? = some tl)
    (hl : l = ⟨k.introduction (p.names.table k).length, below + 1, tl.raw⟩)
    (hsize : k = .array → ∃ n : Int32, size = n.toInt ∧
      code tl = [.name (ascii "undefine"), .name (ascii "single"), .name name, .bracket .left,
        .literal n, .bracket .right])
    {a : Nat} {d : ArrayDecl}
    (hd : (p.names.insert name size k).1.arrays.toList[a]? = some d) :
    ∃ i l' tl, ∃ n : Int32,
      (p.push (p.names.insert name size k).1 l).firstDefinition? a = some i ∧
      (p.push (p.names.insert name size k).1 l).ops.toList[i]? = some l' ∧
      numberedLine? lines l'.line = some tl ∧ d.size = n.toInt ∧
      code tl = [.name (ascii "undefine"), .name (ascii "single"), .name d.name, .bracket .left,
        .literal n, .bracket .right] := by
  cases k with
  | «variable» => exact sized_push_of_some hp l hd
  | flag => exact sized_push_of_some hp l hd
  | array =>
      obtain ⟨n, hn, hcode⟩ := hsize rfl
      simp only [Names.insert, Array.toList_push, List.getElem?_append] at hd
      split_ifs at hd with ha
      · exact sized_push_of_some hp l hd
      · rw [List.getElem?_singleton] at hd
        split_ifs at hd with hlast
        cases hd
        have hlen : a = (p.names.table .array).length := by
          simp only [Names.table, List.length_map]
          omega
        subst hlen
        have hnone : p.firstDefinition? (p.names.table .array).length = none := by
          unfold firstDefinition? firstOp?
          rw [List.findIdx?_eq_none_iff]
          intro l' hl'
          have hmem := introduction_notMem (k := .array) hp.covered (Nat.le_refl _)
          simp only [decide_eq_false_iff_not]
          intro hop
          exact hmem (List.mem_map.mpr ⟨l', hl', hop⟩)
        refine ⟨_, l, tl, n, firstOp?_push_of_none hnone ?_, by simp, ?_, hn, hcode⟩
        · simp [hl, NameKind.introduction]
        · simpa [hl, numberedLine?] using htl

/-- A line that enters a name keeps the invariant. -/
theorem push_enters
    (hp : ReadFrom lines below p)
    (htl : lines[below]? = some tl)
    (hnew : name ∉ p.names.all)
    (hok : Spelling.allowed name k = true)
    (hsize : k = .array → ∃ n : Int32, size = n.toInt ∧
      code tl = [.name (ascii "undefine"), .name (ascii "single"), .name name, .bracket .left,
        .literal n, .bracket .right]) :
    ReadFrom lines (below + 1)
      (p.push (p.names.insert name size k).1
        ⟨k.introduction (p.names.table k).length, below + 1, tl.raw⟩) where
  distinct := by
    rw [push_names, (Names.all_insert_perm _ _ _ _).nodup_iff, List.nodup_cons]
    exact ⟨hnew, hp.distinct⟩
  allowed := hp.allowed_insert hok
  covered := hp.covered_insert rfl
  introduced := by
    intro k' h hh
    rcases lt_or_eq_of_lt_insert hh with hlt | ⟨rfl, rfl⟩
    · exact introduced_push_of_lt hp _ hlt
    · exact ⟨_, _, hp.firstMention?_new rfl, by simp; rfl, rfl⟩
  ordered := by
    intro k' h h' i i' hlt hh' hi hi'
    rcases lt_or_eq_of_lt_insert hh' with hlt' | ⟨rfl, rfl⟩
    · exact ordered_push_of_lt hp _ hlt hlt' hi hi'
    · rw [hp.firstMention?_new rfl] at hi'
      cases hi'
      rw [hp.firstMention?_push _ hlt] at hi
      exact firstOp?_lt hi
  markedOnce := hp.markedOnce_insert rfl
  sized := fun a d hd => hp.sized_insert htl rfl hsize hd
  increasing := hp.increasing_push
  located := hp.located_push htl

end Enter

/-- Every line of code keeps the invariant. -/
theorem push
    (hp : ReadFrom lines below p)
    (htl : lines[below]? = some tl)
    (hext : p.names.Extension (code tl) op names) :
    ReadFrom lines (below + 1) (p.push names ⟨op, below + 1, tl.raw⟩) := by
  cases hext with
  | uses hcov hmark => exact hp.push_uses htl hcov hmark
  | enters hnew hok hsize => exact hp.push_enters htl hnew hok hsize

/-- A line without code keeps the invariant. -/
theorem skip
    (hp : ReadFrom lines below p) :
    ReadFrom lines (below + 1) p where
  distinct := hp.distinct
  allowed := hp.allowed
  covered := hp.covered
  introduced := hp.introduced
  ordered := hp.ordered
  markedOnce := hp.markedOnce
  sized := hp.sized
  increasing := hp.increasing
  located := by
    intro l hl
    obtain ⟨h1, h2, h3⟩ := hp.located l hl
    exact ⟨h1, by omega, h3⟩

end ReadFrom

/-- Reading the lines that are left keeps the invariant. -/
theorem readFrom_readLines
    {lines : List TokenLine} {total : Nat} (above : List TokenLine) :
    ∀ {below : Nat} {p p' : Program},
      ReadFrom lines below p →
      lines.drop below = above →
      readLines total below p above = .ok p' →
      ReadFrom lines lines.length p' ∧ p'.lineCount = p.lineCount := by
  induction above with
  | nil =>
      intro below p p' hp hdrop h
      cases h
      have hle : lines.length ≤ below := List.drop_eq_nil_iff.mp hdrop
      refine ⟨{ hp with located := ?_ }, rfl⟩
      intro l hl
      obtain ⟨h1, -, tl, htl, htext⟩ := hp.located l hl
      -- the line exists, so its number is within the lines
      have hlt := (List.getElem?_eq_some_iff.mp htl).1
      exact ⟨h1, by omega, tl, htl, htext⟩
  | cons tl above ih =>
      intro below p p' hp hdrop h
      have htl : lines[below]? = some tl := by
        rw [← List.head?_drop, hdrop]
        rfl
      have hrest : lines.drop (below + 1) = above := by
        rw [← List.drop_drop, hdrop]
        rfl
      unfold readLines at h
      split_ifs at h
      · exact ih hp.skip hrest h
      · split at h
        · cases h
        · rename_i op names hop
          have hpush := hp.push htl (Op.ofCode_extension hop)
          obtain ⟨hread, hcount⟩ := ih hpush hrest h
          exact ⟨hread, hcount⟩

/-- The invariant holds of every program that was read. -/
theorem readFrom_ofTokenLines
    {lines : List TokenLine} {p : Program}
    (h : ofTokenLines lines = .ok p) :
    ReadFrom lines lines.length p ∧ p.lineCount = lines.length :=
  readFrom_readLines lines (readFrom_empty lines _) rfl h

/-- **A program that was read is well formed.**  Its names are distinct and allowed;
every handle is in its table, is introduced by the first operation that mentions
it, and handles are introduced in their order; every flag is placed once; the size
of an array is the number in its first definition; and the operations stand in
the order of their lines, each with the text of its line. -/
theorem ofTokenLines_wellFormed
    {lines : List TokenLine} {p : Program}
    (h : ofTokenLines lines = .ok p) :
    (p.names.all.Nodup ∧
      ∀ k, ∀ name ∈ p.names.table k, Spelling.allowed name k = true) ∧
    ((∀ l ∈ p.ops.toList, ∀ k, ∀ i ∈ l.op.mentions k, i < (p.names.table k).length) ∧
      (∀ k i, i < (p.names.table k).length →
        ∃ j l, p.firstMention? k i = some j ∧ p.ops.toList[j]? = some l ∧
          l.op = k.introduction i) ∧
      (∀ k i i' j j', i < i' → i' < (p.names.table k).length →
        p.firstMention? k i = some j → p.firstMention? k i' = some j' → j < j')) ∧
    (∀ f, f < p.names.flags.size → (p.ops.toList.map OpLine.op).count (.mark f) = 1) ∧
    (∀ a d, p.names.arrays.toList[a]? = some d →
      ∃ j l tl, ∃ n : Int32, p.firstDefinition? a = some j ∧ p.ops.toList[j]? = some l ∧
        numberedLine? lines l.line = some tl ∧ d.size = n.toInt ∧
        code tl = [.name (ascii "undefine"), .name (ascii "single"), .name d.name, .bracket .left,
          .literal n, .bracket .right]) ∧
    ((p.ops.toList.map OpLine.line).Pairwise (· < ·) ∧
      p.lineCount = lines.length ∧
      ∀ l ∈ p.ops.toList, 1 ≤ l.line ∧ l.line ≤ p.lineCount ∧
        ∃ tl, numberedLine? lines l.line = some tl ∧ l.text = tl.raw) := by
  obtain ⟨hp, hcount⟩ := readFrom_ofTokenLines h
  refine ⟨⟨hp.distinct, hp.allowed⟩, ⟨hp.covered, hp.introduced, hp.ordered⟩, ?_, hp.sized,
    hp.increasing, hcount, ?_⟩
  · intro f hf
    exact hp.markedOnce f (by simpa [Names.table] using hf)
  · rw [hcount]
    exact hp.located

/-- Six lines, the third of them empty: an array that is defined twice, a variable
that indexes it, and a flag. -/
def sixLines : List TokenLine :=
  [ ⟨[.name (ascii "undefine"), .name (ascii "single"), .name (ascii "a"), .bracket .left,
      .literal 3, .bracket .right], ascii "undefine single a[3]"⟩,
    ⟨[.name (ascii "undefine"), .name (ascii "x")], ascii "undefine x"⟩,
    ⟨[], []⟩,
    ⟨[.name (ascii "undefine"), .name (ascii "single"), .name (ascii "a"), .bracket .left,
      .literal 7, .bracket .right], ascii "undefine single a[7]"⟩,
    ⟨[.name (ascii "unmark"), .name (ascii "L")], ascii "unmark L"⟩,
    ⟨[.name (ascii "print"), .name (ascii "a"), .bracket .left, .name (ascii "x"),
      .bracket .right], ascii "print a[x]"⟩ ]

/-- The program of these lines. -/
def ofSixLines : Program where
  names := ⟨#[ascii "x"], #[⟨ascii "a", 3⟩], #[ascii "L"]⟩
  ops :=
    #[ ⟨.defineArray 0, 1, ascii "undefine single a[3]"⟩,
      ⟨.define 0, 2, ascii "undefine x"⟩,
      ⟨.defineArray 0, 4, ascii "undefine single a[7]"⟩,
      ⟨.mark 0, 5, ascii "unmark L"⟩,
      ⟨.read (.element 0 (.var 0)), 6, ascii "print a[x]"⟩ ]
  lineCount := 6

theorem sixLines_wellFormed :
    ofTokenLines sixLines = .ok ofSixLines ∧
    ofSixLines.names.all.Nodup ∧
    (ofSixLines.ops.toList.map OpLine.op).count (.mark 0) = 1 ∧
    ∃ j l tl, ∃ n : Int32, ofSixLines.firstDefinition? 0 = some j ∧
      ofSixLines.ops.toList[j]? = some l ∧ numberedLine? sixLines l.line = some tl ∧
      3 = n.toInt ∧
      code tl = [.name (ascii "undefine"), .name (ascii "single"), .name (ascii "a"),
        .bracket .left, .literal n, .bracket .right] := by
  have hread : ofTokenLines sixLines = .ok ofSixLines := by decide +kernel
  obtain ⟨⟨hdistinct, -⟩, -, hmarked, hsized, -⟩ := ofTokenLines_wellFormed hread
  exact ⟨hread, hdistinct, hmarked 0 (by decide), hsized 0 ⟨ascii "a", 3⟩ rfl⟩

end Program
end Contrary
