import Contrary.Proofs.Reading

/-!
# Lines on top of a program

A program is read from the bottom line up, so the lines on top of a part of it come too late
to change what this part gives.

**Parts.**  Reading two parts is reading the lower one and going on with the upper one
(`readLines_append`).  The lower part alone is read with another number of lines, but this
number only goes into the program and into faults (`readLines_recount`).

**Growth.**  A line adds at most one entry to the name tables and at most one operation, at
the end.  So a program goes on with all that it had (`readLines_grows`), and a name keeps its
kind and its handle (`Names.Grows.find?`).

**Results.**
* `reading_is_incremental`: what lines on top of others leave as it is.
-/

namespace Contrary

/-- A name that is found keeps its kind and its handle when the tables grow, as long as no
name is entered twice. -/
theorem Names.Grows.find?
    {t t' : Names}
    (h : t.Grows t')
    (hdistinct : t'.all.Nodup)
    {name : Bytes} {k : NameKind} {i : Nat}
    (hfind : t.find? name = some (k, i)) :
    t'.find? name = some (k, i) := by
  have htable : t.table k <+: t'.table k := by
    cases k with
    | «variable» => exact h.vars
    | array => exact h.arrays.map _
    | flag => exact h.flags
  have hentry : (t'.table k)[i]? = some name := by
    have hold := Names.find?_eq_some hfind
    obtain ⟨more, hmore⟩ := htable
    rw [← hmore, List.getElem?_append_left (List.getElem?_eq_some_iff.mp hold).1, hold]
  cases hfound : t'.find? name with
  | none =>
      have hmem : name ∈ t'.all := by
        have hin := List.mem_of_getElem? hentry
        cases k <;> simp [Names.all, hin]
      exact absurd hmem (Names.find?_eq_none_iff.mp hfound)
  | some r =>
      obtain ⟨rfl, rfl⟩ := Names.handle_unique hdistinct (Names.find?_eq_some hfound) hentry
      rfl

/-- The fault in a source with another number of lines. -/
def Located.recount {ε : Type} (count : Int) (e : Located ε) : Located ε :=
  { e with lineCount := count }

namespace Program

/-- The program with another number of lines. -/
def recount (count : Int) (p : Program) : Program :=
  { p with lineCount := count }

/-- The program goes on with the names and the operations that it had. -/
structure Grows (p p' : Program) : Prop where
  names : p.names.Grows p'.names
  ops : p.ops.toList <+: p'.ops.toList

section Parts

/-- Two parts are read one after the other. -/
theorem readLines_append
    (total : Nat) (xs ys : List TokenLine) :
    ∀ (below : Nat) (p : Program),
      readLines total below p (xs ++ ys) =
        (readLines total below p xs).bind fun p' =>
          readLines total (below + xs.length) p' ys := by
  induction xs with
  | nil =>
      intro below p
      rfl
  | cons l xs ih =>
      intro below p
      have hcount : below + (l :: xs).length = below + 1 + xs.length := by
        rw [List.length_cons]
        omega
      rw [hcount, List.cons_append, readLines, readLines]
      split_ifs
      · exact ih (below + 1) p
      · cases Op.ofCode p.names (code l) with
        | error e => rfl
        | ok r => exact ih (below + 1) _

/-- The number of lines of a source goes into the program and into its faults only. -/
theorem readLines_recount
    (total total' : Nat) (count : Int) (ls : List TokenLine) :
    ∀ (below : Nat) (p : Program),
      readLines total' below (p.recount count) ls =
        ((readLines total below p ls).mapError (Located.recount total')).map (recount count) := by
  induction ls with
  | nil =>
      intro below p
      rfl
  | cons l ls ih =>
      intro below p
      have hnames : (p.recount count).names = p.names := rfl
      rw [readLines, readLines, hnames]
      split_ifs
      · exact ih (below + 1) p
      · cases Op.ofCode p.names (code l) with
        | error e => rfl
        | ok r => exact ih (below + 1) (p.push r.2 ⟨r.1, below + 1, l.raw⟩)

/-- The lower part is read as if it stood alone, apart from the number of lines, and the
upper part goes on from there. -/
theorem ofTokenLines_append
    (xs ys : List TokenLine) :
    ofTokenLines (xs ++ ys) =
      (((ofTokenLines xs).mapError (Located.recount (xs ++ ys).length)).map
        (recount (xs ++ ys).length)).bind
          fun p => readLines (xs ++ ys).length xs.length p ys := by
  have hlower := readLines_recount xs.length (xs ++ ys).length (xs ++ ys).length xs 0
    ⟨Names.empty, #[], xs.length⟩
  rw [ofTokenLines, readLines_append, Nat.zero_add]
  exact congrArg (Except.bind · _) hlower

end Parts

section Growth

variable {p p' p'' : Program}

theorem Grows.refl
    (p : Program) :
    p.Grows p :=
  ⟨.refl _, List.prefix_rfl⟩

theorem Grows.trans
    (h : p.Grows p')
    (h' : p'.Grows p'') :
    p.Grows p'' :=
  ⟨h.names.trans h'.names, h.ops.trans h'.ops⟩

/-- One more line keeps what there is. -/
theorem grows_push
    {names : Names} {op : Op} {c : List Token}
    (hop : Op.ofCode p.names c = .ok (op, names)) (line : Int) (text : Bytes) :
    p.Grows (p.push names ⟨op, line, text⟩) where
  names := (Op.ofCode_extension hop).grows
  ops := by
    rw [push_ops]
    exact List.prefix_append _ _

/-- Any number of lines keep what there is. -/
theorem readLines_grows
    {total : Nat} (ls : List TokenLine) :
    ∀ {below : Nat} {p p' : Program},
      readLines total below p ls = .ok p' →
      p.Grows p' := by
  induction ls with
  | nil =>
      intro below p p' h
      cases h
      exact .refl p
  | cons l ls ih =>
      intro below p p' h
      rw [readLines] at h
      split_ifs at h
      · exact ih h
      · cases hop : Op.ofCode p.names (code l) with
        | error e =>
            rw [hop] at h
            cases h
        | ok r =>
            rw [hop] at h
            exact (grows_push hop _ _).trans (ih h)

end Growth

/-- **Reading is incremental.**  If lines are read with others on top of them, they are read
alone as well, and all tables and the operations only go on from there: no name changes its
handle, no array its size, and no operation.  If lines are not read alone, they are not read
with others on top of them either, and the fault is the same up to the number of lines. -/
theorem reading_is_incremental
    (xs ys : List TokenLine) :
    (∀ p, ofTokenLines (xs ++ ys) = .ok p →
      ∃ q, ofTokenLines xs = .ok q ∧
        q.names.vars.toList <+: p.names.vars.toList ∧
        q.names.arrays.toList <+: p.names.arrays.toList ∧
        q.names.flags.toList <+: p.names.flags.toList ∧
        q.ops.toList <+: p.ops.toList ∧
        ∀ name k i, q.names.find? name = some (k, i) → p.names.find? name = some (k, i)) ∧
    ∀ e, ofTokenLines xs = .error e →
      ofTokenLines (xs ++ ys) = .error { e with lineCount := xs.length + ys.length } := by
  constructor
  · intro p hp
    have hdistinct := (readFrom_ofTokenLines hp).1.distinct
    rw [ofTokenLines_append] at hp
    cases hxs : ofTokenLines xs with
    | error e =>
        rw [hxs] at hp
        cases hp
    | ok q =>
        rw [hxs] at hp
        obtain ⟨hnames, hops⟩ := readLines_grows ys hp
        exact ⟨q, rfl, hnames.vars, hnames.arrays, hnames.flags, hops,
          fun _ _ _ hfind => hnames.find? hdistinct hfind⟩
  · intro e he
    rw [ofTokenLines_append, he, List.length_append]
    rfl

/-- A flag that is placed twice. -/
def placedTwice : List TokenLine :=
  [ ⟨[.name (ascii "unmark"), .name (ascii "L")], ascii "unmark L"⟩,
    ⟨[.comment (ascii "again "), .name (ascii "unmark"), .name (ascii "L")],
      ascii "again / unmark L"⟩ ]

/-- The array keeps its size when it is defined with another one on top, and the flag that
is placed twice is the fault with six lines on top as well. -/
theorem sixLines_read_in_parts :
    ofTokenLines (sixLines.take 2 ++ sixLines.drop 2) = .ok ofSixLines ∧
    (∃ q, ofTokenLines (sixLines.take 2) = .ok q ∧
      q.names.arrays.toList <+: ofSixLines.names.arrays.toList ∧
      q.ops.toList <+: ofSixLines.ops.toList) ∧
    ofTokenLines placedTwice =
      .error ⟨2, 2, ascii "again / unmark L", .doubleLabel (ascii "L")⟩ ∧
    ofTokenLines (placedTwice ++ sixLines) =
      .error ⟨2, 8, ascii "again / unmark L", .doubleLabel (ascii "L")⟩ := by
  have hread : ofTokenLines (sixLines.take 2 ++ sixLines.drop 2) = .ok ofSixLines := by
    decide +kernel
  have hfault : ofTokenLines placedTwice =
      .error ⟨2, 2, ascii "again / unmark L", .doubleLabel (ascii "L")⟩ := by
    decide +kernel
  obtain ⟨q, hq, -, harrays, -, hops, -⟩ := (reading_is_incremental _ _).1 _ hread
  exact ⟨hread, ⟨q, hq, harrays, hops⟩, hfault, (reading_is_incremental _ sixLines).2 _ hfault⟩

end Program
end Contrary
