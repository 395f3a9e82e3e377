import Contrary.Proofs.WellFormed

/-!
# Operations and names of a program

A program keeps the number and the text of each line, but its operations and names
depend on the code of its lines only.

**Code.**  `Op.ofCodes` reads the code of lines, one after another, and
`Program.readLines_content` shows that a program has exactly the operations and names
that it gives, and that it fails for the same cause.

**Growth.**  Every line keeps the entries of the name tables and may add one at the end of
a table (`Names.Grows`), so what a handle stands for does not change later.
-/

namespace Contrary

namespace Names

/-- Every table goes on with the entries that it had. -/
structure Grows (t t' : Names) : Prop where
  vars : t.vars.toList <+: t'.vars.toList
  arrays : t.arrays.toList <+: t'.arrays.toList
  flags : t.flags.toList <+: t'.flags.toList

section Grows

variable {t t' t'' : Names}

theorem Grows.refl
    (t : Names) :
    t.Grows t :=
  ⟨List.prefix_rfl, List.prefix_rfl, List.prefix_rfl⟩

theorem Grows.trans
    (h : t.Grows t')
    (h' : t'.Grows t'') :
    t.Grows t'' :=
  ⟨h.vars.trans h'.vars, h.arrays.trans h'.arrays, h.flags.trans h'.flags⟩

theorem grows_insert
    (t : Names) (name : Bytes) (size : Int) (k : NameKind) :
    t.Grows (t.insert name size k).1 := by
  cases k <;> constructor <;> simp [insert]

theorem getD_of_grown
    {α : Type} {xs ys : Array α}
    (h : xs.toList <+: ys.toList)
    {i : Nat}
    (hi : i < xs.size) (d : α) :
    ys.getD i d = xs.getD i d := by
  have hget : ys.toList[i]? = xs.toList[i]? := by
    obtain ⟨more, hmore⟩ := h
    rw [← hmore, List.getElem?_append_left (by simpa using hi)]
  simp only [Array.getElem?_toList] at hget
  rw [Array.getD_eq_getD_getElem?, Array.getD_eq_getD_getElem?, hget]

theorem Grows.varName
    (h : t.Grows t')
    {v : Nat}
    (hv : v < (t.table .variable).length) :
    t'.varName v = t.varName v :=
  getD_of_grown h.vars (by simpa [table] using hv) _

theorem Grows.arrayDecl
    (h : t.Grows t')
    {a : Nat}
    (ha : a < (t.table .array).length) :
    t'.arrayDecl a = t.arrayDecl a :=
  getD_of_grown h.arrays (by simpa [table] using ha) _

theorem Grows.flagName
    (h : t.Grows t')
    {f : Nat}
    (hf : f < (t.table .flag).length) :
    t'.flagName f = t.flagName f :=
  getD_of_grown h.flags (by simpa [table] using hf) _

variable {code : List Token} {op : Op}

theorem Extension.grows
    (h : t.Extension code op t') :
    t.Grows t' := by
  cases h with
  | uses => exact .refl t
  | enters => exact grows_insert t _ _ _

/-- The handles of an operation are in the tables that its line leaves. -/
theorem Extension.covers
    (h : t.Extension code op t') :
    t'.Covers op.mentions := by
  cases h with
  | uses hcov => exact hcov
  | enters =>
      intro k' i hi
      obtain ⟨rfl, rfl⟩ := NameKind.mem_mentions_introduction.mp hi
      rw [table_insert_self, List.length_append, List.length_singleton]
      omega

end Grows

end Names

/-- The operations of lines of code, and the names that they leave. -/
def Op.ofCodes : Names → List (List Token) → Except PhraseError (List Op × Names)
  | t, [] => .ok ([], t)
  | t, code :: codes => do
      let (op, t') ← Op.ofCode t code
      let (ops, t'') ← ofCodes t' codes
      return (op :: ops, t'')

/-- What one line and the lines after it give. -/
theorem Op.ofCodes_cons_eq_ok_iff
    {t t'' : Names} {code : List Token} {codes : List (List Token)} {ops : List Op} :
    Op.ofCodes t (code :: codes) = .ok (ops, t'') ↔
      ∃ op t' ops', Op.ofCode t code = .ok (op, t') ∧ Op.ofCodes t' codes = .ok (ops', t'') ∧
        ops = op :: ops' := by
  rw [Op.ofCodes]
  constructor
  · intro h
    obtain ⟨⟨op, t'⟩, hop, h⟩ := bind_eq_ok_iff.mp h
    obtain ⟨⟨ops', last⟩, hops, h⟩ := bind_eq_ok_iff.mp h
    cases h
    exact ⟨op, t', ops', hop, hops, rfl⟩
  · rintro ⟨op, t', ops', hop, hops, rfl⟩
    exact bind_eq_ok_iff.mpr ⟨_, hop, bind_eq_ok_iff.mpr ⟨_, hops, rfl⟩⟩

namespace Program

/-- The operations of a program, and its names. -/
def content (p : Program) : List Op × Names :=
  (p.ops.toList.map OpLine.op, p.names)

/-- The code of the lines that have some. -/
def codes (ls : List TokenLine) : List (List Token) :=
  (ls.map code).filter fun c => !c.isEmpty

/-- A program has the operations and names of the code of its lines, and fails for the
cause for which reading the code fails. -/
theorem readLines_content
    (total : Nat) (above : List TokenLine) :
    ∀ (below : Nat) (p : Program),
      ((readLines total below p above).mapError Located.cause).map content =
        (Op.ofCodes p.names (codes above)).map
          fun r => (p.ops.toList.map OpLine.op ++ r.1, r.2) := by
  induction above with
  | nil =>
      intro below p
      simp [readLines, codes, Op.ofCodes, content, Except.map, Except.mapError]
  | cons l above ih =>
      intro below p
      unfold readLines
      split_ifs with hcode
      · rw [ih]
        simp [codes, hcode]
      · have hcodes : codes (l :: above) = code l :: codes above := by
          simp [codes, hcode]
        rw [hcodes, Op.ofCodes]
        cases hop : Op.ofCode p.names (code l) with
        | error e => rfl
        | ok r =>
            obtain ⟨op, t'⟩ := r
            have hrest := ih (below + 1) (p.push t' ⟨op, below + 1, l.raw⟩)
            rw [push_names, push_ops, List.map_append] at hrest
            refine hrest.trans ?_
            cases hops : Op.ofCodes t' (codes above) with
            | error e => simp [Except.map, bind, Except.bind, hops]
            | ok r => simp [Except.map, bind, Except.bind, hops, pure, Except.pure]

/-- The operations and names of a program are those of the code of its lines. -/
theorem ofTokenLines_content
    (tls : List TokenLine) :
    ((ofTokenLines tls).mapError Located.cause).map content =
      Op.ofCodes Names.empty (codes tls) := by
  refine (readLines_content tls.length tls 0 ⟨Names.empty, #[], tls.length⟩).trans ?_
  cases Op.ofCodes Names.empty (codes tls) <;> simp [Except.map]

/-- The operations and names of a program that was read. -/
theorem ofTokenLines_eq_ok_iff
    {tls : List TokenLine} {r : List Op × Names} :
    (∃ p, ofTokenLines tls = .ok p ∧ p.content = r) ↔
      Op.ofCodes Names.empty (codes tls) = .ok r := by
  rw [← ofTokenLines_content, map_eq_ok_iff]
  cases ofTokenLines tls <;> simp [Except.mapError]

end Program

end Contrary
