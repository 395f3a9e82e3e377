import Contrary.Machine.Run
import Contrary.Proofs.Dumps.Operations
import Contrary.Proofs.Incremental
import Contrary.Proofs.Layout

/-!
# Dumps lose nothing

The dump of a program does not quote its names, and still it can be read in one way only, since
names hold letters, digits and underscores.

**Tables.**  The entries of the three name tables are lines of one kind (`Entry`), and an empty
line follows them, so it shows where the tables end (`Program.dump_eq`).

**Use.**  The number of lines of a source is the one thing that is not in the dump of its
program.  It is of no use to the generated text or to a run (`Program.toC_recount`,
`Machine.run_recount`).

**Results.**
* `dumps_lose_nothing`: sources with the same dumps.
-/

namespace Contrary

section Tables

/-- An entry of a name table with its handle. -/
inductive Entry where
  | var (name : Bytes) (v : Nat)
  | array (d : ArrayDecl) (a : Nat)
  | flag (name : Bytes) (f : Nat)

namespace Entry

/-- The name of an entry. -/
def name : Entry → Bytes
  | .var name _ => name
  | .array d _ => d.name
  | .flag name _ => name

/-- What follows the name in the line of an entry, before any other text. -/
def tail (e : Entry) (s : Bytes) : Bytes :=
  match e with
  | .var _ v =>
      ascii "\x7d " ++ (ascii "var" ++ (ascii " with " ++ (dumpVar v ++ '\n'.toUInt8 :: s)))
  | .array d a =>
      ascii "[" ++ (Bytes.decimal d.size ++ (ascii "]" ++ (ascii "\x7d " ++ (ascii "array" ++
        (ascii " with " ++ (dumpArray a ++ '\n'.toUInt8 :: s))))))
  | .flag _ f =>
      ascii "\x7d " ++ (ascii "flag" ++ (ascii " with " ++ (dumpFlag f ++ '\n'.toUInt8 :: s)))

/-- The line of an entry. -/
def dump (e : Entry) : Bytes :=
  ascii "\x7b" ++ (e.name ++ e.tail [])

/-- The name of an entry holds letters, digits and underscores only. -/
def IsPlain (e : Entry) : Prop :=
  ∀ b ∈ e.name, Spelling.isIdentifierByte b = true

theorem tail_append
    (e : Entry) (s : Bytes) :
    e.tail [] ++ s = e.tail s := by
  cases e <;> simp only [tail, List.append_assoc, List.cons_append, List.nil_append]

theorem breaks_tail
    (e : Entry) (s : Bytes) :
    Breaks Spelling.isIdentifierByte (e.tail s) := by
  cases e <;> rfl

/-- The end of the line of an entry shows. -/
theorem delimited_dump :
    Delimited noByte IsPlain dump := by
  intro e e' s s' he he' _ _ h
  simp only [dump, List.append_assoc, tail_append] at h
  obtain ⟨hname, htail⟩ := run_append_inj he he' (breaks_tail e s) (breaks_tail e' s')
    (List.append_cancel_left h)
  have hvarflag : ascii "var" ≠ ascii "flag" := by decide
  cases e with
  | var x v =>
      cases e' with
      | var y w =>
          obtain ⟨hhandle, hend⟩ := handle_append_inj
            (List.append_cancel_left (List.append_cancel_left (List.append_cancel_left htail)))
          cases hname
          exact ⟨by rw [hhandle], (List.cons.inj hend).2⟩
      | array d a => exact absurd (List.cons.inj htail).1 (by decide)
      | flag y f =>
          obtain ⟨hword, -⟩ := word_append_inj (by decide) (by decide) (by rfl) (by rfl)
            (List.append_cancel_left htail)
          exact absurd hword hvarflag
  | array d a =>
      cases e' with
      | var y w => exact absurd (List.cons.inj htail).1 (by decide)
      | array d' a' =>
          obtain ⟨hsize, hrest⟩ := delimited_decimal d.size d'.size _ _ trivial trivial
            (by rfl) (by rfl) (List.append_cancel_left htail)
          obtain ⟨hhandle, hend⟩ := handle_append_inj
            (List.append_cancel_left (List.append_cancel_left (List.append_cancel_left
              (List.append_cancel_left hrest))))
          obtain ⟨x, size⟩ := d
          obtain ⟨y, size'⟩ := d'
          cases hname
          cases hsize
          exact ⟨by rw [hhandle], (List.cons.inj hend).2⟩
      | flag y f => exact absurd (List.cons.inj htail).1 (by decide)
  | flag x f =>
      cases e' with
      | var y w =>
          obtain ⟨hword, -⟩ := word_append_inj (by decide) (by decide) (by rfl) (by rfl)
            (List.append_cancel_left htail)
          exact absurd hword.symm hvarflag
      | array d a => exact absurd (List.cons.inj htail).1 (by decide)
      | flag y g =>
          obtain ⟨hhandle, hend⟩ := handle_append_inj
            (List.append_cancel_left (List.append_cancel_left (List.append_cancel_left htail)))
          cases hname
          exact ⟨by rw [hhandle], (List.cons.inj hend).2⟩

/-- No entry starts with an empty line. -/
theorem startsNone_newline
    (s : Bytes) :
    StartsNone IsPlain dump ('\n'.toUInt8 :: s) := by
  intro e t _ h
  exact absurd (List.cons.inj h).1 (by decide)

end Entry

namespace Names

/-- The entries of the three tables, in the order of a dump. -/
def entries (t : Names) : List Entry :=
  t.vars.toList.zipIdx.map (fun p => .var p.1 p.2) ++
    t.arrays.toList.zipIdx.map (fun p => .array p.1 p.2) ++
    t.flags.toList.zipIdx.map (fun p => .flag p.1 p.2)

/-- The tables with the given entries. -/
def ofEntries (es : List Entry) : Names where
  vars := (es.filterMap fun | .var x _ => some x | _ => none).toArray
  arrays := (es.filterMap fun | .array d _ => some d | _ => none).toArray
  flags := (es.filterMap fun | .flag x _ => some x | _ => none).toArray

theorem ofEntries_entries
    (t : Names) :
    ofEntries t.entries = t := by
  obtain ⟨vars, arrays, flags⟩ := t
  simp [ofEntries, entries]

end Names

theorem Program.dump_eq
    (p : Program) :
    p.dump = p.names.entries.flatMap Entry.dump ++
      '\n'.toUInt8 :: p.ops.toList.flatMap OpLine.dump := by
  simp [dump, dumpTable, Names.entries, Entry.dump, Entry.name, Entry.tail, Bytes.line,
    List.flatMap_map]

/-- The names of a program that was read are plain. -/
theorem Program.isPlain_ofSource
    {source : Bytes} {p : Program}
    (h : ofSource source = .ok p) :
    ∀ e ∈ p.names.entries, e.IsPlain := by
  obtain ⟨lines, hread, -, -⟩ := readFrom_ofSource h
  have hplain : ∀ (k : NameKind), ∀ name ∈ p.names.table k, ∀ b ∈ name,
      Spelling.isIdentifierByte b = true := by
    intro k name hname
    have hidentifier := Spelling.isIdentifier_of_allowed (hread.allowed k name hname)
    exact (Spelling.isIdentifier_eq_true_iff.mp hidentifier).2.2
  intro e he
  simp only [Names.entries, List.mem_append, List.mem_map] at he
  rcases he with (⟨⟨x, v⟩, hx, rfl⟩ | ⟨⟨d, a⟩, hd, rfl⟩) | ⟨⟨x, f⟩, hx, rfl⟩
  · exact hplain .variable x (List.fst_mem_of_mem_zipIdx hx)
  · exact hplain .array d.name (List.mem_map_of_mem (List.fst_mem_of_mem_zipIdx hd))
  · exact hplain .flag x (List.fst_mem_of_mem_zipIdx hx)

/-- Programs with the same dump have the same names and the same operations, if their names
are plain. -/
theorem Program.dump_inj
    {p p' : Program}
    (hp : ∀ e ∈ p.names.entries, e.IsPlain)
    (hp' : ∀ e ∈ p'.names.entries, e.IsPlain)
    (h : p.dump = p'.dump) :
    p' = p.recount p'.lineCount := by
  rw [dump_eq, dump_eq] at h
  obtain ⟨hentries, hrest⟩ := Entry.delimited_dump.flatMap (fun _ _ _ => breaks_noByte _)
    (breaks_noByte _) (breaks_noByte _) (Entry.startsNone_newline _)
    (Entry.startsNone_newline _) _ _ hp hp' h
  have hnames : p.names = p'.names := by
    rw [← Names.ofEntries_entries p.names, hentries, Names.ofEntries_entries]
  have hops := OpLine.delimited_dump.flatMap_inj
    (fun _ => List.append_ne_nil_of_right_ne_nil _ (List.cons_ne_nil _ _)) (List.cons.inj hrest).2
  obtain ⟨names, ops, count⟩ := p
  obtain ⟨names', ops', count'⟩ := p'
  cases hnames
  cases Array.toList_inj.mp hops
  rfl

end Tables

section Use

/-- The fault in the blocks of a program is the same whatever the number of lines. -/
theorem Nesting.ofOps_error_recount
    {n n' : Int} {ls : List OpLine} {e e' : Located Imbalance}
    (h : Nesting.ofOps n ls = .error e)
    (h' : Nesting.ofOps n' ls = .error e') :
    e' = e.recount n' := by
  obtain ⟨j, l, hl, he, hpairs⟩ := ofOps_of_nesting_error h
  obtain ⟨j', l', hl', he', hpairs'⟩ := ofOps_of_nesting_error h'
  rw [hpairs] at hpairs'
  have hplace : (⟨j, e.cause⟩ : BlockError) = ⟨j', e'.cause⟩ := Except.error.inj hpairs'
  have hj : j = j' := congrArg BlockError.index hplace
  have hcause : e.cause = e'.cause := congrArg BlockError.cause hplace
  rw [← hj, hl] at hl'
  rw [he', he, ← hcause, ← Option.some.inj hl']
  rfl

theorem Program.nesting_of_toC_error
    {p : Program} {e : Located Imbalance}
    (h : p.toC = .error e) :
    Nesting.ofOps p.lineCount p.ops.toList = .error e := by
  cases hn : Nesting.ofOps p.lineCount p.ops.toList with
  | ok nesting =>
      obtain ⟨code, hcode⟩ := ofProgram_of_nesting hn
      rw [toC, hcode] at h
      cases h
  | error e' =>
      rw [toC, ofProgram_of_nesting_error hn] at h
      exact congrArg Except.error (Except.error.inj h)

/-- The generated text does not depend on the number of lines, and a fault only names it. -/
theorem Program.toC_recount
    (p : Program) (n : Int) :
    (p.recount n).toC = p.toC.mapError (Located.recount n) := by
  have hcauses : (p.recount n).toC.mapError Located.cause = p.toC.mapError Located.cause :=
    Target.toC_of_gist rfl
  cases hc : p.toC with
  | ok c =>
      rw [hc] at hcauses
      cases hc' : (p.recount n).toC with
      | ok c' =>
          rw [hc'] at hcauses
          exact congrArg Except.ok (Except.ok.inj hcauses)
      | error e' =>
          rw [hc'] at hcauses
          cases hcauses
  | error e =>
      cases hc' : (p.recount n).toC with
      | ok c' =>
          rw [hc, hc'] at hcauses
          cases hcauses
      | error e' =>
          have hfault := Nesting.ofOps_error_recount (nesting_of_toC_error hc)
            (nesting_of_toC_error (p := p.recount n) hc')
          exact congrArg Except.error hfault

/-- The machine of the program with another number of lines. -/
def Machine.recount (n : Int) (m : Machine) : Machine :=
  { m with program := m.program.recount n }

namespace Machine

theorem load_recount
    (p : Program) (n : Int) :
    load (p.recount n) = (load p).map (recount n) := by
  unfold load
  change Except.map _ (Pairing.ofOps (p.ops.toList.map OpLine.op)) = _
  cases Pairing.ofOps (p.ops.toList.map OpLine.op) <;> rfl

theorem runFor_recount
    {σ : Type} [NumberSource σ]
    (m : Machine) (n : Int) (limit : Nat) :
    ∀ r : Run σ, (m.recount n).runFor limit r = m.runFor limit r := by
  induction limit with
  | zero =>
      intro r
      rfl
  | succ limit ih =>
      intro r
      have hadvance : (m.recount n).advance r = m.advance r := rfl
      have hfinish : (m.recount n).finish r = m.finish r := rfl
      have hatEnd : (m.recount n).atEnd r.state = m.atEnd r.state := rfl
      simp only [runFor, hadvance, hfinish, hatEnd, ih]

/-- A program runs alike whatever the number of lines of its source. -/
theorem run_recount
    {σ : Type} [NumberSource σ]
    (p : Program) (n : Int) (limit : Nat) (input : σ) :
    (load (p.recount n)).map (fun m => m.run limit input) =
      (load p).map fun m => m.run limit input := by
  rw [load_recount]
  cases load p with
  | error e => rfl
  | ok m => exact congrArg Except.ok (runFor_recount m n limit _)

end Machine

/-- **Dumps lose nothing.**  If two sources that can be read have programs with the same dump,
then these programs have the same variables, arrays with their sizes, flags and operations
with their lines and texts; they give the same C text, or the same fault but for the number
of lines, and run alike on every input.  If two sources that can be split into tokens have
token lines with the same dump, then these are the same. -/
theorem dumps_lose_nothing :
    (∀ (s s' : Bytes) (p p' : Program),
      Program.ofSource s = .ok p → Program.ofSource s' = .ok p' → p.dump = p'.dump →
        (p.names.vars = p'.names.vars ∧ p.names.arrays = p'.names.arrays ∧
          p.names.flags = p'.names.flags ∧ p.ops = p'.ops) ∧
        p'.toC = p.toC.mapError (Located.recount p'.lineCount) ∧
        ∀ (σ : Type) [NumberSource σ] (limit : Nat) (input : σ),
          (Machine.load p').map (fun m => m.run limit input) =
            (Machine.load p).map fun m => m.run limit input) ∧
    ∀ (s s' : Bytes) (ls ls' : List TokenLine),
      TokenLine.ofSource s = .ok ls → TokenLine.ofSource s' = .ok ls' →
        TokenLine.dumpAll ls = TokenLine.dumpAll ls' → ls = ls' := by
  constructor
  · intro s s' p p' hp hp' hdump
    have hsame : p' = p.recount p'.lineCount :=
      Program.dump_inj (Program.isPlain_ofSource hp) (Program.isPlain_ofSource hp') hdump
    have hnames : p'.names = p.names := by
      rw [hsame]
      rfl
    have hops : p'.ops = p.ops := by
      rw [hsame]
      rfl
    refine ⟨by simp only [hnames, hops, and_self], ?_, ?_⟩
    · conv_lhs => rw [hsame]
      exact Program.toC_recount p p'.lineCount
    · intro σ _ limit input
      conv_lhs => rw [hsame]
      exact Machine.run_recount p p'.lineCount limit input
  · intro s s' ls ls' _ _ hdump
    exact TokenLine.dumpAll_inj hdump

/-- A comment that looks like the end of a line of a dump. -/
def misleading : Bytes :=
  Listing.join <| ["\"] -> Goto / define x", "undefine x"].map ascii

/-- The program of these lines. -/
def ofMisleading : Program where
  names := ⟨#[ascii "x"], #[], #[]⟩
  ops :=
    #[ ⟨.define 0, 1, ascii "undefine x"⟩,
      ⟨.undefine 0, 2, ascii "\"] -> Goto / define x"⟩ ]
  lineCount := 2

/-- Lines without code above it are not in the dump of its program, so they do not change
what it does; a carriage return at the end of a line is not in the dump of its tokens. -/
theorem misleading_dumped :
    Program.ofSource misleading = .ok ofMisleading ∧
    Program.ofSource (ascii "top /\n\n" ++ misleading) = .ok (ofMisleading.recount 4) ∧
    (ofMisleading.recount 4).toC = ofMisleading.toC.mapError (Located.recount 4) ∧
    (∀ limit input, (Machine.load (ofMisleading.recount 4)).map (fun m =>
        m.run limit (Scanner.mk input)) =
      (Machine.load ofMisleading).map fun m => m.run limit (Scanner.mk input)) ∧
    ∃ ls ls', TokenLine.ofSource (ascii "x\r\ny") = .ok ls ∧
      TokenLine.ofSource (ascii "x\ny\n") = .ok ls' ∧ ls = ls' := by
  obtain ⟨hprograms, htokens⟩ := dumps_lose_nothing
  have hp : Program.ofSource misleading = .ok ofMisleading := by decide +kernel
  have hp' : Program.ofSource (ascii "top /\n\n" ++ misleading) = .ok (ofMisleading.recount 4) := by
    decide +kernel
  obtain ⟨-, htext, hrun⟩ := hprograms _ _ _ _ hp hp' rfl
  refine ⟨hp, hp', htext, fun limit input => hrun Scanner limit ⟨input⟩, ?_⟩
  have hls : TokenLine.ofSource (ascii "x\r\ny") =
      .ok [⟨[.name (ascii "y")], ascii "y"⟩, ⟨[.name (ascii "x")], ascii "x"⟩] := by
    decide +kernel
  have hls' : TokenLine.ofSource (ascii "x\ny\n") =
      .ok [⟨[.name (ascii "y")], ascii "y"⟩, ⟨[.name (ascii "x")], ascii "x"⟩] := by
    decide +kernel
  exact ⟨_, _, hls, hls', htokens _ _ _ _ hls hls' rfl⟩

end Use

end Contrary
