import Contrary.Proofs.Dumps.Tokens
import Contrary.Program.Op

/-!
# Dumps of operations

**Parts.**  An operation is a word with parts in parentheses.  A part is known from the word for
its kind and from what it holds, so its end shows (`Part.delimited_dump`).

**Operations.**  An operation is known from its kind and its parts (`Op.ofParts?_parts`), and its
end shows where the line ends (`Op.dump_append_inj`).

**Results.**
* `OpLine.delimited_dump`: the end of an operation with its line and text shows.
-/

namespace Contrary

section Parts

theorem dumpNode_eq
    (label : String) (parts : List Bytes) :
    dumpNode label parts =
      ascii label ++ '('.toUInt8 :: (List.intercalate (ascii ", ") parts ++ [')'.toUInt8]) := by
  simp [dumpNode, ascii]

/-- A word with a number in parentheses. -/
theorem dumpNode_decimal
    (label : String) (n : Int) (s : Bytes) :
    dumpNode label [Bytes.decimal n] ++ s =
      ascii label ++ '('.toUInt8 :: (Bytes.decimal n ++ ')'.toUInt8 :: s) := by
  simp [dumpNode_eq, List.intercalate]

/-- The end of a handle shows. -/
theorem handle_append_inj
    {label : String} {a b : Nat} {s t : Bytes}
    (h : dumpNode label [Bytes.decimalNat a] ++ s = dumpNode label [Bytes.decimalNat b] ++ t) :
    a = b ∧ s = t := by
  have ha := dumpNode_decimal label a s
  have hb := dumpNode_decimal label b t
  obtain ⟨hnumber, hrest⟩ :=
    number_append_inj (List.append_cancel_left (ha.symm.trans (h.trans hb)))
  exact ⟨Int.ofNat.inj hnumber, hrest⟩

/-- The end of an index shows. -/
theorem Index.dump_append_inj
    {i j : Index} {s t : Bytes}
    (h : i.dump ++ s = j.dump ++ t) :
    i = j ∧ s = t := by
  have hliteral : ∀ (n : Int32) (u : Bytes), (Index.literal n).dump ++ u =
      ascii "Literal" ++ '('.toUInt8 :: (Bytes.decimal n.toInt ++ ')'.toUInt8 :: u) :=
    fun n u => dumpNode_decimal "Literal" n.toInt u
  have hvar : ∀ (v : Nat) (u : Bytes), (Index.var v).dump ++ u =
      ascii "RValue" ++ '('.toUInt8 :: (Bytes.decimal v ++ ')'.toUInt8 :: u) :=
    fun v u => dumpNode_decimal "RValue" v u
  cases i with
  | literal n =>
      cases j with
      | literal m =>
          rw [hliteral, hliteral] at h
          obtain ⟨hnumber, hrest⟩ := number_append_inj (List.append_cancel_left h)
          exact ⟨congrArg Index.literal (Int32.toInt_inj.mp hnumber), hrest⟩
      | var w =>
          rw [hliteral, hvar] at h
          obtain ⟨hword, -⟩ := word_append_inj (by decide) (by decide) (by rfl) (by rfl) h
          exact absurd hword (by decide)
  | var v =>
      cases j with
      | literal m =>
          rw [hvar, hliteral] at h
          obtain ⟨hword, -⟩ := word_append_inj (by decide) (by decide) (by rfl) (by rfl) h
          exact absurd hword (by decide)
      | var w =>
          rw [hvar, hvar] at h
          obtain ⟨hnumber, hrest⟩ := number_append_inj (List.append_cancel_left h)
          exact ⟨congrArg Index.var (Int.ofNat.inj hnumber), hrest⟩

/-- A part of the dump of an operation. -/
inductive Part where
  | operand (x : Operand)
  | array (a : Nat)
  | flag (f : Nat)
  | comparison (c : Comparison)

/-- The kinds of parts that have different words. -/
inductive PartKind where
  | literal
  | var
  | element
  | array
  | flag
  | comparison (c : Comparison)
  deriving DecidableEq

namespace PartKind

/-- The word of a kind of parts. -/
def word : PartKind → Bytes
  | .literal => ascii "Literal"
  | .var => ascii "RValue"
  | .element => ascii "ArrayElement"
  | .array => ascii "ArrayRef"
  | .flag => ascii "FlagRef"
  | .comparison c => c.label

/-- All kinds of parts. -/
def all : List PartKind :=
  [.literal, .var, .element, .array, .flag, .comparison .equal, .comparison .notEqual,
    .comparison .less, .comparison .greater, .comparison .lessOrEqual,
    .comparison .greaterOrEqual]

theorem mem_all
    (k : PartKind) :
    k ∈ all := by
  cases k with
  | comparison c => cases c <;> decide
  | _ => decide

theorem word_letters
    (k : PartKind) :
    k.word.all isLetter = true ∧ k.word ≠ [] := by
  have hall : ∀ k ∈ all, k.word.all isLetter = true ∧ k.word ≠ [] := by decide +kernel
  exact hall k (mem_all k)

theorem word_inj
    {k k' : PartKind}
    (h : k.word = k'.word) :
    k = k' := by
  have hdistinct : (all.map word).Nodup := by decide +kernel
  exact List.inj_on_of_nodup_map hdistinct (mem_all k) (mem_all k') h

end PartKind

namespace Part

/-- A part in a dump. -/
def dump : Part → Bytes
  | .operand x => x.dump
  | .array a => dumpArray a
  | .flag f => dumpFlag f
  | .comparison c => c.label

/-- The kind of a part. -/
def kind : Part → PartKind
  | .operand (.literal _) => .literal
  | .operand (.stored (.var _)) => .var
  | .operand (.stored (.element _ _)) => .element
  | .array _ => .array
  | .flag _ => .flag
  | .comparison c => .comparison c

/-- What follows the word in the dump of a part, before any other text. -/
def payload (p : Part) (s : Bytes) : Bytes :=
  match p with
  | .operand (.literal n) => '('.toUInt8 :: (Bytes.decimal n.toInt ++ ')'.toUInt8 :: s)
  | .operand (.stored (.var v)) => '('.toUInt8 :: (Bytes.decimal v ++ ')'.toUInt8 :: s)
  | .operand (.stored (.element a i)) =>
      '('.toUInt8 :: (dumpArray a ++ '['.toUInt8 :: (i.dump ++ ']'.toUInt8 :: ')'.toUInt8 :: s))
  | .array a => '('.toUInt8 :: (Bytes.decimal a ++ ')'.toUInt8 :: s)
  | .flag f => '('.toUInt8 :: (Bytes.decimal f ++ ')'.toUInt8 :: s)
  | .comparison _ => s

theorem dump_append
    (p : Part) (s : Bytes) :
    p.dump ++ s = p.kind.word ++ p.payload s := by
  cases p with
  | operand x =>
      cases x with
      | literal n => exact dumpNode_decimal "Literal" n.toInt s
      | stored x =>
          cases x with
          | var v => exact dumpNode_decimal "RValue" v s
          | element a i =>
              change dumpNode "ArrayElement" [_] ++ s = _
              rw [dumpNode_eq]
              simp [kind, payload, PartKind.word, List.intercalate, ascii]
  | array a => exact dumpNode_decimal "ArrayRef" a s
  | flag f => exact dumpNode_decimal "FlagRef" f s
  | comparison c => rfl

theorem breaks_payload
    (p : Part) {s : Bytes}
    (hs : Breaks isLetter s) :
    Breaks isLetter (p.payload s) := by
  cases p with
  | operand x =>
      cases x with
      | literal n => rfl
      | stored x => cases x <;> rfl
  | comparison c => exact hs
  | _ => rfl

/-- The end of a part shows where no letter comes next. -/
theorem delimited_dump :
    Delimited isLetter (fun _ => True) dump := by
  intro p p' s s' _ _ hs hs' h
  rw [dump_append, dump_append] at h
  obtain ⟨hword, hrest⟩ := word_append_inj (PartKind.word_letters _).1
    (PartKind.word_letters _).1 (breaks_payload p hs) (breaks_payload p' hs') h
  have hkind := PartKind.word_inj hword
  -- parts of one kind: what is left to compare is the number or the element that they hold
  rcases p with (n | v | ⟨a, i⟩) | a | f | c
  · rcases p' with (m | w | ⟨b, j⟩) | b | g | d <;> cases hkind
    obtain ⟨hnumber, hend⟩ := number_append_inj hrest
    rw [Int32.toInt_inj.mp hnumber]
    exact ⟨rfl, hend⟩
  · rcases p' with (m | w | ⟨b, j⟩) | b | g | d <;> cases hkind
    obtain ⟨hnumber, hend⟩ := number_append_inj hrest
    rw [Int.ofNat.inj hnumber]
    exact ⟨rfl, hend⟩
  · rcases p' with (m | w | ⟨b, j⟩) | b | g | d <;> cases hkind
    obtain ⟨rfl, hindex⟩ := handle_append_inj (List.cons.inj hrest).2
    obtain ⟨rfl, hend⟩ := Index.dump_append_inj (List.cons.inj hindex).2
    exact ⟨rfl, (List.cons.inj (List.cons.inj hend).2).2⟩
  · rcases p' with (m | w | ⟨b, j⟩) | b | g | d <;> cases hkind
    obtain ⟨hnumber, hend⟩ := number_append_inj hrest
    rw [Int.ofNat.inj hnumber]
    exact ⟨rfl, hend⟩
  · rcases p' with (m | w | ⟨b, j⟩) | b | g | d <;> cases hkind
    obtain ⟨hnumber, hend⟩ := number_append_inj hrest
    rw [Int.ofNat.inj hnumber]
    exact ⟨rfl, hend⟩
  · rcases p' with (m | w | ⟨b, j⟩) | b | g | d <;> cases hkind
    exact ⟨rfl, hrest⟩

/-- No part starts with a parenthesis. -/
theorem startsNone_parenthesis
    (s : Bytes) :
    StartsNone (fun _ => True) dump (')'.toUInt8 :: s) := by
  intro p t _ h
  obtain ⟨hletters, hne⟩ := PartKind.word_letters p.kind
  rw [dump_append] at h
  exact word_ne_append hletters hne (by decide) h

/-- Parts in parentheses; nothing if there are none. -/
def enclosed : List Part → Bytes
  | [] => []
  | p :: ps =>
      '('.toUInt8 :: (List.intercalate (ascii ", ") ((p :: ps).map dump) ++ [')'.toUInt8])

theorem breaks_enclosed
    (ps : List Part) (s : Bytes) :
    Breaks isLetter (enclosed ps ++ '\n'.toUInt8 :: s) := by
  cases ps <;> rfl

theorem enclosed_append_inj
    {ps qs : List Part} {s t : Bytes}
    (h : enclosed ps ++ '\n'.toUInt8 :: s = enclosed qs ++ '\n'.toUInt8 :: t) :
    ps = qs ∧ s = t := by
  cases ps with
  | nil =>
      cases qs with
      | nil => exact ⟨rfl, (List.cons.inj h).2⟩
      | cons q qs => exact absurd (List.cons.inj h).1 (by decide)
  | cons p ps =>
      cases qs with
      | nil => exact absurd (List.cons.inj h).1 (by decide)
      | cons q qs =>
          simp only [enclosed, List.cons_append, List.append_assoc, List.nil_append] at h
          obtain ⟨hparts, hend⟩ := delimited_dump.join rfl rfl (by decide)
            (startsNone_parenthesis _) (startsNone_parenthesis _) (fun _ _ => trivial)
            (fun _ _ => trivial) (List.cons.inj h).2
          exact ⟨hparts, (List.cons.inj hend).2⟩

end Part

end Parts

section Operations

/-- The kinds of operations. -/
inductive OpKind where
  | define | defineArray | undefine | undefineArray | read | print | printChar | add | subtract
  | openBlock | closeBlock | mark | unmark | pin | goto
  deriving DecidableEq

namespace OpKind

/-- The word of a kind of operations. -/
def word : OpKind → Bytes
  | .define => ascii "Define"
  | .defineArray => ascii "DefineArray"
  | .undefine => ascii "Undefine"
  | .undefineArray => ascii "UndefineArray"
  | .read => ascii "Read"
  | .print => ascii "Print"
  | .printChar => ascii "PrintASCII"
  | .add => ascii "Add"
  | .subtract => ascii "Subtract"
  | .openBlock => ascii "Fi"
  | .closeBlock => ascii "If"
  | .mark => ascii "Mark"
  | .unmark => ascii "Unmark"
  | .pin => ascii "Pin"
  | .goto => ascii "Goto"

/-- All kinds of operations. -/
def all : List OpKind :=
  [.define, .defineArray, .undefine, .undefineArray, .read, .print, .printChar, .add, .subtract,
    .openBlock, .closeBlock, .mark, .unmark, .pin, .goto]

theorem mem_all
    (k : OpKind) :
    k ∈ all := by
  cases k <;> decide

theorem word_letters
    (k : OpKind) :
    k.word.all isLetter = true := by
  have hall : ∀ k ∈ all, k.word.all isLetter = true := by decide +kernel
  exact hall k (mem_all k)

theorem word_inj
    {k k' : OpKind}
    (h : k.word = k'.word) :
    k = k' := by
  have hdistinct : (all.map word).Nodup := by decide +kernel
  exact List.inj_on_of_nodup_map hdistinct (mem_all k) (mem_all k') h

end OpKind

namespace Op

/-- The kind of an operation. -/
def kind : Op → OpKind
  | .define _ => .define
  | .defineArray _ => .defineArray
  | .undefine _ => .undefine
  | .undefineArray _ => .undefineArray
  | .read _ => .read
  | .print _ => .print
  | .printChar _ => .printChar
  | .add _ _ => .add
  | .subtract _ _ => .subtract
  | .openBlock => .openBlock
  | .closeBlock _ _ _ => .closeBlock
  | .mark _ => .mark
  | .unmark _ => .unmark
  | .pin _ => .pin
  | .goto => .goto

/-- The parts of an operation, in the order in which they are written. -/
def parts : Op → List Part
  | .define v | .undefine v => [.operand (.stored (.var v))]
  | .defineArray a | .undefineArray a => [.array a]
  | .read target => [.operand (.stored target)]
  | .print value | .printChar value => [.operand value]
  | .add value target | .subtract value target => [.operand value, .operand (.stored target)]
  | .closeBlock a b c => [.operand a, .operand b, .comparison c]
  | .mark f | .unmark f | .pin f => [.flag f]
  | .openBlock | .goto => []

/-- The operation of a kind with the given parts. -/
def ofParts? : OpKind → List Part → Option Op
  | .define, [.operand (.stored (.var v))] => some (.define v)
  | .defineArray, [.array a] => some (.defineArray a)
  | .undefine, [.operand (.stored (.var v))] => some (.undefine v)
  | .undefineArray, [.array a] => some (.undefineArray a)
  | .read, [.operand (.stored target)] => some (.read target)
  | .print, [.operand value] => some (.print value)
  | .printChar, [.operand value] => some (.printChar value)
  | .add, [.operand value, .operand (.stored target)] => some (.add value target)
  | .subtract, [.operand value, .operand (.stored target)] => some (.subtract value target)
  | .openBlock, [] => some .openBlock
  | .closeBlock, [.operand a, .operand b, .comparison c] => some (.closeBlock a b c)
  | .mark, [.flag f] => some (.mark f)
  | .unmark, [.flag f] => some (.unmark f)
  | .pin, [.flag f] => some (.pin f)
  | .goto, [] => some .goto
  | _, _ => none

theorem ofParts?_parts
    (op : Op) :
    ofParts? op.kind op.parts = some op := by
  cases op <;> rfl

theorem dump_eq
    (op : Op) :
    op.dump = op.kind.word ++ Part.enclosed op.parts := by
  cases op with
  | openBlock => rfl
  | goto => rfl
  | _ => exact dumpNode_eq _ _

/-- The end of an operation shows where the line ends. -/
theorem dump_append_inj
    {op op' : Op} {s t : Bytes}
    (h : op.dump ++ '\n'.toUInt8 :: s = op'.dump ++ '\n'.toUInt8 :: t) :
    op = op' ∧ s = t := by
  rw [dump_eq, dump_eq, List.append_assoc, List.append_assoc] at h
  obtain ⟨hword, hrest⟩ := word_append_inj (OpKind.word_letters _) (OpKind.word_letters _)
    (Part.breaks_enclosed _ _) (Part.breaks_enclosed _ _) h
  obtain ⟨hparts, hend⟩ := Part.enclosed_append_inj hrest
  have hop : some op = some op' := by
    rw [← ofParts?_parts op, ← ofParts?_parts op', OpKind.word_inj hword, hparts]
  exact ⟨Option.some.inj hop, hend⟩

end Op

/-- The end of an operation with its line shows. -/
theorem OpLine.delimited_dump :
    Delimited noByte (fun _ => True) OpLine.dump := by
  rintro ⟨op, line, text⟩ ⟨op', line', text'⟩ s s' - - - - h
  simp only [dump, Bytes.line, List.append_assoc] at h
  obtain ⟨hline, htext⟩ := delimited_decimal line line' _ _ trivial trivial (by rfl) (by rfl)
    (List.append_cancel_left h)
  obtain ⟨htext, hop⟩ := quoted_append_inj (List.append_cancel_left htext)
  obtain ⟨hop, hend⟩ := Op.dump_append_inj (List.append_cancel_left hop)
  exact ⟨by rw [hline, htext, hop], hend⟩

end Operations

end Contrary
