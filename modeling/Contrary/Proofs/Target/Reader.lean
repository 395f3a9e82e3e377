import Contrary.Naming.Spelling
import Contrary.Proofs.Target.File

/-!
# Reading the generated C

The text of a generated program, read as a file of the part of C that it is
written in.  Nothing here depends on how such a text comes about.

**Lines.**  A line ends at a line feed, at a carriage return, or at both of them in this
order, as compilers have it.  A line that ends in a backslash goes on in the next one, also if
blanks follow the backslash, and also if the line ends in a comment.

**Definitions.**  A file starts with the definitions that its statements rely on.  The
texts that these write, the statuses that they return and the sign in `get` are read from the
text of the file; the rest of their text is fixed.

**The main function.**  A line of it is a declaration, a sequence of statements with a
comment, the head of a conditional block, the brace that ends one, or a sequence of
leak checks.

**Words.**  A name is the longest run of letters, digits and underscores.  What
follows it tells a label from a statement, and names of objects start with an
underscore.

**Blocks.**  Every head has the first brace after it that no later head has.
-/

namespace Contrary
namespace Target
namespace Reader

section Words

/-- Takes a fixed text off the front. -/
def skip (word : String) (s : Bytes) : Option Bytes :=
  (ascii word).isPrefixOf? s

def name (s : Bytes) : Option (Ident × Bytes) :=
  match s.takeWhile Spelling.isIdentifierByte with
  | [] => none
  | x => some (x, s.dropWhile Spelling.isIdentifierByte)

/-- Reads something and takes the fixed text after it. -/
def before {α : Type} (read : Bytes → Option (α × Bytes)) (word : String) (s : Bytes) :
    Option (α × Bytes) := do
  let (x, s) ← read s
  let s ← skip word s
  return (x, s)

/-- Takes a fixed text and reads what follows it. -/
def after {α : Type} (word : String) (read : Bytes → Option (α × Bytes)) (s : Bytes) :
    Option (α × Bytes) :=
  (skip word s).bind read

/-- Reads one thing after another. -/
def both {α β : Type} (first : Bytes → Option (α × Bytes)) (second : Bytes → Option (β × Bytes))
    (s : Bytes) : Option ((α × β) × Bytes) := do
  let (x, s) ← first s
  let (y, s) ← second s
  return ((x, y), s)

/-- The value of a run of digits. -/
def digitsValue (s : Bytes) : Nat :=
  s.foldl (fun n b => 10 * n + (b.toNat - 48)) 0

def natural (s : Bytes) : Option (Nat × Bytes) :=
  match s.takeWhile Bytes.isDigit with
  | [] => none
  | x => some (digitsValue x, s.dropWhile Bytes.isDigit)

/-- A number of 32 bits; a negative one stands in parentheses. -/
def literal (s : Bytes) : Option (Int32 × Bytes) :=
  match skip "(-" s with
  | some s => do
      let (n, s) ← before natural ")" s
      if n ≤ 1 <<< 31 then return (Int32.ofInt (-n), s) else none
  | none => do
      let (n, s) ← natural s
      if n < 1 <<< 31 then return (Int32.ofInt n, s) else none

def sign (s : Bytes) : Option (Sign × Bytes) :=
  ((skip "+" s).map (Sign.plus, ·)) <|> (skip "-" s).map (Sign.minus, ·)

/-- A comparison; the longer operators are tried first. -/
def comparison (s : Bytes) : Option (Comparison × Bytes) :=
  ((skip "==" s).map (Comparison.equal, ·)) <|> ((skip "!=" s).map (Comparison.notEqual, ·)) <|>
    ((skip "<=" s).map (Comparison.lessOrEqual, ·)) <|>
    ((skip ">=" s).map (Comparison.greaterOrEqual, ·)) <|>
    ((skip "<" s).map (Comparison.less, ·)) <|> (skip ">" s).map (Comparison.greater, ·)

end Words

section Expressions

def position (s : Bytes) : Option (Position × Bytes) :=
  match skip "get(" s with
  | some s => (before name ")" s).map (Prod.map .shown id)
  | none => (literal s).map (Prod.map .literal id)

/-- The rest of a cell whose name has been read. -/
def subscript (x : Ident) (s : Bytes) : Option (LValue × Bytes) :=
  match skip "[" s with
  | some s => (before position "]" s).map (Prod.map (.element x) id)
  | none => some (.scalar x, s)

def lvalue (s : Bytes) : Option (LValue × Bytes) := do
  let (x, s) ← name s
  subscript x s

def expr (s : Bytes) : Option (Expr × Bytes) :=
  match skip "get(" s with
  | some s => (before lvalue ")" s).map (Prod.map .shown id)
  | none => (literal s).map (Prod.map .literal id)

end Expressions

section Statements

/-- The rest of a statement that starts with the name of an object. -/
def objectStmt (x : Ident) (s : Bytes) : Option (Stmt × Bytes) :=
  ((skip "=true;" s).map (Stmt.setLive x true, ·)) <|>
    ((skip "=false;" s).map (Stmt.setLive x false, ·)) <|>
    ((skip "=-global;" s).map (Stmt.clear x, ·)) <|> do
      let (cell, s) ← subscript x s
      ((skip "-=global;" s).map (Stmt.rebase cell, ·)) <|>
        (before sign "=temp;" s).map (Prod.map (.moveCell cell) id)

/-- The rest of a loop over an array, from its bound on. -/
def clearAll (s : Bytes) : Option (Stmt × Bytes) := do
  let (n, s) ← before natural ";i++)\x7b" s
  (before name "[i]=-global;\x7d" s).map (Prod.map (.clearAll · n) id)

/-- The rest of a statement that starts with another word. -/
def wordStmt (x : Ident) (s : Bytes) : Option (Stmt × Bytes) :=
  if x = ascii "ASSERT_ALIVE" then do
    let s ← skip "(" s
    (before name ");" s).map (Prod.map .assertLive id)
  else if x = ascii "for" then do
    let s ← skip "(int i=0;i<" s
    clearAll s
  else if x = ascii "scanf" then do
    let s ← skip "(\"%d\",&" s
    (before lvalue ");" s).map (Prod.map .scan id)
  else if x = ascii "printf" then
    match skip "(\"%d\\n\"," s with
    | some s => (before expr ");" s).map (Prod.map .printNumber id)
    | none => do
        let s ← skip "(\"%c\\n\",(char)" s
        (before expr ");" s).map (Prod.map .printChar id)
  else if x = ascii "int" then
    match skip " temp=" s with
    | some s => (before expr ";" s).map (Prod.map .saveValue id)
    | none => do
        let s ← skip "* addr=&" s
        (before lvalue ";" s).map (Prod.map .saveAddress id)
  else if x = ascii "global" then (before sign "=temp;" s).map (Prod.map .moveOffset id)
  else if x = ascii "label" then do
    let s ← skip "=&&" s
    (before name ";" s).map (Prod.map .take id)
  else if x = ascii "GOTO" then (skip ";" s).map (Stmt.goto, ·)
  else none

/-- One statement. -/
def stmt (s : Bytes) : Option (Stmt × Bytes) :=
  match skip "(*addr)" s with
  | some s => (before sign "=temp;" s).map (Prod.map .moveSaved id)
  | none => do
      let (x, s) ← name s
      match skip ":;" s with
      | some s => return (.place x, s)
      | none => if x.head? = some '_'.toUInt8 then objectStmt x s else wordStmt x s

/-- As many statements as there are. -/
def stmts (s : Bytes) : List Stmt × Bytes :=
  match stmt s with
  | none => ([], s)
  | some (st, rest) =>
      if rest.length < s.length then
        let (sts, rest) := stmts rest
        (st :: sts, rest)
      else ([], s)
termination_by s.length

end Statements

section Lines

/-- What a line in the body of a program is. -/
inductive Row where
  | line (l : Line)
  | opens (h : Head)
  | closes
  deriving DecidableEq, Repr

def headRow (checks : List Stmt) (s : Bytes) : Option Row := do
  let s ← skip "if(" s
  let (left, s) ← expr s
  let (c, s) ← comparison s
  let (right, s) ← expr s
  if s = ascii ")\x7b" then return .opens ⟨checks, left, right, c⟩ else none

def row (s : Bytes) : Option Row :=
  if s = ascii "\x7d" then some .closes
  else
    match skip "\x7b" s with
    | some s =>
        let (body, s) := stmts s
        (skip "\x7d//" s).map fun comment => .line ⟨true, body, comment⟩
    | none =>
        let (body, s) := stmts s
        match skip "//" s with
        | some comment => some (.line ⟨false, body, comment⟩)
        | none => headRow body s

/-- The end of a declaration: the liveness variable. -/
def declLive (s : Bytes) : Option Ident := do
  let s ← skip "; bool " s
  let (live, s) ← name s
  if s = ascii "=false;" then return live else none

def decl (s : Bytes) : Option Decl := do
  let (x, s) ← before name " " s
  let (y, s) ← name s
  if x = ascii "bool" then
    if s = ascii "=true;" then return .flag y else none
  else if x = ascii "int" then
    match skip "[" s with
    | some s => do
        let (n, s) ← before natural "]=\x7b\x7d" s
        return .array y (← declLive s) n
    | none => do
        let s ← skip "=0" s
        return .scalar y (← declLive s)
  else none

/-- As many declarations as there are, and the lines after them. -/
def decls : List Bytes → List Decl × List Bytes
  | [] => ([], [])
  | l :: ls =>
      match decl l with
      | some d => (d :: (decls ls).1, (decls ls).2)
      | none => ([], l :: ls)

def leakCheck (s : Bytes) : Option (LeakCheck × Bytes) := do
  let s ← skip "LEAK_CHECK(" s
  let (live, s) ← before name ",\"" s
  let (x, s) ← before name "\");" s
  return (⟨live, x⟩, s)

/-- The leak checks that make up a line. -/
def leakChecks (s : Bytes) : Option (List LeakCheck) :=
  if s.isEmpty then some []
  else
    match leakCheck s with
    | none => none
    | some (k, rest) =>
        if rest.length < s.length then (leakChecks rest).map (k :: ·) else none
termination_by s.length

end Lines

section Definitions

/-- The byte that a backslash and the given byte stand for. -/
def escape? (b : UInt8) : Option UInt8 :=
  if b = 'n'.toUInt8 then some '\n'.toUInt8
  else if b = '"'.toUInt8 ∨ b = '\\'.toUInt8 then some b
  else none

/-- The bytes of a string literal after its first quote, or after a backslash in it. -/
def quotedFrom : (escaped : Bool) → Bytes → Option (Bytes × Bytes)
  | _, [] => none
  | true, b :: s => do
      let c ← escape? b
      let (text, rest) ← quotedFrom false s
      return (c :: text, rest)
  | false, b :: s =>
      if b = '"'.toUInt8 then some ([], s)
      else if b = '\\'.toUInt8 then quotedFrom true s
      else do
        let (text, rest) ← quotedFrom false s
        return (b :: text, rest)

/-- A string literal. -/
def quoted : Bytes → Option (Bytes × Bytes) :=
  after "\"" (quotedFrom false)

/-- A format with one gap: a percent sign and an `s`. -/
def format (s : Bytes) : Option Format :=
  match s.dropWhile (· ≠ '%'.toUInt8) with
  | _ :: c :: more =>
      if c = 's'.toUInt8 ∧ '%'.toUInt8 ∉ more then
        some ⟨s.takeWhile (· ≠ '%'.toUInt8), more⟩
      else none
  | _ => none

/-- A call that writes the argument of the given name. -/
def printedName (argument : String) (s : Bytes) : Option (Format × Bytes) := do
  let (text, s) ← after "printf(" (before quoted ",") s
  let f ← format text
  let s ← skip argument s
  let s ← skip ");" s
  return (f, s)

/-- A call that writes a text as it is. -/
def printedText (s : Bytes) : Option (Bytes × Bytes) := do
  let (text, s) ← after "printf(" (before quoted ");") s
  if '%'.toUInt8 ∈ text then none else return (text, s)

def returned : Bytes → Option (Nat × Bytes) :=
  after "return " (before natural ";")

/-- A line with a fixed text. -/
def fixed (text : String) : List Bytes → Option (List Bytes)
  | [] => none
  | l :: ls => if l = ascii text then some ls else none

/-- A line that is read to its end. -/
def whole {α : Type} (read : Bytes → Option (α × Bytes)) : List Bytes → Option (α × List Bytes)
  | [] => none
  | l :: ls =>
      match read l with
      | some (x, []) => some (x, ls)
      | _ => none

/-- The function that writes about a text and returns a status. -/
def errFunction (ls : List Bytes) : Option ((Format × Nat) × List Bytes) := do
  let ls ← fixed "int err(char* text)" ls
  let ls ← fixed "\x7b" ls
  let (f, ls) ← whole (after "    " (printedName "text")) ls
  let (status, ls) ← whole (after "    " returned) ls
  let ls ← fixed "\x7d" ls
  return ((f, status), ls)

/-- The macro that jumps to the label, or hands a text to `err`. -/
def gotoMacro : Bytes → Option (Bytes × Bytes) :=
  after "#define GOTO if(label!=NULL) goto *label; else return err(" (before quoted ")")

/-- The macro that writes about a name and returns a status if something is alive. -/
def leakMacro : Bytes → Option ((Format × Nat) × Bytes) :=
  after "#define LEAK_CHECK(on_name,normal) if(on_name) \x7b"
    (before (both (printedName "normal") returned) "\x7d")

/-- The macro that writes a text and returns a status unless something is alive. -/
def aliveMacro : Bytes → Option ((Bytes × Nat) × Bytes) :=
  after "#define ASSERT_ALIVE(bool_name) if(!(bool_name)) \x7b"
    (before (both printedText returned) "\x7d")

/-- The function that undoes the offset of a number. -/
def getFunction (ls : List Bytes) : Option (Sign × List Bytes) := do
  let ls ← fixed "int get(int val)" ls
  let ls ← fixed "\x7b" ls
  let (sign, ls) ← whole (after "    return val " (before sign " global;")) ls
  let ls ← fixed "\x7d" ls
  return (sign, ls)

/-- The definitions before the main function, and the lines after them. -/
def definitions (ls : List Bytes) : Option (Definitions × List Bytes) := do
  let ls ← fixed "#include <stdio.h>" ls
  let ls ← fixed "#include <stdbool.h>" ls
  let ls ← fixed "#include <stdlib.h>" ls
  let (global, ls) ← whole (after "int global=" (before literal ";")) ls
  let ls ← fixed "void* label=NULL;" ls
  let (err, ls) ← errFunction ls
  let (unpinned, ls) ← whole gotoMacro ls
  let (leak, ls) ← whole leakMacro ls
  let (dead, ls) ← whole aliveMacro ls
  let (get, ls) ← getFunction ls
  return (⟨global, get, err.1, err.2, unpinned, leak.1, leak.2, dead.1, dead.2⟩, ls)

end Definitions

section Programs

/-- Gives all line ends the same form, a line feed. -/
def unifyEnds : Bytes → Bytes
  | [] => []
  | [b] => if b = '\r'.toUInt8 then ['\n'.toUInt8] else [b]
  | b :: c :: s =>
      if b = '\r'.toUInt8 then
        if c = '\n'.toUInt8 then '\n'.toUInt8 :: unifyEnds s else '\n'.toUInt8 :: unifyEnds (c :: s)
      else b :: unifyEnds (c :: s)

/-- The lines of a text, as they stand there. -/
def physicalLines (text : Bytes) : List Bytes :=
  Bytes.splitOn '\n'.toUInt8 (unifyEnds text)

/-- A blank that may stand between a backslash and the end of its line. -/
def isGap (b : UInt8) : Bool :=
  [0x00, 0x09, 0x0B, 0x0C, 0x20].contains b

/-- A line that goes on in the next one. -/
def continues (line : Bytes) : Bool :=
  (Bytes.dropEndWhile isGap line).getLast? == some '\\'.toUInt8

/-- Joins every line that goes on with the line after it. -/
def splice : List Bytes → List Bytes
  | [] => []
  | l :: ls =>
      match splice ls with
      | [] => [l]
      | next :: more =>
          if continues l then ((Bytes.dropEndWhile isGap l).dropLast ++ next) :: more
          else l :: next :: more

/-- Nests the rows of a body, from the last one up: the blocks that have been ended
below are given innermost first. -/
def nest : List Row → Option (List Block)
  | [] => some [.done]
  | r :: rs =>
      match r, nest rs with
      | .line l, some (next :: outer) => some (.line l next :: outer)
      | .closes, some outer => some (.done :: outer)
      | .opens h, some (body :: next :: outer) => some (.branch h body next :: outer)
      | _, _ => none

/-- The body of a program and the leak checks after it. -/
def body (lines : List Bytes) : Option (Block × List LeakCheck) :=
  match lines.reverse with
  | [] :: last :: checks :: above => do
      if last = ascii "\x7d" then
        let leaks ← leakChecks checks
        let rows ← above.reverse.mapM row
        match nest rows with
        | some [b] => return (b, leaks)
        | _ => none
      else none
  | _ => none

end Programs
end Reader

/-- The file with the given definitions whose main function lines spell. -/
def File.ofMain? (defs : Definitions) (lines : List Bytes) : Option File := do
  let lines ← Reader.fixed "int main()\x7b" lines
  let (decls, lines) := Reader.decls lines
  let (b, leaks) ← Reader.body lines
  return .main defs decls b leaks

/-- The file that lines spell. -/
def File.ofLines? (lines : List Bytes) : Option File :=
  if lines = [ascii "int main()\x7b\x7d"] then some .empty
  else do
    let (defs, lines) ← Reader.definitions (Reader.splice lines)
    File.ofMain? defs lines

/-- The file that a text spells. -/
def File.ofText? (text : Bytes) : Option File :=
  File.ofLines? (Reader.physicalLines text)

end Target
end Contrary
