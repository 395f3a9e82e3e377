import Contrary.Build
import Contrary.Proofs.Reading
import Contrary.Proofs.Target.Linear
import Contrary.Proofs.Trimming

/-!
# Layout does not matter

The essence of a source is what is left of its lines when they are trimmed and those
without code are dropped.  Sources of the same essence give the same C text, or are refused
at the same stage for the same cause.  Only the line numbers and texts that a fault is
reported with may differ.

**Essence.**  Line ends of all kinds are taken care of once: `Listing.essence` may be computed
from the pieces between line feeds (`essence_eq_kept`), so it takes a source line by line
(`essence_append`, `essence_join`).

**Stages.**  Each stage depends on a view of what the stage before it gives: the coded lines
of the token lines (`ofSource_coded`), the gist of a program (`ofTokenLines_gist`), and the
pieces of the generated text (`toC_of_gist`).

**Results.**
* `outcome_of_essence`: what comes of a build depends on the essence only.
* `layout_is_irrelevant`: the same, with the changes of layout that keep the essence.
-/

namespace Contrary

namespace Listing

/-- A line without code: only blanks follow its last slash. -/
def isSilent (line : Bytes) : Bool :=
  (glyphs (Token.codeText line)).all Glyph.isBlank

/-- Lines as they matter: trimmed, and without those that have no code. -/
def kept (lines : List Bytes) : List Bytes :=
  (lines.map Bytes.trim).filter fun l => !isSilent l

/-- The lines of a source as they matter. -/
def essence (source : Bytes) : List Bytes :=
  kept (lines source)

/-- The same source with a carriage return before every line feed. -/
def withReturns (source : Bytes) : Bytes :=
  source.flatMap fun b => if b = '\n'.toUInt8 then ['\r'.toUInt8, b] else [b]

section Essence

theorem isSilent_iff
    {line : Bytes} :
    isSilent line = true ↔ IsBlankText (Token.codeText line) :=
  List.all_eq_true

theorem isSilent_nil :
    isSilent [] = true :=
  isSilent_iff.mpr isBlankText_nil

/-- Trimming leaves a line without code without code. -/
theorem isSilent_trim
    {line : Bytes}
    (h : isSilent line = true) :
    isSilent line.trim = true := by
  rw [isSilent_iff] at h
  rcases eq_append_codeText line with hline | ⟨comments, hline⟩
  · rw [← hline] at h
    rw [Bytes.trim_of_isBlankText h]
    exact isSilent_nil
  · -- the slash is no blank, so trimming from the end stops there
    have hslash : (Glyph.ofByte '/'.toUInt8).Encoded '/'.toUInt8 [] :=
      ⟨rfl, Glyph.first_of_lt (by decide), by decide, by simp, by simp⟩
    have hstarts : Glyph.Starts ['/'.toUInt8] := by
      intro x hx
      cases hx
      rfl
    have hkept : ∀ s, Bytes.trimEnd (s ++ ['/'.toUInt8]) = s ++ ['/'.toUInt8] :=
      fun s => Bytes.trimEnd_encoded hslash s
    have htrim : line.trim = (comments ++ ['/'.toUInt8]).trim := by
      rw [hline, ← List.singleton_append, ← List.append_assoc, Bytes.trim_append h]
    have hend : ∃ s, line.trim = s ++ ['/'.toUInt8] := by
      rw [htrim, Bytes.trim]
      by_cases hblank : IsBlankText comments
      · refine ⟨[], ?_⟩
        rw [Bytes.trimFront_blank_append hblank]
        have hfront : Bytes.trimFront ['/'.toUInt8] = ['/'.toUInt8] :=
          Bytes.trimFront_encoded hslash []
        rw [hfront]
        exact hkept []
      · exact ⟨_, by rw [Bytes.trimFront_append hblank hstarts, hkept]⟩
    obtain ⟨s, hs⟩ := hend
    rw [hs, isSilent_iff, codeText_append_slash s (by simp)]
    exact isBlankText_nil

theorem kept_append
    (ls ls' : List Bytes) :
    kept (ls ++ ls') = kept ls ++ kept ls' := by
  simp [kept]

theorem kept_of_isSilent
    {line : Bytes}
    (h : isSilent line = true) :
    kept [line] = [] := by
  simp [kept, isSilent_trim h]

theorem trim_dropReturn
    (s : Bytes) :
    (dropReturn s).trim = s.trim := by
  unfold dropReturn
  split_ifs with hreturn
  · obtain ⟨init, rfl⟩ := List.getLast?_eq_some_iff.mp hreturn
    have hblank : IsBlankText ['\r'.toUInt8] := by decide +kernel
    rw [List.dropLast_concat, Bytes.trim_append hblank]
  · rfl

/-- The line ends do not matter: the essence may be taken from the pieces between line
feeds. -/
theorem essence_eq_kept
    (source : Bytes) :
    essence source = kept (Bytes.splitOn '\n'.toUInt8 source) := by
  have hreturns : ∀ ls : List Bytes, kept (ls.map dropReturn) = kept ls := by
    intro ls
    simp [kept, Function.comp_def, trim_dropReturn]
  unfold essence lines
  rw [hreturns]
  split_ifs with hlast
  · obtain ⟨init, hinit⟩ := List.getLast?_eq_some_iff.mp hlast
    rw [hinit, List.dropLast_concat, kept_append, kept_of_isSilent isSilent_nil, List.append_nil]
  · rfl

/-- The essence of a source is taken part by part. -/
theorem essence_append
    (s t : Bytes) :
    essence (s ++ '\n'.toUInt8 :: t) = essence s ++ essence t := by
  rw [essence_eq_kept, essence_eq_kept, essence_eq_kept, splitOn_append_sep, kept_append]

theorem essence_line
    {line : Bytes}
    (h : '\n'.toUInt8 ∉ line) :
    essence line = kept [line] := by
  rw [essence_eq_kept, splitOn_of_notMem h]

theorem essence_nil :
    essence [] = [] := by
  rw [essence_line (by simp), kept_of_isSilent isSilent_nil]

theorem essence_join
    (ls : List Bytes) :
    essence (join ls) = ls.flatMap essence := by
  induction ls with
  | nil => exact essence_nil
  | cons l ls ih =>
      cases ls with
      | nil => simp [join, List.intercalate]
      | cons l' ls =>
          have hjoin : join (l :: l' :: ls) = l ++ '\n'.toUInt8 :: join (l' :: ls) := by
            simp [join, List.intercalate]
          rw [hjoin, essence_append, ih]
          rfl

theorem essence_final_newline
    (source : Bytes) :
    essence (source ++ ['\n'.toUInt8]) = essence source := by
  rw [essence_append, essence_nil, List.append_nil]

/-- Blanks around a line do not matter. -/
theorem essence_indent
    {w l w' : Bytes}
    (hw : IsBlankText w)
    (hw' : IsBlankText w')
    (hline : '\n'.toUInt8 ∉ w ++ (l ++ w')) :
    essence (w ++ (l ++ w')) = essence l := by
  have hl : '\n'.toUInt8 ∉ l := by
    simp only [List.mem_append, not_or] at hline
    exact hline.2.1
  rw [essence_line hline, essence_line hl]
  simp only [kept, List.map_cons, List.map_nil, Bytes.trim_append_blank hw hw']

theorem withReturns_of_notMem
    {l : Bytes}
    (hl : '\n'.toUInt8 ∉ l) :
    withReturns l = l := by
  unfold withReturns
  induction l with
  | nil => rfl
  | cons b l ih =>
      rw [List.mem_cons, not_or] at hl
      rw [List.flatMap_cons, if_neg (Ne.symm hl.1), ih hl.2]
      rfl

theorem withReturns_append
    (s t : Bytes) :
    withReturns (s ++ '\n'.toUInt8 :: t) =
      withReturns s ++ ['\r'.toUInt8] ++ '\n'.toUInt8 :: withReturns t := by
  simp [withReturns]

/-- Carriage returns before line feeds do not matter. -/
theorem essence_withReturns
    (source : Bytes) :
    essence (withReturns source) = essence source := by
  induction hn : source.length using Nat.strongRecOn generalizing source with
  | ind n ih =>
      by_cases hnewline : '\n'.toUInt8 ∈ source
      · obtain ⟨l, rest, rfl, hl⟩ := List.eq_append_cons_of_mem hnewline
        have hrest := ih rest.length (by rw [← hn]; simp; omega) rest rfl
        have hreturn : essence (l ++ ['\r'.toUInt8]) = essence l := by
          refine essence_indent isBlankText_nil (by decide +kernel) ?_
          rw [List.nil_append, List.mem_append, not_or]
          exact ⟨hl, by decide⟩
        rw [withReturns_append, withReturns_of_notMem hl, essence_append, essence_append, hreturn,
          hrest]
      · rw [withReturns_of_notMem hnewline]

end Essence

end Listing

section Stages

/-- The code of a line with a text, unless the line has none. -/
def Token.coding (tokens : List Token) (text : Bytes) : List (List Token × Bytes) :=
  [(tokens.filter fun t => !t.isComment, text)].filter fun c => !c.1.isEmpty

/-- The code of the token lines that have some, each with its source line trimmed. -/
def TokenLine.coded (tls : List TokenLine) : List (List Token × Bytes) :=
  tls.flatMap fun tl => Token.coding tl.tokens tl.raw.trim

/-- Reads lines, the bottom line first, for their code. -/
def Token.ofKept : List Bytes → Except LiteralError (List (List Token × Bytes))
  | [] => .ok []
  | l :: ls =>
      match Token.ofLine l with
      | .error e => .error e
      | .ok tokens => (ofKept ls).map (Token.coding tokens l ++ ·)

section Tokens

theorem Lexeme.scan_of_isBlank
    {gs : List Glyph}
    (h : ∀ g ∈ gs, g.isBlank = true) :
    Lexeme.scan gs = [] := by
  induction gs with
  | nil => rw [Lexeme.scan.eq_def]
  | cons g gs ih =>
      obtain ⟨hg, hgs⟩ := List.forall_mem_cons.mp h
      rw [Lexeme.scan_blank hg, ih hgs]

/-- A line without code can be read, and there is nothing in it. -/
theorem Token.ofLine_of_isSilent
    {l : Bytes}
    (h : Listing.isSilent l = true) :
    ∃ tokens, Token.ofLine l = .ok tokens ∧ ∀ text, Token.coding tokens text = [] := by
  have hcode : Token.ofCode (Token.codeText l) = .ok [] := by
    rw [Token.ofCode, Lexeme.scan_of_isBlank (Listing.isSilent_iff.mp h)]
    rfl
  have hline : Token.ofLine l =
      .ok ((Bytes.splitOn '/'.toUInt8 l).dropLast.map Token.comment ++ []) :=
    congrArg (Except.map _) hcode
  have hnone := Token.ofCode_of_ofLine hline
  rw [hcode] at hnone
  refine ⟨_, hline, ?_⟩
  intro text
  rw [Token.coding, ← Except.ok.inj hnone]
  rfl

/-- Only the lines that are kept matter to what is read. -/
theorem TokenLine.ofLines_coded
    (total : Nat) (raws : List Bytes) :
    ∀ below : Nat,
      ((TokenLine.ofLines total below raws).mapError Located.cause).map TokenLine.coded =
        Token.ofKept (Listing.kept raws) := by
  induction raws with
  | nil =>
      intro below
      rfl
  | cons raw above ih =>
      intro below
      have hrest := ih (below + 1)
      unfold TokenLine.ofLines
      cases hsilent : Listing.isSilent raw.trim with
      | true =>
          have hkept : Listing.kept (raw :: above) = Listing.kept above := by
            simp [Listing.kept, hsilent]
          obtain ⟨tokens, hline, hnone⟩ := Token.ofLine_of_isSilent hsilent
          rw [hkept, ← hrest, hline]
          cases TokenLine.ofLines total (below + 1) above with
          | error e => rfl
          | ok tls => simp [Except.mapError, Except.map, TokenLine.coded, hnone]
      | false =>
          have hkept : Listing.kept (raw :: above) = raw.trim :: Listing.kept above := by
            simp [Listing.kept, hsilent]
          rw [hkept, Token.ofKept, ← hrest]
          cases Token.ofLine raw.trim with
          | error e => rfl
          | ok tokens => cases TokenLine.ofLines total (below + 1) above <;> rfl

/-- The coded lines of a source are those of its essence. -/
theorem TokenLine.ofSource_coded
    (source : Bytes) :
    ((TokenLine.ofSource source).mapError Located.cause).map TokenLine.coded =
      Token.ofKept (Listing.essence source).reverse := by
  have hreverse : Listing.kept (Listing.lines source).reverse =
      (Listing.essence source).reverse := by
    simp [Listing.kept, Listing.essence]
  rw [← hreverse]
  exact TokenLine.ofLines_coded _ _ 0

end Tokens

namespace Program

/-- What a program says: its operations, each with its source line trimmed, and its
names. -/
def gist (p : Program) : List (Op × Bytes) × Names :=
  (p.ops.toList.map fun l => (l.op, l.text.trim), p.names)

theorem coding_of_code
    (tl : TokenLine) (text : Bytes) :
    Token.coding tl.tokens text = if (code tl).isEmpty then [] else [(code tl, text)] := by
  cases hcode : (code tl).isEmpty <;> simp_all [Token.coding, code]

theorem codes_eq_coded
    (tls : List TokenLine) :
    codes tls = (TokenLine.coded tls).map Prod.fst := by
  induction tls with
  | nil => rfl
  | cons tl tls ih =>
      have hcoded : TokenLine.coded (tl :: tls) =
          Token.coding tl.tokens tl.raw.trim ++ TokenLine.coded tls := rfl
      rw [hcoded, coding_of_code, List.map_append, ← ih]
      cases hcode : (code tl).isEmpty <;> simp [codes, hcode]

/-- The texts of the operations are the lines with code. -/
theorem readLines_texts
    {total : Nat} (above : List TokenLine) :
    ∀ {below : Nat} {p p' : Program},
      readLines total below p above = .ok p' →
      p'.ops.toList.map (fun l => l.text.trim) =
        p.ops.toList.map (fun l => l.text.trim) ++ (TokenLine.coded above).map Prod.snd := by
  induction above with
  | nil =>
      intro below p p' h
      cases h
      simp [TokenLine.coded]
  | cons tl above ih =>
      intro below p p' h
      have hcoded : TokenLine.coded (tl :: above) =
          Token.coding tl.tokens tl.raw.trim ++ TokenLine.coded above := rfl
      rw [hcoded, coding_of_code]
      unfold readLines at h
      split_ifs at h ⊢ with hcode
      · exact ih h
      · split at h
        · cases h
        · rw [ih h]
          simp

theorem gist_eq_zip
    (p : Program) :
    p.gist = (p.content.1.zip (p.ops.toList.map fun l => l.text.trim), p.content.2) := by
  rw [gist, content, List.zip_map']

/-- The gist of a program that is read depends on the coded lines only, and so does the
cause for which reading fails. -/
theorem ofTokenLines_gist
    (tls : List TokenLine) :
    ((ofTokenLines tls).mapError Located.cause).map gist =
      (Op.ofCodes Names.empty ((TokenLine.coded tls).map Prod.fst)).map fun r =>
        (r.1.zip ((TokenLine.coded tls).map Prod.snd), r.2) := by
  rw [← codes_eq_coded, ← ofTokenLines_content]
  cases hp : ofTokenLines tls with
  | error e => rfl
  | ok p =>
      have htexts : p.ops.toList.map (fun l => l.text.trim) =
          (TokenLine.coded tls).map Prod.snd := readLines_texts tls hp
      simp only [Except.mapError, Except.map, gist_eq_zip, htexts]

end Program

namespace Target

variable {p p' : Program}

theorem lineText_of_gist
    (names : Names) {l l' : OpLine}
    (hop : l.op = l'.op)
    (htext : l.text.trim = l'.text.trim) :
    lineText names l = lineText names l' := by
  simp only [lineText, line, annotation, hop, htext]

theorem ops_of_gist
    (h : p.gist = p'.gist) (i : Nat) :
    (p.ops[i]? = none ∧ p'.ops[i]? = none) ∨
      ∃ l l', p.ops[i]? = some l ∧ p'.ops[i]? = some l' ∧
        l.op = l'.op ∧ l.text.trim = l'.text.trim := by
  have hmap : p.ops.map (fun l => (l.op, l.text.trim)) =
      p'.ops.map (fun l => (l.op, l.text.trim)) := by
    apply Array.toList_inj.mp
    simpa [Program.gist] using congrArg Prod.fst h
  rcases getElem?_of_map_eq hmap i with hnone | ⟨l, l', hl, hl', hview⟩
  · exact Or.inl hnone
  · exact Or.inr ⟨l, l', hl, hl', congrArg Prod.fst hview, congrArg Prod.snd hview⟩

theorem conditionAt?_of_gist
    (h : p.gist = p'.gist) (j : Nat) :
    conditionAt? p j = conditionAt? p' j := by
  rcases ops_of_gist h j with ⟨hl, hl'⟩ | ⟨⟨op, _, _⟩, ⟨op', _, _⟩, hl, hl', hop, -⟩
  · simp only [conditionAt?, hl, hl']
  · cases hop
    simp only [conditionAt?, hl, hl']
    cases op <;> rfl

/-- The piece of an operation depends on the gist of the program. -/
theorem piece_of_gist
    (h : p.gist = p'.gist) (t : Pairing) (i : Nat) :
    piece p t i = piece p' t i := by
  have hnames : p.names = p'.names := congrArg Prod.snd h
  have hconditions : conditionAt? p = conditionAt? p' := funext (conditionAt?_of_gist h)
  unfold piece
  rcases ops_of_gist h i with ⟨hl, hl'⟩ | ⟨l, l', hl, hl', hop, htext⟩
  · simp only [hl, hl']
  · simp only [hl, hl', hop, hnames, hconditions, lineText_of_gist p'.names hop htext]

/-- The body of a generated program, operation by operation. -/
theorem render_of_nesting
    {n : Nesting} {t : Pairing}
    (hn : Nesting.ofOps p.lineCount p.ops.toList = .ok n)
    (ht : Pairing.ofOps (p.ops.toList.map OpLine.op) = .ok t) :
    (block p.names n).render = (List.range p.ops.size).flatMap (piece p t) := by
  obtain ⟨m, hload, rfl, -, hlies, hend⟩ := Machine.resumes_load hn
  have hwidth : n.width = m.program.ops.size := by
    rw [← Nat.zero_add n.width]
    exact hend
  have hclosing : m.closing = t := by
    unfold Machine.load at hload
    rw [ht] at hload
    exact (congrArg Machine.closing (Except.ok.inj hload)).symm
  rw [render_block hlies, hclosing, hwidth, List.range_eq_range']

/-- The generated text depends on the gist of the program, and so does the cause for which
its blocks do not pair. -/
theorem toC_of_gist
    (h : p.gist = p'.gist) :
    p.toC.mapError Located.cause = p'.toC.mapError Located.cause := by
  have hnames : p.names = p'.names := congrArg Prod.snd h
  have hops : p.ops.toList.map OpLine.op = p'.ops.toList.map OpLine.op := by
    have hfirst := congrArg (fun g => g.1.map Prod.fst) h
    simpa [Program.gist, Function.comp_def] using hfirst
  have hsize : p.ops.size = p'.ops.size := by
    have hlength := congrArg List.length hops
    simpa using hlength
  unfold Program.toC
  cases hn : Nesting.ofOps p.lineCount p.ops.toList with
  | error e =>
      obtain ⟨j, -, -, -, hpairs⟩ := ofOps_of_nesting_error hn
      cases hn' : Nesting.ofOps p'.lineCount p'.ops.toList with
      | ok n' =>
          obtain ⟨-, hpairs'⟩ := ofOps_of_nesting hn'
          rw [hops, hpairs'] at hpairs
          cases hpairs
      | error e' =>
          obtain ⟨j', -, -, -, hpairs'⟩ := ofOps_of_nesting_error hn'
          rw [hops, hpairs'] at hpairs
          have hcause : e'.cause = e.cause :=
            congrArg BlockError.cause (Except.error.inj hpairs)
          rw [ofProgram_of_nesting_error hn, ofProgram_of_nesting_error hn']
          exact congrArg Except.error hcause.symm
  | ok n =>
      obtain ⟨-, hpairs⟩ := ofOps_of_nesting hn
      cases hn' : Nesting.ofOps p'.lineCount p'.ops.toList with
      | error e' =>
          obtain ⟨j', -, -, -, hpairs'⟩ := ofOps_of_nesting_error hn'
          rw [hops, hpairs'] at hpairs
          cases hpairs
      | ok n' =>
          have hpairs' := hops ▸ hpairs
          have hbody : (block p.names n).render = (block p'.names n').render := by
            rw [render_of_nesting hn hpairs, render_of_nesting hn' hpairs', hsize]
            exact congrArg (List.flatMap · _) (funext (piece_of_gist h _))
          have hempty : p.ops.isEmpty = p'.ops.isEmpty := by
            simp only [Array.isEmpty, hsize]
          unfold Code.ofProgram
          rw [hn, hn', hempty]
          split_ifs
          · rfl
          · simp only [Except.map, Code.render, hbody]
            rw [hnames]

end Target

end Stages

/-- What is wrong with a source, without the line. -/
inductive Fault where
  | literal (cause : LiteralError)
  | phrase (cause : PhraseError)
  | block (cause : Imbalance)
  deriving DecidableEq, Repr

/-- What a fault of a source says, without the line. -/
def SourceError.fault : SourceError → Fault
  | .literal e => .literal e.cause
  | .phrase e => .phrase e.cause
  | .block e => .block e.cause

/-- What comes of a source: the C text, or what is wrong with the source. -/
def Build.outcome (o : Options) (elapsed : Stage → Bytes) (source : Bytes) : Except Fault Bytes :=
  ((run o elapsed source).2.map Product.code).mapError SourceError.fault

section Whole

variable {o : Build.Options} {elapsed : Stage → Bytes}

/-- What comes of a source depends on its essence only. -/
theorem Build.outcome_of_essence
    {source source' : Bytes}
    (h : Listing.essence source = Listing.essence source') :
    Build.outcome o elapsed source = Build.outcome o elapsed source' := by
  have htokens := (TokenLine.ofSource_coded source).trans
    ((congrArg (fun ls => Token.ofKept ls.reverse) h).trans
      (TokenLine.ofSource_coded source').symm)
  unfold Build.outcome Build.run
  rcases map_mapError_eq_iff.mp htokens with
    ⟨e, e', he, he', hcause⟩ | ⟨tls, tls', htls, htls', hcoded⟩
  · simp [he, he', Except.map, Except.mapError, SourceError.fault, hcause]
  · have hprogram := Program.ofTokenLines_gist tls
    rw [hcoded, ← Program.ofTokenLines_gist tls'] at hprogram
    rcases map_mapError_eq_iff.mp hprogram with ⟨e, e', he, he', hcause⟩ | ⟨p, p', hp, hp', hgist⟩
    · simp [htls, htls', he, he', Except.map, Except.mapError, SourceError.fault, hcause]
    · have hcode := Target.toC_of_gist hgist
      simp only [htls, htls', hp, hp']
      cases hc : p.toC <;> cases hc' : p'.toC <;>
        simp_all [Except.map, Except.mapError, SourceError.fault]

/-- **Layout does not matter.**  Take the lines of a source, trim them, and drop those in
which only blanks follow the last slash.  Sources for which the same lines are left give
the same C text, or fail at the same stage for the same cause.  In particular, a line feed at
the end, carriage returns before line feeds, blanks before and after a line, and lines that
are blank or hold only comments change nothing. -/
theorem layout_is_irrelevant
    (o : Build.Options) (elapsed : Stage → Bytes) :
    (∀ source source', Listing.essence source = Listing.essence source' →
      Build.outcome o elapsed source = Build.outcome o elapsed source') ∧
    (∀ source, Build.outcome o elapsed (source ++ ['\n'.toUInt8]) =
      Build.outcome o elapsed source) ∧
    (∀ source, Build.outcome o elapsed (Listing.withReturns source) =
      Build.outcome o elapsed source) ∧
    (∀ above l below w w', IsBlankText w → IsBlankText w' → '\n'.toUInt8 ∉ w ++ (l ++ w') →
      Build.outcome o elapsed (Listing.join (above ++ (w ++ (l ++ w')) :: below)) =
        Build.outcome o elapsed (Listing.join (above ++ l :: below))) ∧
    ∀ above l below, '\n'.toUInt8 ∉ l → Listing.isSilent l = true →
      Build.outcome o elapsed (Listing.join (above ++ l :: below)) =
        Build.outcome o elapsed (Listing.join (above ++ below)) := by
  refine ⟨?_, ?_, ?_, ?_, ?_⟩
  · intro source source' h
    exact Build.outcome_of_essence h
  · intro source
    exact Build.outcome_of_essence (Listing.essence_final_newline source)
  · intro source
    exact Build.outcome_of_essence (Listing.essence_withReturns source)
  · intro above l below w w' hw hw' hline
    refine Build.outcome_of_essence ?_
    rw [Listing.essence_join, Listing.essence_join, List.flatMap_append, List.flatMap_append,
      List.flatMap_cons, List.flatMap_cons, Listing.essence_indent hw hw' hline]
  · intro above l below hline hsilent
    refine Build.outcome_of_essence ?_
    rw [Listing.essence_join, Listing.essence_join, List.flatMap_append, List.flatMap_append,
      List.flatMap_cons, Listing.essence_line hline, Listing.kept_of_isSilent hsilent,
      List.nil_append]

/-- Makes a variable, shows it and takes it away. -/
def tidy : Bytes :=
  Listing.join (["define x", "read to x", "undefine x"].map ascii)

/-- The same lines with carriage returns, a no-break space before the first, blanks around
the second, and lines without code between and after them. -/
def untidy : Bytes :=
  Listing.withReturns <| Listing.join
    [ [0xC2, 0xA0] ++ ascii "define x", ascii "  ", ascii "\tread to x  ", ascii "shows x / ",
      ascii "undefine x", [] ]

theorem untidy_outcome :
    Listing.essence untidy = Listing.essence tidy ∧
    (∃ code, Build.outcome ⟨false, false⟩ (fun _ => []) tidy = .ok code ∧
      Build.outcome ⟨false, false⟩ (fun _ => []) untidy = .ok code) ∧
    IsBlankText [0xC2, 0xA0] ∧ Listing.isSilent (ascii "shows x / ") = true ∧
    Build.outcome ⟨true, true⟩ (fun _ => []) (Listing.join [ascii "shows x / ", ascii "fi"]) =
      .error (.block .unmatchedFi) := by
  have hessence : Listing.essence untidy = Listing.essence tidy := by decide +kernel
  have hsilent : Listing.isSilent (ascii "shows x / ") = true := by decide +kernel
  obtain ⟨hsame, -, -, -, -⟩ := layout_is_irrelevant ⟨false, false⟩ (fun _ => [])
  obtain ⟨-, -, -, -, hinsert⟩ := layout_is_irrelevant ⟨true, true⟩ (fun _ => [])
  refine ⟨hessence, ?_, by decide +kernel, hsilent, ?_⟩
  · cases hcode : Build.outcome ⟨false, false⟩ (fun _ => []) tidy with
    | ok code => exact ⟨code, rfl, (hsame _ _ hessence).trans hcode⟩
    | error e =>
        have hok : (Build.outcome ⟨false, false⟩ (fun _ => []) tidy).toOption.isSome = true := by
          decide +kernel
        rw [hcode] at hok
        cases hok
  · exact (hinsert [] _ [ascii "fi"] (by decide) hsilent).trans (by decide +kernel)

end Whole

end Contrary
