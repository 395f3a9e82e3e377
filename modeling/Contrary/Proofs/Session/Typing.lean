import Contrary.CommandLine.Run
import Contrary.Proofs.Session.Buffer

/-!
# Typing a program

A program that is typed into a session, line by line, gives the C text that its file gives.
The session takes the lines without the returns at their ends, and reads each one as it is
typed; the build reads the lines that it has kept, joined and trimmed.

**Steps.**  A line of code that can be read is added to the session, and nothing is written
(`Session.outcome_answerAll_lines`).  So after all lines the session holds the program, and what was
written is what the rest of the session writes.

**Essence.**  Returns are blanks, so that the lines of the session are those of the source when
they are trimmed (`Listing.essence_typed`).  What a build gives depends on no more than that.

**Results.**
* `typing_equals_compiling`: the whole session.
-/

namespace Contrary

section Pieces

namespace Listing

/-- The lines of a text with the returns at their ends. -/
def pieces (source : Bytes) : List Bytes :=
  let pieces := Bytes.splitOn '\n'.toUInt8 source
  if pieces.getLast? = some [] then pieces.dropLast else pieces

/-- A line without the returns at its end. -/
def dropReturns (line : Bytes) : Bytes :=
  Bytes.dropEndWhile (· == '\r'.toUInt8) line

theorem lines_eq_pieces
    (source : Bytes) :
    lines source = (pieces source).map dropReturn := rfl

theorem eventsOfInput_eq_pieces
    (input : Bytes) :
    Session.eventsOfInput input = (pieces input).map (Event.line ∘ dropReturns) := rfl

theorem newline_notMem_pieces
    {source p : Bytes}
    (h : p ∈ pieces source) :
    '\n'.toUInt8 ∉ p := by
  refine notMem_splitOn _ source p ?_
  unfold pieces at h
  dsimp only at h
  split_ifs at h
  · exact List.dropLast_subset _ h
  · exact h

theorem isBlankText_returns
    {w : Bytes}
    (h : ∀ b ∈ w, b = '\r'.toUInt8) :
    IsBlankText w := by
  induction w with
  | nil => exact isBlankText_nil
  | cons b w ih =>
      obtain ⟨rfl, hw⟩ := List.forall_mem_cons.mp h
      have hreturn : IsBlankText ['\r'.toUInt8] := by decide +kernel
      exact hreturn.append (ih hw)

theorem trim_dropReturns
    (line : Bytes) :
    (dropReturns line).trim = line.trim := by
  have hline : line = dropReturns line ++
      (line.reverse.takeWhile (· == '\r'.toUInt8)).reverse := by
    unfold dropReturns Bytes.dropEndWhile
    rw [← List.reverse_append, List.takeWhile_append_dropWhile, List.reverse_reverse]
  have hblank : IsBlankText (line.reverse.takeWhile (· == '\r'.toUInt8)).reverse := by
    refine isBlankText_returns fun b hb => ?_
    have hreturn := List.all_eq_true.mp List.all_takeWhile b (List.mem_reverse.mp hb)
    exact eq_of_beq hreturn
  conv_rhs => rw [hline]
  exact (Bytes.trim_append hblank _).symm

theorem newline_notMem_dropReturns
    {line : Bytes}
    (h : '\n'.toUInt8 ∉ line) :
    '\n'.toUInt8 ∉ dropReturns line := by
  intro hmem
  refine h (List.mem_reverse.mp ?_)
  exact (List.dropWhile_suffix _).subset (List.mem_reverse.mp hmem)

theorem essence_join_lines
    {ls : List Bytes}
    (hls : ∀ l ∈ ls, '\n'.toUInt8 ∉ l) :
    essence (join ls) = kept ls := by
  cases ls with
  | nil => exact essence_nil
  | cons l ls => rw [essence_eq_kept, join, splitOn_intercalate hls]

/-- The lines that are typed have the essence of the source. -/
theorem essence_typed
    (source : Bytes) :
    essence (join ((pieces source).map dropReturns)) = essence source := by
  rw [essence_join_lines, essence, lines_eq_pieces]
  · simp only [kept, List.map_map, Function.comp_def, trim_dropReturns, trim_dropReturn]
  · intro l hl
    obtain ⟨p, hp, rfl⟩ := List.mem_map.mp hl
    exact newline_notMem_dropReturns (newline_notMem_pieces hp)

/-- Only a text that is empty or ends with the byte has an empty last piece. -/
theorem getLast?_splitOn
    {sep : UInt8} {s : Bytes}
    (h : (Bytes.splitOn sep s).getLast? = some []) :
    s = [] ∨ s.getLast? = some sep := by
  induction s with
  | nil => exact Or.inl rfl
  | cons b s ih =>
      right
      obtain ⟨p, ps, hps⟩ := List.exists_cons_of_ne_nil (splitOn_ne_nil sep s)
      rw [Bytes.splitOn] at h
      split_ifs at h with hb
      · rw [hps, List.getLast?_cons_cons, ← hps] at h
        rcases ih h with rfl | hs
        · rw [hb]
          rfl
        · rw [List.getLast?_cons, hs]
          rfl
      · rw [hps] at h
        cases ps with
        | nil => cases h
        | cons q qs =>
            have hlast : (Bytes.splitOn sep s).getLast? = some [] := by
              rw [hps]
              exact h
            rcases ih hlast with rfl | hs
            · cases hps
            · rw [List.getLast?_cons, hs]
              rfl

end Listing

end Pieces

namespace Session

/-- What is typed to see the C text of a source: its lines, and a directive. -/
def typing (source : Bytes) : Bytes :=
  (if source = [] ∨ source.getLast? = some '\n'.toUInt8 then source
    else source ++ ['\n'.toUInt8]) ++
    Bytes.line (ascii ":c")

theorem pieces_typing
    (source : Bytes) :
    Listing.pieces (typing source) = Listing.pieces source ++ [ascii ":c"] := by
  have hend (s : Bytes) : Listing.pieces (s ++ '\n'.toUInt8 :: Bytes.line (ascii ":c")) =
      Bytes.splitOn '\n'.toUInt8 s ++ [ascii ":c"] := by
    have hdirective : Bytes.splitOn '\n'.toUInt8 (Bytes.line (ascii ":c")) = [ascii ":c", []] := by
      decide
    have hsplit : Bytes.splitOn '\n'.toUInt8 (s ++ '\n'.toUInt8 :: Bytes.line (ascii ":c")) =
        (Bytes.splitOn '\n'.toUInt8 s ++ [ascii ":c"]) ++ [[]] := by
      rw [splitOn_append_sep, hdirective, List.append_assoc]
      rfl
    rw [Listing.pieces, hsplit]
    simp
  unfold typing
  split_ifs with hsource
  · rcases hsource with rfl | hlast
    · decide
    · obtain ⟨init, rfl⟩ := List.getLast?_eq_some_iff.mp hlast
      have hinit : Listing.pieces (init ++ ['\n'.toUInt8]) = Bytes.splitOn '\n'.toUInt8 init := by
        rw [Listing.pieces, splitOn_append_sep]
        simp [Bytes.splitOn]
      rw [List.append_assoc, List.singleton_append, hend, hinit]
  · have hpieces : Listing.pieces source = Bytes.splitOn '\n'.toUInt8 source :=
      if_neg (mt Listing.getLast?_splitOn hsource)
    rw [List.append_assoc, List.singleton_append, hend, hpieces]

end Session

section Transcripts

open CommandLine

/-- What is left of a session: what it has written, how it ended, and the files. -/
def Transcript.outcome (t : Transcript) : Result × Disk :=
  (Result.ofTranscript t, t.disk)

namespace Session

variable {limit : Nat}

/-- A line of code is added, and nothing is written. -/
theorem outcome_answerAll_line
    {line : Bytes} {tokens : List Token}
    (htyped : Directive.typed? line = none)
    (htokens : Token.ofLine line = .ok tokens)
    (ls : List Bytes) (d : Disk) (events : List Event) :
    (answerAll limit ⟨ls, .editing⟩ d (.line line :: events)).outcome =
      (answerAll limit ⟨ls ++ [line], .editing⟩ d events).outcome := by
  have hrespond : respond ⟨ls, .editing⟩ limit (.line line) = (⟨ls ++ [line], .editing⟩, .silent) :=
    handle_accepted htyped htokens limit
  rw [answerAll]
  simp only [prompt?, hrespond]
  rfl

theorem outcome_answerAll_lines
    {lines : List Bytes}
    (hlines : ∀ l ∈ lines, Directive.typed? l = none ∧ (Token.ofLine l).isOk = true)
    (ls : List Bytes) (d : Disk) (events : List Event) :
    (answerAll limit ⟨ls, .editing⟩ d (lines.map Event.line ++ events)).outcome =
      (answerAll limit ⟨ls ++ lines, .editing⟩ d events).outcome := by
  induction lines generalizing ls with
  | nil => rw [List.append_nil, List.map_nil, List.nil_append]
  | cons l lines ih =>
      obtain ⟨⟨htyped, hok⟩, hlines⟩ := List.forall_mem_cons.mp hlines
      obtain ⟨tokens, htokens⟩ := isOk_eq_true_iff.mp hok
      rw [List.map_cons, List.cons_append, outcome_answerAll_line htyped htokens, ih hlines,
        List.append_assoc, List.singleton_append]

/-- The directive that shows the C text, and the end of the input. -/
theorem outcome_answerAll_code
    {ls : List Bytes} {product : Product}
    (h : Build.product (Listing.join ls) = .ok product) (d : Disk) :
    (answerAll limit ⟨ls, .editing⟩ d [.line (ascii ":c"), .endOfInput, .endOfInput]).outcome =
      (⟨Bytes.line product.code, [], some 0⟩, d) := by
  have htyped : Directive.typed? (ascii ":c") = some .code := by decide +kernel
  have hrespond : respond ⟨ls, .editing⟩ limit (.line (ascii ":c")) =
      (⟨ls, .editing⟩, .say (Bytes.line product.code)) := by
    change handle ⟨ls, .editing⟩ limit (ascii ":c") = _
    rw [handle_directive htyped, obey, building, source, h]
  rw [answerAll]
  simp only [prompt?, hrespond]
  change ((⟨Bytes.line product.code ++ [], [], some 0⟩ : Result), d) = _
  rw [List.append_nil]

/-- The events of what is typed. -/
theorem eventsOfInput_typing
    (source : Bytes) :
    eventsOfInput (typing source) =
      ((Listing.pieces source).map Listing.dropReturns).map Event.line ++
        [.line (ascii ":c")] := by
  rw [Listing.eventsOfInput_eq_pieces, pieces_typing, List.map_append, List.map_map]
  rfl

end Session

end Transcripts

section Builds

/-- Every line of a source that was built can be read. -/
theorem Token.isOk_of_product
    {source : Bytes} {product : Product}
    (h : Build.product source = .ok product) :
    ∀ l ∈ Listing.lines source, (Token.ofLine l).isOk = true := by
  refine TokenLine.isOk_ofSource_iff.mp ?_
  unfold Build.product Build.run at h
  cases htls : TokenLine.ofSource source with
  | error e =>
      rw [htls] at h
      cases h
  | ok tls => rfl

/-- A source with the essence of one that was built gives the same C text. -/
theorem Build.product_of_essence
    {source source' : Bytes} {product : Product}
    (h : Build.product source = .ok product)
    (hessence : Listing.essence source' = Listing.essence source) :
    ∃ product', Build.product source' = .ok product' ∧ product'.code = product.code := by
  have houtcome : Build.outcome ⟨false, false⟩ (fun _ => []) source' =
      Build.outcome ⟨false, false⟩ (fun _ => []) source :=
    Build.outcome_of_essence hessence
  change ((Build.product source').map Product.code).mapError SourceError.fault =
    ((Build.product source).map Product.code).mapError SourceError.fault at houtcome
  rw [h] at houtcome
  cases hproduct : Build.product source' with
  | error e =>
      rw [hproduct] at houtcome
      cases houtcome
  | ok product' =>
      rw [hproduct] at houtcome
      exact ⟨product', rfl, Except.ok.inj houtcome⟩

end Builds

/-- **Typing a program equals compiling its file.**  Let a source be built, and let no line of
it look like a directive.  If the source is typed into a session and the C text is asked for,
the session writes the C text of the build, and nothing else. -/
theorem typing_equals_compiling
    {source : Bytes} {product : Product}
    (h : Build.product source = .ok product)
    (hlines : ∀ l ∈ Listing.lines source, (ascii ":").isPrefixOf l.trim = false)
    (limit : Nat) (elapsed : Stage → Bytes) (d : Disk) :
    CommandLine.run limit elapsed [ascii "-i"] d (Session.typing source) =
      (⟨Bytes.line product.code, [], some 0⟩, d) := by
  have hread : ∀ l ∈ (Listing.pieces source).map Listing.dropReturns,
      Directive.typed? l = none ∧ (Token.ofLine l).isOk = true := by
    intro l hl
    obtain ⟨p, hp, rfl⟩ := List.mem_map.mp hl
    have hline : Listing.dropReturn p ∈ Listing.lines source := List.mem_map_of_mem hp
    have htrim : (Listing.dropReturns p).trim = (Listing.dropReturn p).trim := by
      rw [Listing.trim_dropReturns, Listing.trim_dropReturn]
    constructor
    · rw [Directive.typed?, htrim, hlines _ hline]
      rfl
    · rw [← Token.isOk_ofLine_trim, htrim, Token.isOk_ofLine_trim]
      exact Token.isOk_of_product h _ hline
  obtain ⟨product', hproduct, hcode⟩ := Build.product_of_essence h (Listing.essence_typed source)
  have hoptions : CommandLine.Options.read [ascii "-i"] =
      ({ CommandLine.Options.default with interactive := true }, none) := by
    decide
  unfold CommandLine.run CommandLine.Host.follow
  rw [hoptions]
  change (Session.empty.answerAll limit d
    (Session.eventsOfInput (Session.typing source) ++ [.endOfInput, .endOfInput])).outcome = _
  rw [Session.eventsOfInput_typing, List.append_assoc, Session.empty,
    Session.outcome_answerAll_lines hread, ← hcode]
  exact Session.outcome_answerAll_code hproduct d

/-- Four lines with comments and returns; the last one has no line feed. -/
def commented : Bytes :=
  ascii "last / define x\r\r\n\t see : / read to x\r\n\r\nundefine x"

/-- A colon in a comment makes no directive, and the returns of a line do not matter. -/
theorem commented_typed :
    ∃ product, Build.product commented = .ok product ∧
      CommandLine.run 0 (fun _ => []) [ascii "-i"] ⟨[], [], [], []⟩ (Session.typing commented) =
        (⟨Bytes.line product.code, [], some 0⟩, ⟨[], [], [], []⟩) := by
  have hlines : ∀ l ∈ Listing.lines commented, (ascii ":").isPrefixOf l.trim = false := by
    decide +kernel
  have hok : (Build.product commented).isOk = true := by decide +kernel
  obtain ⟨product, hproduct⟩ := isOk_eq_true_iff.mp hok
  exact ⟨product, hproduct, typing_equals_compiling hproduct hlines 0 _ _⟩

end Contrary
