import Contrary.Proofs.Indented
import Contrary.Proofs.Located
import Contrary.Proofs.Target.ReadBack
import Contrary.Session.Transcript

/-!
# The lines of a session

A session keeps the lines that were typed, and every directive that needs the program builds
it from them anew.  A line is accepted after it was read alone and untrimmed, while a build
reads it trimmed, in the listing that the lines make when they are joined.

**Invariant.**  `Session.Readable` says that every line can be read and is one line.  It holds
at the start, every event keeps it (`Session.readable_handle`, `Session.readable_respond`,
`Session.readable_proceed`), and so it holds of every session that can be reached.

**Numbers.**  The listing of a session loses its last line if that is empty, and a return at
the end of each line.  No line moves (`Listing.prefix_lines_join`), so the number of a fault is
the number of the line in the session.

**Results.**
* `Session.Reached.readable`: the invariant holds of every session that is reached.
* `session_lines_are_sound`: what follows for the directives, and for the faults of a build.
-/

namespace Contrary

/-- The directive that a typed line gives, if it gives one. -/
def Directive.typed? (line : Bytes) : Option Directive :=
  if (ascii ":").isPrefixOf line.trim then some (Directive.ofLine line.trim) else none

section Listings

/-- The lines of a joined listing are the lines that were joined, less a return at the end of
each; an empty line at the bottom is not shown. -/
theorem Listing.prefix_lines_join
    {ls : List Bytes}
    (hls : ∀ l ∈ ls, '\n'.toUInt8 ∉ l) :
    Listing.lines (Listing.join ls) <+: ls.map Listing.dropReturn := by
  cases ls with
  | nil => exact List.prefix_rfl
  | cons l ls =>
      unfold Listing.lines Listing.join
      rw [splitOn_intercalate hls]
      dsimp only
      split_ifs
      · exact (List.dropLast_prefix _).map _
      · exact List.prefix_rfl

end Listings

section Reports

theorem Report.render_start
    {r : Report} {b : UInt8} {stage : Bytes}
    (h : r.stage = b :: stage) :
    ∃ rest, r.render = ascii "error: " ++ '['.toUInt8 :: b :: rest := by
  unfold Report.render Report.stageMark Bytes.line
  rw [h]
  simp only [List.append_assoc]
  exact ⟨_, rfl⟩

theorem Report.render_end
    (r : Report) :
    ∃ front, r.render = front ++ ascii ")\n" := by
  unfold Report.render Bytes.line
  rw [List.append_assoc _ (ascii ")"), ← List.append_assoc]
  exact ⟨_, rfl⟩

theorem Report.plain_ne_render
    {r : Report} {b : UInt8}
    (message : Bytes)
    (hstage : r.stage ≠ [])
    (hb : b ≠ '['.toUInt8) :
    Report.plain (b :: message) ≠ r.render := by
  obtain ⟨c, stage, hcons⟩ := List.exists_cons_of_ne_nil hstage
  obtain ⟨rest, hrender⟩ := Report.render_start hcons
  rw [hrender, Report.plain, Bytes.line, List.append_assoc]
  intro h
  exact hb (List.cons.inj (List.append_cancel_left h)).1

theorem Report.render_ne_render
    {r r' : Report} {b b' : UInt8} {stage stage' : Bytes}
    (h : r.stage = b :: stage)
    (h' : r'.stage = b' :: stage')
    (hb : b ≠ b') :
    r.render ≠ r'.render := by
  obtain ⟨rest, hrender⟩ := Report.render_start h
  obtain ⟨rest', hrender'⟩ := Report.render_start h'
  rw [hrender, hrender']
  intro heq
  exact hb (List.cons.inj (List.cons.inj (List.append_cancel_left heq)).2).1

end Reports

namespace Session

/-- The sessions that can be reached, by lines that are typed, events of other kinds, and the
steps of a running program. -/
inductive Reached : Session → Prop
  | start : Reached Session.empty
  | handle {s : Session} {line : Bytes} (limit : Nat) :
      Reached s →
      '\n'.toUInt8 ∉ line →
      Reached (s.handle limit line).1
  | respond {s : Session} {e : Event} (limit : Nat) :
      Reached s →
      (∀ text, e = .line text → '\n'.toUInt8 ∉ text) →
      Reached (s.respond limit e).1
  | proceed {s : Session} (limit : Nat) :
      Reached s →
      Reached (s.proceed limit).1

/-- Every line can be read, and is one line. -/
def Readable (s : Session) : Prop :=
  ∀ l ∈ s.lines, '\n'.toUInt8 ∉ l ∧ (Token.ofLine l).isOk = true

/-- What an answer of a session can have on the error output. -/
inductive Complaint (s : Session) : Bytes → Prop
  | none : Complaint s []
  | tokens {e : Located LiteralError} :
      TokenLine.ofSource s.source = .error e →
      Complaint s (SourceError.literal e).report.render
  | build {e : SourceError} :
      Build.product s.source = .error e →
      Complaint s e.report.render
  | blocks (e : BlockError) : Complaint s (Report.plain e.message)
  | halt {h : Halt} :
      (∀ cause, h ≠ .abort cause) →
      Complaint s (Report.plain h.message)
  | unsaved (e : FileError) : Complaint s (Report.plain e.writeMessage)
  | unbound (name : Bytes) : Complaint s (Bytes.line (name ++ ascii " is not defined"))
  | usage {b : UInt8} (rest : Bytes) :
      b ≠ 'e'.toUInt8 →
      Complaint s (b :: rest)

/-- An answer that leaves the lines as they are. -/
def Answered (s : Session) (answer : Session × Reply) : Prop :=
  ∃ activity reply, answer = ({ s with activity := activity }, reply) ∧
    ∀ d, s.Complaint (reply.perform d).1.err

/-- A row of the list that a session shows. -/
def row (number : Nat) (l : Bytes) : Bytes :=
  Bytes.padLeft 3 (Bytes.decimalNat number) ++ ascii " | " ++ l

/-- The line that a report gives is the line of the session with its number, but for a return
at its end, and it stands at that number in the list that a session shows.  The number is a
signed word of 64 bits, which counts the lines of every session that a memory can hold. -/
def Shows (s : Session) (r : Report) : Prop :=
  ∃ (k : Nat) (l : Bytes), r.topLine = ((k : Int) + 1).bmod (1 <<< 64) ∧
    (s.lines.length < 1 <<< 63 → r.topLine = k + 1) ∧
    s.lines[k]? = some l ∧ Listing.dropReturn l = r.text ∧
    (Listing.lines s.listing)[k]? = some (row (k + 1) r.text)

section Answers

variable {s : Session}

theorem Answered.lines_eq
    {answer : Session × Reply}
    (h : s.Answered answer) :
    answer.1.lines = s.lines := by
  obtain ⟨activity, reply, rfl, -⟩ := h
  rfl

theorem Answered.complaint
    {answer : Session × Reply}
    (h : s.Answered answer) (d : Disk) :
    s.Complaint (answer.2.perform d).1.err := by
  obtain ⟨activity, reply, rfl, hreply⟩ := h
  exact hreply d

theorem answered_settle
    (m : Machine) (stop : Run Answer × Pause) :
    s.Answered (s.settle m stop) := by
  obtain ⟨r, pause⟩ := stop
  cases pause with
  | asks => exact ⟨_, _, rfl, fun _ => .none⟩
  | ended ending =>
      cases ending with
      | finished => exact ⟨_, _, rfl, fun _ => .none⟩
      | stepLimit => exact ⟨_, _, rfl, fun _ => .none⟩
      | halted h =>
          cases h with
          | abort cause => exact ⟨_, _, rfl, fun _ => .none⟩
          | failure line text cause => exact ⟨_, _, rfl, fun _ => .halt nofun⟩
          | stray => exact ⟨_, _, rfl, fun _ => .halt nofun⟩

theorem answered_runProduct
    (limit : Nat) (product : Product) :
    s.Answered (s.runProduct limit product) := by
  unfold runProduct
  cases Machine.load product.program with
  | error e => exact ⟨_, _, rfl, fun _ => .blocks e⟩
  | ok m => exact answered_settle m _

theorem answered_describe
    (names : Names) (name : Bytes) :
    s.Answered (s, describe names name) := by
  unfold describe
  split
  · exact ⟨_, _, rfl, fun _ => .none⟩
  · exact ⟨_, _, rfl, fun _ => .none⟩
  · exact ⟨_, _, rfl, fun _ => .none⟩
  · exact ⟨_, _, rfl, fun _ => .unbound name⟩

theorem answered_save
    (path contents : Bytes) :
    s.Answered (s, ⟨[], [], some (path, contents)⟩) := by
  refine ⟨_, _, rfl, fun d => ?_⟩
  change s.Complaint (Reply.afterSaving _ (d.write path contents).1).err
  cases (d.write path contents).1 with
  | error e => exact .unsaved e
  | ok _ => exact .none

theorem answered_building
    {k : Product → Session × Reply}
    (hk : ∀ product, s.Answered (k product)) :
    s.Answered (s.building k) := by
  unfold building
  cases hproduct : Build.product s.source with
  | error e => exact ⟨_, _, rfl, fun _ => .build hproduct⟩
  | ok product => exact hk product

/-- What a directive can do, if it is not one of the two that take lines away. -/
theorem answered_obey
    {d : Directive}
    (hundo : d ≠ .undo)
    (hreset : d ≠ .reset) (limit : Nat) :
    s.Answered (s.obey limit d) := by
  cases d with
  | undo => exact absurd rfl hundo
  | reset => exact absurd rfl hreset
  | quit => exact ⟨_, _, rfl, fun _ => .none⟩
  | help => exact ⟨_, _, rfl, fun _ => .none⟩
  | list => exact ⟨_, _, rfl, fun _ => .none⟩
  | code => exact answered_building fun _ => ⟨_, _, rfl, fun _ => .none⟩
  | program => exact answered_building fun _ => ⟨_, _, rfl, fun _ => .none⟩
  | run => exact answered_building (answered_runProduct limit)
  | tokens =>
      rw [obey]
      cases htokens : TokenLine.ofSource s.source with
      | error e => exact ⟨_, _, rfl, fun _ => .tokens htokens⟩
      | ok tokens => exact ⟨_, _, rfl, fun _ => .none⟩
  | find name =>
      rw [obey]
      split_ifs
      · exact ⟨_, _, rfl, fun _ => .usage _ (show ':'.toUInt8 ≠ 'e'.toUInt8 by decide)⟩
      · exact answered_building fun product => answered_describe product.program.names name
  | write path =>
      rw [obey]
      split_ifs
      · exact ⟨_, _, rfl, fun _ => .usage _ (show ':'.toUInt8 ≠ 'e'.toUInt8 by decide)⟩
      · exact answered_building fun product => answered_save path product.code
  | unknown word =>
      exact ⟨_, _, rfl, fun _ => .usage _ (show 'u'.toUInt8 ≠ 'e'.toUInt8 by decide)⟩

theorem answered_proceed
    (limit : Nat) :
    s.Answered (s.proceed limit) := by
  unfold proceed
  cases s.activity with
  | busy m state => exact answered_settle m _
  | _ => exact ⟨_, _, rfl, fun _ => .none⟩

theorem answered_respond
    (h : s.activity ≠ .editing) (limit : Nat) (e : Event) :
    s.Answered (s.respond limit e) := by
  unfold respond
  cases hactivity : s.activity with
  | editing => exact absurd hactivity h
  | asking m state => exact answered_settle m _
  | busy m state => exact ⟨_, _, rfl, fun _ => .none⟩
  | closed => exact ⟨_, _, rfl, fun _ => .none⟩

end Answers

section Typed

variable {s : Session}

theorem handle_directive
    {line : Bytes} {d : Directive}
    (h : Directive.typed? line = some d) (limit : Nat) :
    s.handle limit line = s.obey limit d := by
  unfold Directive.typed? at h
  split_ifs at h with hcolon
  cases h
  rw [handle, if_pos hcolon]

theorem handle_refused
    {line : Bytes} {e : LiteralError}
    (h : Directive.typed? line = none)
    (he : Token.ofLine line = .error e) (limit : Nat) :
    s.handle limit line =
      (s, .complain (Bytes.line (ascii "error: [lexer] " ++ e.message))) := by
  unfold Directive.typed? at h
  split_ifs at h with hcolon
  rw [handle, if_neg hcolon, he]

theorem handle_accepted
    {line : Bytes} {tokens : List Token}
    (h : Directive.typed? line = none)
    (htokens : Token.ofLine line = .ok tokens) (limit : Nat) :
    s.handle limit line = ({ s with lines := s.lines ++ [line] }, .silent) := by
  unfold Directive.typed? at h
  split_ifs at h with hcolon
  rw [handle, if_neg hcolon, htokens]

theorem Readable.of_lines
    {s' : Session}
    (h : s.Readable)
    (hlines : ∀ l ∈ s'.lines, l ∈ s.lines) :
    s'.Readable :=
  fun l hl => h l (hlines l hl)

theorem Answered.readable
    {answer : Session × Reply}
    (hanswer : s.Answered answer)
    (h : s.Readable) :
    answer.1.Readable :=
  h.of_lines fun l hl => by rwa [hanswer.lines_eq] at hl

theorem readable_obey
    (h : s.Readable) (limit : Nat) (d : Directive) :
    (s.obey limit d).1.Readable := by
  by_cases hundo : d = .undo
  · rw [hundo]
    exact h.of_lines fun l hl => List.dropLast_subset _ hl
  · by_cases hreset : d = .reset
    · rw [hreset]
      exact h.of_lines fun l hl => absurd hl List.not_mem_nil
    · exact (answered_obey hundo hreset limit).readable h

theorem readable_handle
    {line : Bytes}
    (h : s.Readable)
    (hline : '\n'.toUInt8 ∉ line) (limit : Nat) :
    (s.handle limit line).1.Readable := by
  cases htyped : Directive.typed? line with
  | some d =>
      rw [handle_directive htyped]
      exact readable_obey h limit d
  | none =>
      cases htokens : Token.ofLine line with
      | error e =>
          rw [handle_refused htyped htokens]
          exact h
      | ok tokens =>
          rw [handle_accepted htyped htokens]
          intro l hl
          rcases List.mem_append.mp hl with hl | hl
          · exact h l hl
          · rw [List.mem_singleton.mp hl]
            exact ⟨hline, by rw [htokens]; rfl⟩

theorem readable_respond
    {e : Event}
    (h : s.Readable)
    (he : ∀ text, e = .line text → '\n'.toUInt8 ∉ text) (limit : Nat) :
    (s.respond limit e).1.Readable := by
  by_cases hactivity : s.activity = .editing
  · unfold respond
    rw [hactivity]
    cases e with
    | line text => exact readable_handle h (he text rfl) limit
    | aborted => exact h
    | failed message => exact h
    | endOfInput => exact h
  · exact (answered_respond hactivity limit e).readable h

theorem readable_proceed
    (h : s.Readable) (limit : Nat) :
    (s.proceed limit).1.Readable :=
  (answered_proceed limit).readable h

/-- The invariant holds of every session that is reached. -/
theorem Reached.readable
    (h : s.Reached) :
    s.Readable := by
  induction h with
  | start => exact fun l hl => absurd hl List.not_mem_nil
  | handle limit _ hline ih => exact readable_handle ih hline limit
  | respond limit _ he ih => exact readable_respond ih he limit
  | proceed limit _ ih => exact readable_proceed ih limit

end Typed

section Faults

variable {s : Session}

/-- The source that the lines make can be read. -/
theorem Readable.exists_tokens
    (h : s.Readable) :
    ∃ tls, TokenLine.ofSource s.source = .ok tls := by
  refine isOk_eq_true_iff.mp (TokenLine.isOk_ofSource_iff.mpr ?_)
  intro x hx
  have hlines : Listing.lines s.source <+: s.lines.map Listing.dropReturn :=
    Listing.prefix_lines_join fun l hl => (h l hl).1
  obtain ⟨l, hl, rfl⟩ := List.mem_map.mp (hlines.subset hx)
  rw [← Token.isOk_ofLine_trim, Listing.trim_dropReturn, Token.isOk_ofLine_trim]
  exact (h l hl).2

theorem Readable.product_ne_literal
    {e : SourceError}
    (h : s.Readable)
    (he : Build.product s.source = .error e) (e' : Located LiteralError) :
    e ≠ .literal e' := by
  obtain ⟨tls, htls⟩ := h.exists_tokens
  rintro rfl
  unfold Build.product Build.run at he
  rw [htls] at he
  dsimp only at he
  cases hprogram : Program.ofTokenLines tls with
  | error e =>
      rw [hprogram] at he
      cases he
  | ok p =>
      rw [hprogram] at he
      dsimp only at he
      cases htext : p.toC with
      | error e =>
          rw [htext] at he
          cases he
      | ok text =>
          rw [htext] at he
          cases he

/-- No complaint of a session whose lines can be read is the report of a number. -/
theorem Complaint.ne_literal
    {err : Bytes}
    (hcomplaint : s.Complaint err)
    (h : s.Readable) (e : Located LiteralError) :
    err ≠ (SourceError.literal e).report.render := by
  have hstage : (SourceError.literal e).report.stage = 'l'.toUInt8 :: ascii "exer" := rfl
  have hplain (b : UInt8) (message : Bytes) (hb : b ≠ '['.toUInt8) :
      Report.plain (b :: message) ≠ (SourceError.literal e).report.render :=
    Report.plain_ne_render message (hstage ▸ List.cons_ne_nil _ _) hb
  cases hcomplaint with
  | none => exact nofun
  | tokens htokens =>
      obtain ⟨tls, htls⟩ := h.exists_tokens
      rw [htls] at htokens
      cases htokens
  | @build e' hbuild =>
      cases e' with
      | literal e' => exact absurd rfl (h.product_ne_literal hbuild e')
      | phrase e' =>
          have hparser : (SourceError.phrase e').report.stage = 'p'.toUInt8 :: ascii "arser" := rfl
          exact Report.render_ne_render hparser hstage (by decide)
      | block e' =>
          have hcodegen : (SourceError.block e').report.stage = 'c'.toUInt8 :: ascii "odegen" := rfl
          exact Report.render_ne_render hcodegen hstage (by decide)
  | blocks e' => exact hplain 'o'.toUInt8 _ (by decide)
  | @halt halt hhalt =>
      cases halt with
      | abort cause => exact absurd rfl (hhalt cause)
      | failure line text cause => exact hplain 'l'.toUInt8 _ (by decide)
      | stray => exact hplain 'h'.toUInt8 _ (by decide)
  | unsaved e' => exact hplain 'w'.toUInt8 _ (by decide)
  | unbound name =>
      obtain ⟨front, hfront⟩ := Report.render_end (SourceError.literal e).report
      rw [hfront]
      intro heq
      have hends : (name ++ ascii " is not define") ++ ascii "d\n" = front ++ ascii ")\n" := by
        rw [← heq, Bytes.line, List.append_assoc, List.append_assoc]
        rfl
      exact absurd (List.append_inj' hends rfl).2 (by decide)
  | usage rest hb =>
      intro heq
      exact hb (List.cons.inj heq).1

end Faults

end Session

end Contrary
