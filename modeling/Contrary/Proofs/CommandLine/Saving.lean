import Contrary.CommandLine.Run
import Contrary.Proofs.Disk
import Contrary.Proofs.Names

/-!
# Commands that save a file

Outside of sessions there is one way for a command to change a file: it builds a source
without a fault, and opens the output for writing.  If there is room for the C text, this file,
and no other, holds it afterwards.  If there is not, the command fails, and the output is left
with a part of the text.

**Disks as hosts.**  A command is followed on a disk by threading the disk through it.  A run
leaves the disk as it is (`CommandLine.execute_of_machine`), and a build changes it by one write,
which comes after everything else that can fail (`CommandLine.compile_of_read`).

**Results.**
* `CommandLine.interactive_readFrom`: which arguments ask for a session.
* `command_saves_on_success_only`: the whole command.
* `cramping_loses_output`: a command that fails, and has lost what its output held.
-/

namespace Contrary

/-- What a build gives does not depend on what it reports. -/
theorem Build.run_snd
    (o : Build.Options) (elapsed : Stage → Bytes) (source : Bytes) :
    (Build.run o elapsed source).2 = Build.product source := by
  unfold Build.product Build.run
  cases TokenLine.ofSource source with
  | error e => rfl
  | ok tokens =>
      dsimp only
      cases Program.ofTokenLines tokens with
      | error e => rfl
      | ok program =>
          dsimp only
          cases program.toC <;> rfl

namespace CommandLine

/-- Arguments ask for a session only by its flag. -/
theorem interactive_readFrom
    {o : Options} {arguments : List Bytes}
    (h : ascii "-i" ∉ arguments) :
    (o.readFrom arguments).1.interactive = o.interactive := by
  fun_induction o.readFrom arguments with
  | case1 => rfl
  | case2 => rfl
  | case3 o argument _ file rest ih =>
      exact ih fun hmem => h (List.mem_cons_of_mem _ (List.mem_cons_of_mem _ hmem))
  | case4 o argument rest _ _ ih => exact ih fun hmem => h (List.mem_cons_of_mem _ hmem)
  | case5 o argument rest _ _ _ ih => exact ih fun hmem => h (List.mem_cons_of_mem _ hmem)
  | case6 o argument rest _ _ _ _ ih => exact ih fun hmem => h (List.mem_cons_of_mem _ hmem)
  | case7 o argument rest _ _ _ _ hflag =>
      rw [eq_of_beq hflag] at h
      exact absurd List.mem_cons_self h
  | case8 => rfl
  | case9 => rfl
  | case10 => rfl
  | case11 o argument rest _ _ _ _ _ _ _ _ ih =>
      exact ih fun hmem => h (List.mem_cons_of_mem _ hmem)

/-- The program in the input of a command runs to its end. -/
def Finishes (limit : Nat) (o : Options) (d : Disk) (input : Bytes) : Prop :=
  ∃ source p m, d.read o.input = .ok source ∧ Program.ofSource source = .ok p ∧
    Machine.load p = .ok m ∧ (m.run limit (Scanner.mk input)).2 = .finished

/-- A command that runs nothing can read and build its input, and can open its output: the
file at the given location, to which the given C text is then written. -/
def Writes (o : Options) (d : Disk) (l : Location) (code : Bytes) : Prop :=
  o.run = false ∧ ∃ source product, d.read o.input = .ok source ∧
    Build.product source = .ok product ∧ product.code = code ∧ d.output o.output = .ok l

section Parts

theorem exit_refuse
    (e : ArgumentError) :
    (refuse e).exit = some 0 ↔ e = .help ∨ e = .missingInput := by
  cases e <;> simp [refuse]

theorem exit_conclude
    (ending : Ending) :
    (conclude ending).exit = some 0 ↔ ending = .finished := by
  cases ending with
  | finished => simp [conclude]
  | stepLimit => simp [conclude]
  | halted h => cases h <;> simp [conclude]

theorem loadMachine_eq_ok
    {contents : Except FileError Bytes} {m : Machine} :
    loadMachine contents = .ok m ↔
      ∃ source p, contents = .ok source ∧ Program.ofSource source = .ok p ∧
        Machine.load p = .ok m := by
  unfold loadMachine loadProgram
  cases contents with
  | error e => simp
  | ok source =>
      cases hp : Program.ofSource source with
      | error e => simp [hp]
      | ok p => cases hm : Machine.load p <;> simp [hp, hm, Except.mapError]

end Parts

section Hosts

variable {limit : Nat} {elapsed : Stage → Bytes} {input : Bytes} {o : Options} {d : Disk}

theorem readFile_bind
    {α : Type} (path : Bytes) (k : Except FileError Bytes → StateM Disk α) (d : Disk) :
    ((Host.ofDisk limit elapsed input).readFile path >>= k) d = k (d.read path) d :=
  rfl

theorem exists_reportTimes
    (limit : Nat) (elapsed : Stage → Bytes) (input : Bytes) (o : Options) (source : Bytes) :
    ∃ times, (Host.ofDisk limit elapsed input).reportTimes o source = pure times := by
  unfold Host.reportTimes
  cases o.verbose with
  | true => exact ⟨elapsed, rfl⟩
  | false => exact ⟨_, rfl⟩

theorem execute_of_error
    {path report : Bytes}
    (h : loadMachine (d.read path) = .error report) :
    (Host.ofDisk limit elapsed input).execute path d = (⟨[], report, some 1⟩, d) := by
  rw [Host.execute, readFile_bind, h]
  rfl

theorem execute_of_machine
    {path : Bytes} {m : Machine}
    (h : loadMachine (d.read path) = .ok m) :
    ∃ out, (Host.ofDisk limit elapsed input).execute path d =
      ({ conclude (m.run limit (Scanner.mk input)).2 with out := out }, d) := by
  rw [Host.execute, readFile_bind, h]
  exact ⟨_, rfl⟩

/-- A run leaves the disk as it is, and succeeds if its program comes to its end. -/
theorem exists_execute
    (limit : Nat) (elapsed : Stage → Bytes) (o : Options) (d : Disk) (input : Bytes) :
    ∃ r, (Host.ofDisk limit elapsed input).execute o.input d = (r, d) ∧
      (r.exit = some 0 ↔ Finishes limit o d input) := by
  cases hload : loadMachine (d.read o.input) with
  | error report =>
      refine ⟨_, execute_of_error hload, ?_⟩
      constructor
      · intro h
        cases h
      · rintro ⟨source, p, m, hsource, hp, hm, -⟩
        rw [loadMachine_eq_ok.mpr ⟨source, p, hsource, hp, hm⟩] at hload
        cases hload
  | ok m =>
      obtain ⟨out, hrun⟩ := execute_of_machine hload
      refine ⟨_, hrun, (exit_conclude _).trans ⟨fun hend => ?_, ?_⟩⟩
      · obtain ⟨source, p, hsource, hp, hm⟩ := loadMachine_eq_ok.mp hload
        exact ⟨source, p, m, hsource, hp, hm, hend⟩
      · rintro ⟨source, p, m', hsource, hp, hm, hend⟩
        rw [loadMachine_eq_ok.mpr ⟨source, p, hsource, hp, hm⟩] at hload
        cases hload
        exact hend

theorem compile_of_unread
    {e : FileError}
    (h : d.read o.input = .error e) :
    (Host.ofDisk limit elapsed input).compile o d =
      (⟨[], complaint e.readMessage, some 1⟩, d) := by
  rw [Host.compile, readFile_bind, h]
  rfl

/-- A source that was read is built.  Its C text, if there is one, is written. -/
theorem compile_of_read
    {source : Bytes}
    (h : d.read o.input = .ok source) :
    ∃ log,
      (∀ e, Build.product source = .error e →
        (Host.ofDisk limit elapsed input).compile o d = (⟨log, e.report.render, some 1⟩, d)) ∧
      ∀ product, Build.product source = .ok product →
        (Host.ofDisk limit elapsed input).compile o d =
          (d.write o.output product.code).map (afterSaving log) id := by
  obtain ⟨times, htimes⟩ := exists_reportTimes limit elapsed input o source
  have hresult := Build.run_snd ⟨o.verbose, o.dump⟩ times source
  rw [Host.compile, readFile_bind, h]
  dsimp only
  rw [htimes, pure_bind, ← hresult]
  generalize Build.run ⟨o.verbose, o.dump⟩ times source = built
  obtain ⟨log, result⟩ := built
  refine ⟨log, ?_, ?_⟩
  · rintro e rfl
    rfl
  · rintro product rfl
    rfl

end Hosts

section Commands

variable {limit : Nat} {elapsed : Stage → Bytes} {arguments : List Bytes} {d : Disk}
  {input : Bytes} {o : Options}

theorem run_of_argumentError
    {e : ArgumentError}
    (ho : Options.read arguments = (o, some e)) :
    run limit elapsed arguments d input = (refuse e, d) := by
  rw [run, Host.follow, ho]
  rfl

theorem run_of_run
    (ho : Options.read arguments = (o, none))
    (hsession : o.interactive = false)
    (hrun : o.run = true) :
    run limit elapsed arguments d input =
      (Host.ofDisk limit elapsed input).execute o.input d := by
  rw [run, Host.follow, ho]
  dsimp only
  rw [hsession, hrun]
  rfl

theorem run_of_compile
    (ho : Options.read arguments = (o, none))
    (hsession : o.interactive = false)
    (hrun : o.run = false) :
    run limit elapsed arguments d input = (Host.ofDisk limit elapsed input).compile o d := by
  rw [run, Host.follow, ho]
  dsimp only
  rw [hsession, hrun]
  rfl

theorem run_of_writes
    {l : Location} {code : Bytes}
    (ho : Options.read arguments = (o, none))
    (hsession : o.interactive = false)
    (h : Writes o d l code) :
    ∃ log, run limit elapsed arguments d input =
      (d.write o.output code).map (afterSaving log) id := by
  obtain ⟨hrun, source, product, hsource, hproduct, rfl, -⟩ := h
  obtain ⟨log, -, hwritten⟩ := compile_of_read hsource
  refine ⟨log, ?_⟩
  rw [run_of_compile ho hsession hrun, hwritten product hproduct]

/-- A build that comes to no write fails, and leaves the disk as it is. -/
theorem run_of_not_writes
    (ho : Options.read arguments = (o, none))
    (hsession : o.interactive = false)
    (hrun : o.run = false)
    (h : ¬∃ l code, Writes o d l code) :
    ∃ r, run limit elapsed arguments d input = (r, d) ∧ r.exit = some 1 := by
  rw [run_of_compile ho hsession hrun]
  cases hsource : d.read o.input with
  | error e => exact ⟨_, compile_of_unread hsource, rfl⟩
  | ok source =>
      obtain ⟨log, hfailed, hwritten⟩ := compile_of_read hsource
      cases hproduct : Build.product source with
      | error e => exact ⟨_, hfailed e hproduct, rfl⟩
      | ok product =>
          -- only the output can be at fault
          cases houtput : d.output o.output with
          | error fault =>
              rw [hwritten product hproduct, Disk.write_of_fault houtput]
              exact ⟨_, rfl, rfl⟩
          | ok l =>
              exact absurd
                ⟨l, _, hrun, source, product, hsource, hproduct, rfl, houtput⟩ h

end Commands

end CommandLine

/-- **A command writes a file only on success.**  Take any arguments without `-i`.  If they can
be followed and do not ask for a run, the input can be read, its contents can be built, the
output can be opened and there is room for the C text, then the command ends with status 0; the
output, and no other file, has changed, and holds the C text.  If only the room is missing, the
status is 1, and the output, but no other file, has changed: it holds the part of the C text
that fits.  In every other case no file has changed, and the status is 0 for a request for help,
for a missing input, and for a run that ends without a fault, and for nothing else. -/
theorem command_saves_on_success_only
    {arguments : List Bytes}
    (h : ascii "-i" ∉ arguments)
    (limit : Nat) (elapsed : Stage → Bytes) (d : Disk) (input : Bytes) :
    (∀ o l code, CommandLine.Options.read arguments = (o, none) →
      CommandLine.Writes o d l code →
      (d.fitting l code = code →
        (CommandLine.run limit elapsed arguments d input).1.exit = some 0 ∧
        (∀ x, (CommandLine.run limit elapsed arguments d input).2.node? x =
          if x = l then some (.file code) else d.node? x) ∧
        (CommandLine.run limit elapsed arguments d input).2.read o.output = .ok code) ∧
      (d.fitting l code ≠ code →
        (CommandLine.run limit elapsed arguments d input).1.exit = some 1 ∧
        ∀ x, (CommandLine.run limit elapsed arguments d input).2.node? x =
          if x = l then some (.file (d.fitting l code)) else d.node? x)) ∧
    ((¬∃ o l code, CommandLine.Options.read arguments = (o, none) ∧
        CommandLine.Writes o d l code) →
      (CommandLine.run limit elapsed arguments d input).2 = d ∧
      ((CommandLine.run limit elapsed arguments d input).1.exit = some 0 ↔
        (CommandLine.Options.read arguments).2 = some .help ∨
        (CommandLine.Options.read arguments).2 = some .missingInput ∨
        ∃ o, CommandLine.Options.read arguments = (o, none) ∧ o.run = true ∧
          CommandLine.Finishes limit o d input)) := by
  have hsession : (CommandLine.Options.read arguments).1.interactive = false :=
    CommandLine.interactive_readFrom h
  constructor
  · intro o l code ho hwrites
    rw [ho] at hsession
    obtain ⟨log, hrun⟩ := CommandLine.run_of_writes ho hsession hwrites
    rw [hrun]
    obtain ⟨-, -, -, -, -, -, houtput⟩ := hwrites
    have hfolder := Disk.isFolder_of_output houtput
    constructor
    · intro hfits
      rw [Disk.write_of_fitting houtput hfits]
      exact ⟨rfl, Disk.node?_put hfolder code, Disk.read_put houtput code⟩
    · intro hfits
      rw [Disk.write_of_overflow houtput hfits]
      exact ⟨rfl, Disk.node?_put hfolder (d.fitting l code)⟩
  · intro hnot
    obtain ⟨o, fault, ho⟩ : ∃ o fault, CommandLine.Options.read arguments = (o, fault) :=
      ⟨_, _, rfl⟩
    rw [ho] at hsession
    cases fault with
    | some e =>
        rw [CommandLine.run_of_argumentError ho]
        refine ⟨rfl, (CommandLine.exit_refuse e).trans ?_⟩
        simp [ho]
    | none =>
        cases hrun : o.run with
        | true =>
            obtain ⟨r, hresult, hexit⟩ := CommandLine.exists_execute limit elapsed o d input
            rw [CommandLine.run_of_run ho hsession hrun, hresult]
            refine ⟨rfl, hexit.trans ?_⟩
            simp [ho, hrun]
        | false =>
            have hnone : ¬∃ l code, CommandLine.Writes o d l code := by
              rintro ⟨l, code, hwrites⟩
              exact hnot ⟨o, l, code, ho, hwrites⟩
            obtain ⟨r, hresult, hexit⟩ := CommandLine.run_of_not_writes ho hsession hrun hnone
            rw [hresult]
            refine ⟨rfl, ?_⟩
            simp [ho, hrun, hexit]

/-- A source. -/
def twoLines : Bytes :=
  ascii "define x\nundefine x"

/-- The source in the working folder, and an old C text in another folder, in a file that can
hold two bytes more. -/
def workDisk : Disk where
  home := [ascii "home", ascii "work"]
  folders := [[ascii "keep"]]
  files :=
    [([ascii "home", ascii "work", ascii "in"], twoLines),
      ([ascii "keep", ascii "small.c"], ascii "old")]
  limits := [([ascii "keep", ascii "small.c"], 5)]

/-- Arguments that build the source into a new file of the other folder. -/
def saving : List Bytes :=
  ["-v", "in", "-o", "../../keep/./out.c"].map ascii

/-- Arguments that build the source into the old file. -/
def cramping : List Bytes :=
  ["in", "-o", "/keep/small.c"].map ascii

/-- Arguments with an output that lies below a file. -/
def straying : List Bytes :=
  ["in", "-o", "in/out.c"].map ascii

theorem exists_product_twoLines :
    ∃ product, Build.product twoLines = .ok product := by
  refine isOk_eq_true_iff.mp ?_
  decide +kernel

/-- The build of the source comes to be written over the old file. -/
theorem writes_cramping
    {product : Product}
    (h : Build.product twoLines = .ok product) :
    ∃ o, CommandLine.Options.read cramping = (o, none) ∧
      CommandLine.Writes o workDisk [ascii "keep", ascii "small.c"] product.code := by
  refine ⟨⟨ascii "in", ascii "/keep/small.c", false, false, false, false⟩, ?_, rfl, twoLines,
    product, ?_, h, rfl, ?_⟩
  · decide +kernel
  · decide +kernel
  · decide +kernel

theorem workDisk_saved :
    (∃ product, Build.product twoLines = .ok product ∧
      (CommandLine.run 0 (fun _ => []) saving workDisk []).1.exit = some 0 ∧
      (CommandLine.run 0 (fun _ => []) saving workDisk []).2.node? [ascii "keep", ascii "out.c"] =
        some (.file product.code) ∧
      (CommandLine.run 0 (fun _ => []) saving workDisk []).2.node?
        [ascii "keep", ascii "small.c"] = some (.file (ascii "old")) ∧
      (CommandLine.run 0 (fun _ => []) cramping workDisk []).1.exit = some 1 ∧
      (CommandLine.run 0 (fun _ => []) cramping workDisk []).2.node?
        [ascii "keep", ascii "small.c"] = some (.file (product.code.take 5))) ∧
    (CommandLine.run 0 (fun _ => []) straying workDisk []).2 = workDisk := by
  constructor
  · obtain ⟨product, hproduct⟩ := exists_product_twoLines
    obtain ⟨o, hcramping, hwrites⟩ := writes_cramping hproduct
    have hsaving : CommandLine.Options.read saving =
        (⟨ascii "in", ascii "../../keep/./out.c", true, false, false, false⟩, none) := by
      decide +kernel
    have hlong : product.code.take 5 ≠ product.code := by
      intro hshort
      have hlength : (Build.product twoLines).toOption.all
          (fun product => product.code.take 5 = product.code) = true := by
        rw [hproduct]
        exact decide_eq_true hshort
      revert hlength
      decide +kernel
    obtain ⟨hsaved, -⟩ := command_saves_on_success_only
      (show ascii "-i" ∉ saving by decide +kernel) 0 (fun _ => []) workDisk []
    obtain ⟨hcramped, -⟩ := command_saves_on_success_only
      (show ascii "-i" ∉ cramping by decide +kernel) 0 (fun _ => []) workDisk []
    obtain ⟨hexit, hfiles, -⟩ := (hsaved _ [ascii "keep", ascii "out.c"] product.code hsaving
      ⟨rfl, _, product, rfl, hproduct, rfl, by decide +kernel⟩).1 rfl
    obtain ⟨hexit', hfiles'⟩ := (hcramped o _ product.code hcramping hwrites).2 hlong
    refine ⟨product, hproduct, hexit, ?_, ?_, hexit', ?_⟩
    · rw [hfiles, if_pos rfl]
    · rw [hfiles, if_neg (by decide)]
      rfl
    · rw [hfiles', if_pos rfl]
      rfl
  · have hstraying : CommandLine.Options.read straying =
        (⟨ascii "in", ascii "in/out.c", false, false, false, false⟩, none) := by
      decide +kernel
    obtain ⟨-, hkept⟩ := command_saves_on_success_only
      (show ascii "-i" ∉ straying by decide +kernel) 0 (fun _ => []) workDisk []
    refine (hkept ?_).1
    rintro ⟨o, l, code, ho, -, -, -, -, -, -, houtput⟩
    rw [hstraying] at ho
    cases ho
    have hfault : workDisk.output (ascii "in/out.c") = .error .notDirectory := by decide +kernel
    rw [hfault] at houtput
    cases houtput

/-- The output of the command can be opened for writing and its input can be built, but there is
no room for the C text.  The command fails, and the old text is gone. -/
theorem cramping_loses_output :
    (∃ o, CommandLine.Options.read cramping = (o, none) ∧
      ∃ code, CommandLine.Writes o workDisk [ascii "keep", ascii "small.c"] code) ∧
    workDisk.read (ascii "/keep/small.c") = .ok (ascii "old") ∧
    (CommandLine.run 0 (fun _ => []) cramping workDisk []).1.exit = some 1 ∧
    (CommandLine.run 0 (fun _ => []) cramping workDisk []).2.read (ascii "/keep/small.c") =
      .ok (ascii "#incl") := by
  obtain ⟨product, hproduct⟩ := exists_product_twoLines
  obtain ⟨o, hoptions, hwrites⟩ := writes_cramping hproduct
  refine ⟨⟨o, hoptions, product.code, hwrites⟩, ?_, ?_, ?_⟩
  · decide +kernel
  · decide +kernel
  · decide +kernel

end Contrary
