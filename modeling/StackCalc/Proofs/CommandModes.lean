/-
The modes of a command agree.

A program can be shown as a tree, in Polish form or as a listing, and it can be run.  Each of
these goes through the stages on its own, some of them as far as the tree, one as far as the code
and one to the value.  What they have in common is the order of the stages: `MeetsError` says
which error is the first that a mode meets, and a mode that goes further meets the errors of one
that does not go as far.

Whether the program is an argument or the text of a file is seen in one place only, the title of
a listing.
-/
import StackCalc.CommandLine.Basic
import StackCalc.Proofs.Boundaries
import StackCalc.Proofs.RuntimeErrors
import StackCalc.Proofs.Transcript

namespace StackCalc.CommandLine

/-! ### Commands -/

/-- The title under which a program is listed. -/
def Task.title : Task → String
  | evaluate _ _ => inlineTitle
  | file path _ => path
  | listErrors | explain _ | session => ""

/-- A command without a trace whose program is the source text, as an argument or as what a file
holds. -/
structure Command (readFile : String → Except ReadFault ByteArray) (source : String) where
  args : List String
  options : Options
  parsed : Options.ofArguments args = .ok options
  untraced : options.trace = false
  program : options.task = .evaluate source options.emit ∨
    ∃ path, options.task = .file path options.emit ∧ readFile path = .ok source.toUTF8

namespace Command

variable {readFile : String → Except ReadFault ByteArray} {source : String}

/-- The form of the program that is shown; without one the program is run. -/
def mode (c : Command readFile source) : Option Stage :=
  c.options.emit

def title (c : Command readFile source) : String :=
  c.options.task.title

def format (c : Command readFile source) (terminal : Bool) : Format :=
  c.options.format terminal

/-- The arguments can be read, so they lead to a run. -/
theorem run_args (c : Command readFile source) (terminal : Bool) (stdin : List UInt8) :
    run c.args terminal readFile stdin = .ok (perform c.options terminal readFile stdin) := by
  rw [run, c.parsed]

/-- What running the command leaves behind. -/
def outcome (c : Command readFile source) (terminal : Bool) (stdin : List UInt8) : Outcome :=
  match h : run c.args terminal readFile stdin with
  | .ok out => out
  | .error _ => absurd (h.symm.trans (c.run_args terminal stdin)) (by simp)

theorem outcome_eq_perform (c : Command readFile source) (terminal : Bool) (stdin : List UInt8) :
    c.outcome terminal stdin = perform c.options terminal readFile stdin := by
  unfold outcome
  split
  · rename_i out h
    exact Except.ok.inj (h.symm.trans (c.run_args terminal stdin))
  · rename_i stop h
    cases h.symm.trans (c.run_args terminal stdin)

end Command

/-! ### Where the program comes from -/

theorem sourceOf_toUTF8 (path source : String) :
    sourceOf path (.ok source.toUTF8) = .ok source := by
  simp only [sourceOf, fromUTF8?_toUTF8]

theorem evaluate_untraced (format : Format) (source : String) :
    evaluate format false source =
      match interpret source with
      | .ok v => .success (v.text ++ "\n")
      | .error e => .failure format e.report := by
  unfold evaluate interpretLogged
  cases interpret source with
  | ok v => rfl
  | error e => rfl

/-- The text of a file is run like an argument. -/
theorem runPath_toUTF8 (format : Format) (path source : String) :
    runPath format false path (.ok source.toUTF8) = evaluate format false source := by
  rw [evaluate_untraced]
  simp only [runPath, runFile, sourceOf_toUTF8, interpretLogged]
  cases interpret source with
  | ok v => simp [Output.write, Output.failed]
  | error e => simp

theorem emitPath_toUTF8 (format : Format) (stage : Stage) (path source : String) :
    emitPath format stage path (.ok source.toUTF8) = emit format stage path source := by
  unfold emitPath
  rw [sourceOf_toUTF8]

/-- What a command does with its program, under the title that it has. -/
def outcomeOf (format : Format) (title source : String) : Option Stage → Outcome
  | some stage => emit format stage title source
  | none => evaluate format false source

theorem Command.outcome_eq {readFile : String → Except ReadFault ByteArray} {source : String}
    (c : Command readFile source) (terminal : Bool) (stdin : List UInt8) :
    c.outcome terminal stdin = outcomeOf (c.format terminal) c.title source c.mode := by
  unfold format title mode
  rw [c.outcome_eq_perform, perform]
  obtain htask | ⟨path, htask, hread⟩ := c.program
  · rw [htask, c.untraced]
    cases c.options.emit with
    | none => rfl
    | some stage => rfl
  · rw [htask, c.untraced]
    cases c.options.emit with
    | none =>
        show runPath _ false path (readFile path) = _
        rw [hread, runPath_toUTF8]
        rfl
    | some stage =>
        show emitPath _ stage path (readFile path) = _
        rw [hread, emitPath_toUTF8]
        rfl

/-! ### The first error of a mode -/

/-- The first error that a mode meets, and the stage that it comes from: every mode needs the
tree, the listing and the run need the code, and only the run needs the value. -/
inductive MeetsError (source : String) : Option Stage → RunError → Prop
  | read {mode : Option Stage} {e : CompileError} (h : Expr.ofSource source = .error e) :
      MeetsError source mode (.compile e source)
  | lower {mode : Option Stage} {tree : Expr} {e : LowerError}
      (hmode : mode = some .code ∨ mode = none) (htree : Expr.ofSource source = .ok tree)
      (h : tree.lower = .error e) : MeetsError source mode (.compile (.lower e) source)
  | execute {c : Chunk} {e : MachineError} (hcode : Chunk.ofSource source = .ok c)
      (h : (Machine.load c).run.1 = .error e) : MeetsError source none (.execute e source)

theorem map_eq_error_iff {ε α β : Type} {x : Except ε α} {f : α → β} {e : ε} :
    x.map f = .error e ↔ x = .error e := by
  cases x with
  | ok a => simp [Except.map]
  | error e' => simp [Except.map]

namespace MeetsError

variable {source : String} {e e' : RunError}

/-- What has no tree has nothing else. -/
theorem of_tree {stage : Stage} (hstage : stage ≠ .code) (h : MeetsError source (some stage) e)
    (mode : Option Stage) : MeetsError source mode e := by
  cases h with
  | read h => exact .read h
  | lower hmode _ _ => simp [hstage] at hmode

/-- What has no code has no value. -/
theorem of_code (h : MeetsError source (some .code) e) : MeetsError source none e := by
  cases h with
  | read h => exact .read h
  | lower _ htree h => exact .lower (Or.inr rfl) htree h

/-- Code is missing for want of a tree, or where the tree is lowered. -/
theorem code_iff : MeetsError source (some .code) e ↔
    ∃ err, Chunk.ofSource source = .error err ∧ e = .compile err source := by
  constructor
  · intro h
    cases h with
    | read h => exact ⟨_, Chunk.ofSource_of_error h, rfl⟩
    | lower _ htree h =>
        refine ⟨_, ?_, rfl⟩
        rw [Chunk.ofSource_of_tree htree, h]
        rfl
  · rintro ⟨err, h, rfl⟩
    cases htree : Expr.ofSource source with
    | error err' =>
        rw [Chunk.ofSource_of_error htree] at h
        obtain rfl := Except.error.inj h
        exact .read htree
    | ok tree =>
        rw [Chunk.ofSource_of_tree htree] at h
        obtain ⟨e, hlower, rfl⟩ := mapError_eq_error h
        exact .lower (Or.inl rfl) htree hlower

/-- A form cannot be shown for the first error on the way to it. -/
theorem show_iff {stage : Stage} (title : String) : MeetsError source (some stage) e ↔
    ∃ err, stage.show title source = .error err ∧ e = .compile err source := by
  have htree : stage ≠ .code → (MeetsError source (some stage) e ↔
      ∃ err, Expr.ofSource source = .error err ∧ e = .compile err source) := by
    intro hstage
    constructor
    · intro h
      cases h with
      | read h => exact ⟨_, h, rfl⟩
      | lower hmode _ _ => simp [hstage] at hmode
    · rintro ⟨err, h, rfl⟩
      exact .read h
  cases stage with
  | tree => simp only [htree (by decide), Stage.show, map_eq_error_iff]
  | polish => simp only [htree (by decide), Stage.show, map_eq_error_iff]
  | code => simp only [code_iff, Stage.show, map_eq_error_iff]

/-- A program is run up to its first error. -/
theorem run_iff : MeetsError source none e ↔ interpret source = .error e := by
  constructor
  · intro h
    unfold interpret
    cases h with
    | read h => rw [Chunk.ofSource_of_error h]
    | lower _ htree h =>
        rw [Chunk.ofSource_of_tree htree, h]
        rfl
    | execute hcode h =>
        rw [hcode]
        show (Machine.load _).run.1.mapError _ = _
        rw [h]
        rfl
  · intro h
    unfold interpret at h
    split at h
    · rename_i err hcode
      obtain rfl := Except.error.inj h
      exact of_code (code_iff.mpr ⟨err, hcode, rfl⟩)
    · rename_i c hcode
      obtain ⟨err, hrun, rfl⟩ := mapError_eq_error h
      exact .execute hcode hrun

theorem unique {mode : Option Stage} (h : MeetsError source mode e)
    (h' : MeetsError source mode e') : e = e' := by
  cases mode with
  | none => exact Except.error.inj ((run_iff.mp h).symm.trans (run_iff.mp h'))
  | some stage =>
      obtain ⟨err, hshow, rfl⟩ := (show_iff "").mp h
      obtain ⟨err', hshow', rfl⟩ := (show_iff "").mp h'
      rw [Except.error.inj (hshow.symm.trans hshow')]

end MeetsError

/-- A mode ends well and says nothing on the error stream, or the first error that it meets is
reported and nothing else is written. -/
inductive Reported (format : Format) (source : String) (mode : Option Stage) : Outcome → Prop
  | success (text : String) (h : ∀ e, ¬ MeetsError source mode e) :
      Reported format source mode ⟨0, text, ""⟩
  | failure {e : RunError} (h : MeetsError source mode e) :
      Reported format source mode ⟨1, "", e.report.render format⟩

namespace Reported

variable {format : Format} {source : String} {mode : Option Stage} {out : Outcome} {e : RunError}

theorem exit_eq_zero_iff (h : Reported format source mode out) :
    out.exit = 0 ↔ ∀ e, ¬ MeetsError source mode e := by
  cases h with
  | success text h => exact ⟨fun _ => h, fun _ => rfl⟩
  | @failure e h => exact ⟨fun hexit => absurd hexit (by simp), fun hnone => absurd h (hnone e)⟩

theorem exists_error (h : Reported format source mode out) (hexit : out.exit ≠ 0) :
    ∃ e, MeetsError source mode e := by
  cases h with
  | success text h => exact absurd rfl hexit
  | failure h => exact ⟨_, h⟩

theorem eq_of_error (h : Reported format source mode out) (he : MeetsError source mode e) :
    out = ⟨1, "", e.report.render format⟩ := by
  cases h with
  | success text h => exact absurd he (h e)
  | failure h => rw [h.unique he]

end Reported

theorem failure_eq (format : Format) (report : Report) :
    Outcome.failure format report = ⟨1, "", report.render format⟩ := by
  simp [Outcome.failure]

/-- **Every mode ends well or reports the first error that it meets.** -/
theorem reported_outcomeOf (format : Format) (title source : String) (mode : Option Stage) :
    Reported format source mode (outcomeOf format title source mode) := by
  cases mode with
  | none =>
      rw [outcomeOf, evaluate_untraced]
      cases hrun : interpret source with
      | ok v =>
          refine .success _ ?_
          intro e he
          rw [MeetsError.run_iff, hrun] at he
          cases he
      | error e =>
          show Reported format source none (.failure format e.report)
          rw [failure_eq]
          exact .failure (MeetsError.run_iff.mpr hrun)
  | some stage =>
      rw [outcomeOf, emit]
      cases hshow : stage.show title source with
      | ok text =>
          refine .success text ?_
          intro e he
          obtain ⟨err, herr, -⟩ := (MeetsError.show_iff title).mp he
          rw [hshow] at herr
          cases herr
      | error err =>
          show Reported format source _ (.failure format (RunError.compile err source).report)
          rw [failure_eq]
          exact .failure ((MeetsError.show_iff title).mpr ⟨err, hshow, rfl⟩)

/-! ### Titles -/

/-- Only a listing shows the title. -/
theorem outcomeOf_title (format : Format) (title title' source : String) {mode : Option Stage}
    (h : mode ≠ some .code) :
    outcomeOf format title' source mode = outcomeOf format title source mode := by
  cases mode with
  | none => rfl
  | some stage =>
      cases stage with
      | tree => rfl
      | polish => rfl
      | code => exact absurd rfl h

/-- Listings under two titles differ in the first line. -/
theorem outcomeOf_code (format : Format) (title title' source : String) :
    ((outcomeOf format title source (some .code)).exit ≠ 0 ∧
      outcomeOf format title' source (some .code) = outcomeOf format title source (some .code)) ∨
    ∃ rows,
      outcomeOf format title source (some .code) = ⟨0, "== " ++ title ++ " ==\n" ++ rows, ""⟩ ∧
      outcomeOf format title' source (some .code) =
        ⟨0, "== " ++ title' ++ " ==\n" ++ rows, ""⟩ := by
  simp only [outcomeOf, emit, Stage.show]
  cases Chunk.ofSource source with
  | error e => exact Or.inl ⟨Nat.one_ne_zero, rfl⟩
  | ok c =>
      refine Or.inr ⟨String.join ((c.listedFrom 0).map c.instructionLine), ?_, ?_⟩
      · rw [← c.linesFrom_eq]
        rfl
      · rw [← c.linesFrom_eq]
        rfl

/-! ### Two commands -/

/-- **The modes of a command agree.**  A command ends well without a word on the error stream, or
it fails with the report of the first error that its mode meets and writes nothing else.  If the
Polish form of a program cannot be shown, every command about it fails alike; if it cannot be
listed, running it fails alike; and it can be shown in Polish form exactly when it can be shown as
a tree.  Two commands in the same mode, of which one may name a file and the other hold its text,
leave the same behind, but for the titles of two listings. -/
theorem Command.modes_agree {readFile : String → Except ReadFault ByteArray} {source : String}
    (c c' : Command readFile source) (terminal : Bool) (stdin stdin' : List UInt8)
    (hformat : c.format terminal = c'.format terminal) :
    Reported (c.format terminal) source c.mode (c.outcome terminal stdin) ∧
    (c.mode = some .polish → (c.outcome terminal stdin).exit ≠ 0 →
      c'.outcome terminal stdin' = c.outcome terminal stdin) ∧
    (c.mode = some .code → c'.mode = none → (c.outcome terminal stdin).exit ≠ 0 →
      c'.outcome terminal stdin' = c.outcome terminal stdin) ∧
    (c.mode = some .polish → c'.mode = some .tree →
      ((c.outcome terminal stdin).exit = 0 ↔ (c'.outcome terminal stdin').exit = 0)) ∧
    (c.mode = c'.mode → c.mode ≠ some .code →
      c'.outcome terminal stdin' = c.outcome terminal stdin) ∧
    (c.mode = some .code → c'.mode = some .code →
      ((c.outcome terminal stdin).exit ≠ 0 ∧
        c'.outcome terminal stdin' = c.outcome terminal stdin) ∨
      ∃ rows, c.outcome terminal stdin = ⟨0, "== " ++ c.title ++ " ==\n" ++ rows, ""⟩ ∧
        c'.outcome terminal stdin' = ⟨0, "== " ++ c'.title ++ " ==\n" ++ rows, ""⟩) := by
  rw [c.outcome_eq, c'.outcome_eq, ← hformat]
  have hends := reported_outcomeOf (c.format terminal) c.title source c.mode
  have hends' := reported_outcomeOf (c.format terminal) c'.title source c'.mode
  refine ⟨hends, ?_, ?_, ?_, ?_, ?_⟩
  · intro hmode hexit
    obtain ⟨e, he⟩ := hends.exists_error hexit
    rw [hends.eq_of_error he]
    exact hends'.eq_of_error ((hmode ▸ he).of_tree (by decide) c'.mode)
  · intro hmode hmode' hexit
    obtain ⟨e, he⟩ := hends.exists_error hexit
    rw [hends.eq_of_error he]
    exact hends'.eq_of_error (hmode' ▸ (hmode ▸ he).of_code)
  · intro hmode hmode'
    rw [hends.exit_eq_zero_iff, hends'.exit_eq_zero_iff, hmode, hmode']
    constructor
    · intro hnone e he
      exact hnone e (he.of_tree (by decide) _)
    · intro hnone e he
      exact hnone e (he.of_tree (by decide) _)
  · intro hmode hcode
    rw [← hmode]
    exact outcomeOf_title _ _ _ _ hcode
  · intro hmode hmode'
    rw [hmode, hmode']
    exact outcomeOf_code _ _ _ _

/-- The first integer that is too large, as an argument to be listed. -/
def largeListed : Command (fun _ => .ok "2147483648".toUTF8) "2147483648" where
  args := ["-e", "2147483648", "--emit", "bytecode"]
  options := { eval := some "2147483648", emit := some .code }
  parsed := by
    simp [Options.ofArguments, Options.read, Options.Argument.ofString, Options.looksLikeOption,
      Options.setEval, Options.setValued, Options.setEmit, Options.setOnce, Stage.ofName?,
      Options.conflicting, Except.map, bind, Except.bind]
  untraced := rfl
  program := Or.inl rfl

/-- The same in a file to be run. -/
def largeFile : Command (fun _ => .ok "2147483648".toUTF8) "2147483648" where
  args := ["large.pl0"]
  options := { file := some "large.pl0" }
  parsed := by decide +kernel
  untraced := rfl
  program := Or.inr ⟨"large.pl0", rfl, rfl⟩

/-- It cannot be listed, so running the file fails, and both fail alike. -/
theorem outcome_largeFile :
    (largeListed.outcome false []).exit = 1 ∧
      largeFile.outcome false [] = largeListed.outcome false [] := by
  have hcode : Chunk.ofSource "2147483648" = .error (.lower
      ⟨.invalidLiteral (.invalidLiteral .integer "2147483648"), ⟨⟨1, 1⟩, ⟨0, 10⟩⟩⟩) := by
    decide +kernel
  have hexit : (largeListed.outcome false []).exit = 1 := by
    rw [largeListed.outcome_eq]
    show (emit _ .code _ _).exit = 1
    simp only [emit, Stage.show, hcode, Except.map, Outcome.failure]
  have hagree := largeListed.modes_agree largeFile false [] [] rfl
  exact ⟨hexit, hagree.2.2.1 rfl rfl (by simp [hexit])⟩

end StackCalc.CommandLine
