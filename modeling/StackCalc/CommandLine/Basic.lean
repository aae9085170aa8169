/-
What a command does.

A command either succeeds and leaves nothing on the error stream but a trace that was asked
for, or it fails and leaves there the report of the first error.  Which files there are and
what the standard input holds is given, so the outcome of a command is a function of its
options.
-/
import StackCalc.CommandLine.Options
import StackCalc.Directory
import StackCalc.Expr.Printer
import StackCalc.Report.Catalogue
import StackCalc.Session

namespace StackCalc.CommandLine

/-- What a command leaves behind. -/
structure Outcome where
  exit : Nat
  stdout : String := ""
  stderr : String := ""
deriving DecidableEq, Repr

namespace Outcome

def success (stdout : String) (stderr : String := "") : Outcome :=
  ⟨0, stdout, stderr⟩

/-- The failure that a report describes, after what was logged before it. -/
def failure (format : Format) (report : Report) (log : String := "") : Outcome :=
  ⟨1, "", log ++ report.render format⟩

end Outcome

/-- What there is to do, once the options are known. -/
inductive Task where
  | listErrors
  | explain (code : String)
  | evaluate (source : String) (emit : Option Stage)
  | file (path : String) (emit : Option Stage)
  | session
deriving DecidableEq, Repr

/-- The task that the options ask for; the catalogue comes before any program. -/
def Options.task (o : Options) : Task :=
  if o.listErrors then .listErrors
  else
    match o.explain, o.eval, o.file with
    | some code, _, _ => .explain code
    | none, some source, _ => .evaluate source o.emit
    | none, none, some path => .file path o.emit
    | none, none, none => .session

/-- The catalogue, one line for each code. -/
def catalogueText : String :=
  Catalogue.lines (Catalogue.entries.map fun e => e.code ++ "  " ++ e.summary)

/-- The explanation of a code. -/
def explain (format : Format) (code : String) : Outcome :=
  match Catalogue.find? code with
  | some e => .success e.explanation
  | none => .failure format
    { message := "unknown error code '" ++ code ++ "'"
      suggestion := some "Codes look like PL0-L001, PL0-P003, PL0-C002 or PL0-R005." }

/-- A form of the program in a source text. -/
def Stage.show (stage : Stage) (title source : String) : Except CompileError String :=
  match stage with
  | .tree => (Expr.ofSource source).map fun e => e.toJson.pretty ++ "\n"
  | .polish => (Expr.ofSource source).map fun e => e.polish ++ "\n"
  | .code => (Chunk.ofSource source).map fun c => c.listing title

/-- Shows a form of the program in a source text. -/
def emit (format : Format) (stage : Stage) (title source : String) : Outcome :=
  match stage.show title source with
  | .ok text => .success text
  | .error e => .failure format (RunError.compile e source).report

/-- Runs an expression that was given as an argument. -/
def evaluate (format : Format) (trace : Bool) (source : String) : Outcome :=
  match interpretLogged trace source "" with
  | (.ok v, log) => .success (v.text ++ "\n") log
  | (.error e, log) => .failure format e.report log

/-- Runs the text of a file. -/
def runPath (format : Format) (trace : Bool) (path : String)
    (content : Except ReadFault ByteArray) : Outcome :=
  match runFile trace path content "" "" with
  | (.ok _, out, log) => .success out log
  | (.error e, _, log) => .failure format e.report log

/-- Shows a form of the program in a file. -/
def emitPath (format : Format) (stage : Stage) (path : String)
    (content : Except ReadFault ByteArray) : Outcome :=
  match sourceOf path content with
  | .error e => .failure format e.report
  | .ok source => emit format stage path source

/-- The title of a listing whose program came from no file. -/
def inlineTitle : String := "<inline>"

/-- Runs a session over all of the standard input. -/
def converse (format : Format) (trace : Bool) (stdin : List UInt8) : Outcome :=
  let record := Session.serve { format := format, trace := trace } false stdin "" ""
  .success record.out record.log

/-- Does what the options ask for. -/
def perform (o : Options) (terminal : Bool) (readFile : String → Except ReadFault ByteArray)
    (stdin : List UInt8) : Outcome :=
  let format := o.format terminal
  match o.task with
  | .listErrors => .success catalogueText
  | .explain code => explain format code
  | .evaluate source none => evaluate format o.trace source
  | .evaluate source (some stage) => emit format stage inlineTitle source
  | .file path none => runPath format o.trace path (readFile path)
  | .file path (some stage) => emitPath format stage path (readFile path)
  | .session => converse format o.trace stdin

/-- The name and version of the program. -/
def versionText : String := "plzero 0.4.0"

/-- The exit status of arguments that lead to no run. -/
def Stop.exit : Stop → Nat
  | .usage => 2
  | .version | .help => 0

/-- What is left behind by arguments that ask for the version. -/
def showVersion : Outcome :=
  .success (versionText ++ "\n")

/-- The outcome of a command, or why it has none.  What is said about arguments that cannot be
used, and to someone who asks for help, is left to the caller. -/
def run (args : List String) (terminal : Bool) (readFile : String → Except ReadFault ByteArray)
    (stdin : List UInt8) : Except Stop Outcome :=
  match Options.ofArguments args with
  | .error .version => .ok showVersion
  | .error stop => .error stop
  | .ok o => .ok (perform o terminal readFile stdin)

end StackCalc.CommandLine
