/-
Running a source text, and reporting how that failed.

A text is scanned, parsed, lowered and executed, and the first stage that fails decides the
error.  The report of an error that has a place in the text points at it; a run that fails
while executing knows only the line, and the report points at all of it.
-/
import StackCalc.Lowering
import StackCalc.Machine.Basic
import StackCalc.Report.Render

namespace StackCalc

/-! ### Reports of the errors of each stage -/

/-- The report covers the text that could not be used, and at least one byte. -/
def LexError.report (e : LexError) : Report :=
  let start := e.site.span.start
  { message := "unexpected input '" ++ e.snippet ++ "'"
    code := some (if e.snippet.toList.head? = some '"' then "PL0-L002" else "PL0-L001")
    labels := [⟨⟨start, start + max 1 e.snippet.utf8ByteSize⟩, "here"⟩]
    suggestion := some e.suggestion }

def ParseError.report (e : ParseError) : Report :=
  { message := e.detail
    code := some e.code
    labels := [⟨e.site.span, "here"⟩] }

namespace LowerFault

/-- The code under which the fault is explained. -/
def code : LowerFault → String
  | tooManyConstants => "PL0-C001"
  | unsupportedOperator _ => "PL0-C002"
  | invalidLiteral _ => "PL0-C003"
  | lineOutOfRange => "PL0-C004"
  | tooDeep => "PL0-C005"

/-- What is said about the bytes to blame. -/
def label : LowerFault → String
  | tooManyConstants => "one constant too many"
  | unsupportedOperator _ => "no opcode for this operator"
  | invalidLiteral _ => "this literal"
  | lineOutOfRange => "here"
  | tooDeep => "this subtree"

end LowerFault

def LowerError.report (e : LowerError) : Report :=
  { message := e.message
    code := some e.fault.code
    labels := e.span?.toList.map fun span => ⟨span, e.fault.label⟩ }

def CompileError.report : CompileError → Report
  | lex e => e.report
  | parse e => e.report
  | lower e => e.report

/-- The code under which a fault is explained. -/
def Fault.code : Fault → String
  | value .divisionByZero => "PL0-R002"
  | value (.integerOverflow _) => "PL0-R003"
  | value _ => "PL0-R001"
  | errorInstruction => "PL0-R004"
  | halted => "PL0-R006"
  | unknownOpcode _ | stackUnderflow | missingOperand _ | badConstant _ | unexpectedEnd =>
    "PL0-R005"

def MachineError.report (e : MachineError) : Report :=
  { message := e.fault.message
    code := some e.fault.code
    notes := ["at line " ++ toString e.line.toNat ++ ", bytecode offset " ++ fourDigits e.offset] }

/-! ### Errors of a whole run -/

/-- Why a run gave no value. -/
inductive RunError where
  | compile (error : CompileError) (source : String)
  | execute (error : MachineError) (source : String)
  /-- The place could not be read from or written to. -/
  | io (path : String) (reason : String)
  | encoding (path : String)
deriving DecidableEq, Repr

namespace RunError

def message : RunError → String
  | compile e _ => e.message
  | execute e _ => e.message
  | io path reason => "cannot read " ++ path ++ ": " ++ reason
  | encoding path => path ++ " is not valid UTF-8"

/-- The label of an error that knows only its line; line 0 is no line. -/
def lineLabels (source : String) (line : Nat) : List Label :=
  ((LineMap.ofSource source).lineSpan? line).toList.map fun span =>
    ⟨span, "while evaluating this line"⟩

def report : RunError → Report
  | compile e source => { e.report with source := some source }
  | execute e source =>
    { e.report with source := some source, labels := lineLabels source e.line.toNat }
  | e@(io _ _) | e@(encoding _) => { message := e.message, code := some "PL0-R007" }

end RunError

/-- The classes of outcome of a run. -/
inductive RunClass where
  | ok
  | compileError
  | runtimeError
deriving DecidableEq, Repr

/-- A text that cannot be read was not executed, so that counts as a compile error. -/
def RunError.runClass : RunError → RunClass
  | execute _ _ => .runtimeError
  | compile _ _ | io _ _ | encoding _ => .compileError

/-! ### Running -/

/-- The value of a source text. -/
def interpret (source : String) : Except RunError Value :=
  match Chunk.ofSource source with
  | .error e => .error (.compile e source)
  | .ok chunk => (Machine.load chunk).run.1.mapError fun e => .execute e source

/-- The value of a source text, with a trace of its execution. -/
def interpretTraced {ω : Type} [Output ω] (source : String) (out : ω) :
    Except RunError Value × ω :=
  match Chunk.ofSource source with
  | .error e => (.error (.compile e source), out)
  | .ok chunk =>
    let (result, _, out) := (Machine.load chunk).runTraced out
    (result.mapError fun e => .execute e source, out)

/-- Runs a source text and, if so asked, adds a trace to the log. -/
def interpretLogged (trace : Bool) (source : String) (log : String) :
    Except RunError Value × String :=
  if trace then interpretTraced source log else (interpret source, log)

/-- Why a file could not be read. -/
inductive ReadFault where
  | notFound
  | notDirectory
  | isDirectory
  | nameTooLong
  | nulInPath
  | other (reason : String)
deriving DecidableEq, Repr

def ReadFault.message : ReadFault → String
  | notFound => "No such file or directory (os error 2)"
  | notDirectory => "Not a directory (os error 20)"
  | isDirectory => "Is a directory (os error 21)"
  | nameTooLong => "File name too long (os error 36)"
  | nulInPath => "file name contained an unexpected NUL byte"
  | other reason => reason

/-- What a file holds, as text. -/
def sourceOf (path : String) (content : Except ReadFault ByteArray) : Except RunError String :=
  match content with
  | .error fault => .error (.io path fault.message)
  | .ok bytes =>
    match String.fromUTF8? bytes with
    | some source => .ok source
    | none => .error (.encoding path)

/-- Runs the text of a file and writes its value on a line. -/
def runFile {ω : Type} [Output ω] (trace : Bool) (path : String)
    (content : Except ReadFault ByteArray) (out : ω) (log : String) :
    Except RunError Value × ω × String :=
  match sourceOf path content with
  | .error e => (.error e, out, log)
  | .ok source =>
    match interpretLogged trace source log with
    | (.error e, log) => (.error e, out, log)
    | (.ok v, log) =>
      let out := Output.write out (v.text ++ "\n")
      if Output.failed out then (.error (.io "<stdout>" "broken pipe"), out, log)
      else (.ok v, out, log)

end StackCalc
