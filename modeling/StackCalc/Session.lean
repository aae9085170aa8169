/-
Interactive sessions.

Each line of the input is a program of its own, and what it leads to, value or report, is
written before the next prompt.  A line ends at a newline or where the input ends; no line
can end the session.  Only an output that takes no more, or an input that breaks off, ends
it early, and in the second case the line that was being read is not run.
-/
import StackCalc.Run
import StackCalc.Text.Blank

namespace StackCalc

namespace Session

/-- How a session is to be run. -/
structure Settings where
  format : Format := .text
  /-- Whether each program is traced. -/
  trace : Bool := false

/-- What is written for one line, and the log after it. -/
def answerLogged (settings : Settings) (line : List UInt8) (log : String) : String × String :=
  match String.fromUTF8? ⟨line.toArray⟩ with
  | none => ((RunError.encoding "<stdin>").report.render settings.format, log)
  | some text =>
    let source := trimEnd text
    if source = "" then ("", log)
    else
      match interpretLogged settings.trace source log with
      | (.ok v, log) => (v.text ++ "\n", log)
      | (.error e, log) => (e.report.render settings.format, log)

/-- What is written for one line when nothing is traced. -/
def answer (format : Format) (line : List UInt8) : String :=
  (answerLogged { format := format } line "").1

/-- Why a session ended early. -/
inductive Breakdown where
  | brokenPipe
  | connectionReset
deriving DecidableEq, Repr

/-- What a session leaves behind. -/
structure Record (ω : Type) where
  out : ω
  log : String
  breakdown : Option Breakdown

def newline : UInt8 := 10

def prompt : String := "> "

/-- Cuts an input into the lines that a newline ends and what follows the last newline.
`seen` holds what has been read of the current line, last byte first. -/
def cutLines (seen : List UInt8) (done : Array (List UInt8)) :
    List UInt8 → Array (List UInt8) × List UInt8
  | [] => (done, seen.reverse)
  | b :: bs =>
    if b = newline then cutLines [] (done.push seen.reverse) bs else cutLines (b :: seen) done bs

variable {ω : Type} [Output ω]

/-- Prompts for a line and answers it.  The error is the record of a session that ended
here. -/
def exchange (settings : Settings) (out : ω) (log : String) (line : List UInt8) :
    Except (Record ω) (ω × String) :=
  let out := Output.write out prompt
  if Output.failed out then .error ⟨out, log, some .brokenPipe⟩
  else
    let (text, log) := answerLogged settings line log
    let out := Output.write out text
    if Output.failed out then .error ⟨out, log, some .brokenPipe⟩ else .ok (out, log)

/-- Prompts for a line that does not come, because the input ended or broke off. -/
def close (breaks : Bool) (out : ω) (log : String) : Record ω :=
  let out := Output.write out prompt
  if Output.failed out then ⟨out, log, some .brokenPipe⟩
  else if breaks then ⟨out, log, some .connectionReset⟩
  else
    let out := Output.write out "\n"
    ⟨out, log, if Output.failed out then some .brokenPipe else none⟩

/-- The lines of an input that get an answer.  A last line without a newline counts, unless
the input broke off while it was read. -/
def linesOf (breaks : Bool) (input : List UInt8) : List (List UInt8) :=
  let (lines, rest) := cutLines [] #[] input
  if breaks ∨ rest = [] then lines.toList else (lines.push rest).toList

/-- Serves a whole input.  `breaks` says that it breaks off after its last byte instead of
ending there. -/
def serve (settings : Settings) (breaks : Bool) (input : List UInt8) (out : ω) (log : String) :
    Record ω :=
  let served := (linesOf breaks input).foldlM
    (fun (out, log) line => exchange settings out log line) (out, log)
  match served with
  | .error record => record
  | .ok (out, log) => close breaks out log

end Session

end StackCalc
