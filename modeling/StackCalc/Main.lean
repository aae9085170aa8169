/-
The program.

Everything is decided by `CommandLine`; here the file that a command needs is read, the
outcome is written, and a session is fed line by line as the lines come in.
-/
import StackCalc.CommandLine.Basic

namespace StackCalc.Console

/-- The fault that stands for an error of the system. -/
def readFaultOf : IO.Error → ReadFault
  | .noFileOrDirectory .. => .notFound
  | e@(.inappropriateType _ osCode _) | e@(.invalidArgument _ osCode _) =>
    -- Some calls give the code with its sign turned.
    let code := min osCode (-osCode)
    if code = 20 then .notDirectory
    else if code = 21 then .isDirectory
    else if code = 36 then .nameTooLong
    else .other (toString e)
  | e => .other (toString e)

/-- Reads the file that a task is about. -/
def readFor (task : CommandLine.Task) : IO (Except ReadFault ByteArray) := do
  match task with
  | .file path _ =>
    try
      return .ok (← IO.FS.readBinFile path)
    catch e =>
      return .error (readFaultOf e)
  | _ => return .error .notFound

/-- Reads bytes up to and including a newline. -/
def readLine (stdin : IO.FS.Stream) : IO ByteArray := do
  let mut line := ByteArray.empty
  repeat
    let byte ← stdin.read 1
    line := line ++ byte
    if byte.isEmpty || byte.toList == [Session.newline] then
      break
  return line

/-- Answers the lines of the standard input until it ends. -/
def converse (settings : Session.Settings) : IO Unit := do
  let stdin ← IO.getStdin
  let stdout ← IO.getStdout
  let stderr ← IO.getStderr
  repeat
    stdout.putStr Session.prompt
    stdout.flush
    let line ← readLine stdin
    if line.isEmpty then
      stdout.putStr "\n"
      break
    let (text, log) := Session.answerLogged settings line.toList ""
    stderr.putStr log
    stdout.putStr text
  stdout.flush

def writeOutcome (outcome : CommandLine.Outcome) : IO UInt32 := do
  (← IO.getStderr).putStr outcome.stderr
  (← IO.getStdout).putStr outcome.stdout
  return outcome.exit.toUInt32

end StackCalc.Console

open StackCalc Console in
/-- Runs a command. -/
def main (args : List String) : IO UInt32 := do
  let terminal ← (← IO.getStderr).isTty
  match CommandLine.Options.ofArguments args with
  | .error .version => writeOutcome CommandLine.showVersion
  | .error stop => return stop.exit.toUInt32
  | .ok options =>
    match options.task with
    | .session =>
      converse { format := options.format terminal, trace := options.trace }
      return 0
    | task =>
      let content ← readFor task
      writeOutcome (CommandLine.perform options terminal (fun _ => content) [])
