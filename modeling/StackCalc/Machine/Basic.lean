/-
The stack machine.

A machine runs its chunk once, from the first byte, until an instruction ends the run or
fails.  It never jumps: each instruction moves the cursor past itself, so a run takes at
most one step for each byte and one more to notice that the code has ended.

A run can be watched.  Before each instruction the watcher sees the offset and the stack;
it collects what it likes and has no way to change what the machine does.
-/
import StackCalc.Code.Listing
import StackCalc.Text.Output

namespace StackCalc

/-- Why a run ends without a value. -/
inductive Fault where
  | unknownOpcode (byte : UInt8)
  | stackUnderflow
  | missingOperand (op : Opcode)
  | badConstant (place : UInt8)
  | unexpectedEnd
  | errorInstruction
  | halted
  | value (error : ValueError)
deriving DecidableEq, Repr

def Fault.message : Fault → String
  | unknownOpcode b => "unknown opcode: " ++ toString b.toNat
  | stackUnderflow => "stack underflow"
  | missingOperand op => "missing operand for " ++ op.mnemonic
  | badConstant place => "constant index " ++ toString place.toNat ++ " is out of range"
  | unexpectedEnd => "ran past the end of the chunk without RETURN"
  | errorInstruction => "ERROR instruction executed"
  | halted => "virtual machine has already halted"
  | value e => e.message

/-- A fault, with the offset of the instruction that failed and the line it came from. -/
structure MachineError where
  fault : Fault
  line : UInt16
  offset : Nat
deriving DecidableEq, Repr

def MachineError.message (e : MachineError) : String :=
  e.fault.message ++ " (line " ++ toString e.line.toNat ++ ", offset " ++ fourDigits e.offset ++ ")"

/-- The values of a run, the last one pushed first. -/
abbrev Stack := List Value

/-- What an instruction leads to. -/
inductive Step where
  /-- On to the instruction `extra` bytes after the next one. -/
  | next (extra : Nat) (stack : Stack)
  | done (v : Value) (stack : Stack)
  /-- The run fails with the cursor moved on by `moved` bytes. -/
  | fail (fault : Fault) (moved : Nat) (stack : Stack)

namespace Chunk

/-- Pushes the constant whose place stands after `offset`. -/
def stepPush (c : Chunk) (op : Opcode) (offset : Nat) (stack : Stack) : Step :=
  match c.code[offset + 1]? with
  | none => .fail (.missingOperand op) 1 stack
  | some place =>
    match c.constants[place.toNat]? with
    | none => .fail (.badConstant place) 2 stack
    | some v => .next 1 (v :: stack)

/-- Replaces the value on top. -/
def stepUnary (op : UnaryOp) : Stack → Step
  | [] => .fail .stackUnderflow 1 []
  | a :: rest =>
    match a.unary op with
    | .error e => .fail (.value e) 1 rest
    | .ok v => .next 0 (v :: rest)

/-- Replaces the two values on top; the right operand was pushed last. -/
def stepBinary (op : BinaryOp) : Stack → Step
  | [] => .fail .stackUnderflow 1 []
  | [_] => .fail .stackUnderflow 1 []
  | b :: a :: rest =>
    match a.binary op b with
    | .error e => .fail (.value e) 1 rest
    | .ok v => .next 0 (v :: rest)

/-- Ends the run with the value on top. -/
def stepFinish : Stack → Step
  | [] => .fail .stackUnderflow 1 []
  | v :: rest => .done v rest

/-- Performs the instruction whose first byte stands at `offset`. -/
def step (c : Chunk) (offset : Nat) (byte : UInt8) (stack : Stack) : Step :=
  match Opcode.ofByte? byte with
  | none => .fail (.unknownOpcode byte) 1 stack
  | some op =>
    match op.action with
    | .push => c.stepPush op offset stack
    | .unary u => stepUnary u stack
    | .binary b => stepBinary b stack
    | .finish => stepFinish stack
    | .fail => .fail .errorInstruction 1 stack

/-- An error at an offset, with its line. -/
def errorAt (c : Chunk) (fault : Fault) (offset : Nat) : MachineError :=
  ⟨fault, c.lineAt offset, offset⟩

end Chunk

/-- How a run ended, and where it left the machine. -/
structure Ending where
  result : Except MachineError Value
  cursor : Nat
  stack : Stack

/-- Runs the code from an offset on, with a watcher that is shown every state before it is
acted on. -/
def Chunk.execute {σ : Type} (c : Chunk) (watch : σ → Nat → Stack → σ) (seen : σ)
    (offset : Nat) (stack : Stack) : Ending × σ :=
  let seen := watch seen offset stack
  if h : offset < c.code.size then
    match c.step offset c.code[offset] stack with
    | .next extra stack => c.execute watch seen (offset + 1 + extra) stack
    | .done v stack => (⟨.ok v, offset + 1, stack⟩, seen)
    | .fail fault moved stack => (⟨.error (c.errorAt fault offset), offset + moved, stack⟩, seen)
  else (⟨.error (c.errorAt .unexpectedEnd offset), offset, stack⟩, seen)
termination_by c.code.size - offset

/-- A machine with its chunk. -/
structure Machine where
  chunk : Chunk
  cursor : Nat
  stack : Stack
  halted : Bool

namespace Machine

/-- A machine that is ready to run a chunk. -/
def load (chunk : Chunk) : Machine :=
  ⟨chunk, 0, [], false⟩

/-- Runs the machine under a watcher.  One that has run before only says so. -/
def runWatched {σ : Type} (m : Machine) (watch : σ → Nat → Stack → σ) (seen : σ) :
    Except MachineError Value × Machine × σ :=
  if m.halted then (.error (m.chunk.errorAt .halted m.cursor), m, seen)
  else
    let (ending, seen) := m.chunk.execute watch seen m.cursor m.stack
    (ending.result, { m with cursor := ending.cursor, stack := ending.stack, halted := true }, seen)

/-- Runs the machine. -/
def run (m : Machine) : Except MachineError Value × Machine :=
  let (result, m, _) := m.runWatched (fun _ _ _ => ()) ()
  (result, m)

/-! ### Traces -/

/-- What a trace shows before an instruction, in the parts that are written one after another:
the stack from the bottom up, and the instruction's line in the listing. -/
def tracePieces (c : Chunk) (offset : Nat) (stack : Stack) : List String :=
  "[" :: stack.reverse.map (fun v => " " ++ v.text) ++ " ]\n" :: c.linePieces offset

/-- Writes what a trace shows before an instruction. -/
def traceStep {ω : Type} [Output ω] (c : Chunk) (trace : Feed ω) (offset : Nat) (stack : Stack) :
    Feed ω :=
  (tracePieces c offset stack).foldl Feed.write trace

/-- Runs the machine and writes a trace of it.  The trace is dropped at the first write that
fails, and the run goes on without it. -/
def runTraced {ω : Type} [Output ω] (m : Machine) (out : ω) :
    Except MachineError Value × Machine × ω :=
  let (result, m, trace) := m.runWatched (traceStep m.chunk) (.into out)
  (result, m, trace.out)

end Machine

end StackCalc
