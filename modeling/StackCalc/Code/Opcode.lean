/-
The instructions of the stack machine.

An instruction is one byte, except for the two that push a constant: those are followed by
one byte with the place of the constant in the pool.
-/
import StackCalc.Value.Basic

namespace StackCalc

/-- The instructions, in the order of their bytes. -/
inductive Opcode where
  | ret
  | constant
  | constantLong
  | negate
  | add
  | multiply
  | subtract
  | divide
  | equal
  | notEqual
  | less
  | lessEqual
  | greater
  | greaterEqual
  | error
  | not
deriving DecidableEq, Repr

namespace Opcode

/-- Every instruction, at the place its byte names. -/
def all : Array Opcode :=
  #[ret, constant, constantLong, negate, add, multiply, subtract, divide, equal, notEqual,
    less, lessEqual, greater, greaterEqual, error, not]

def toByte : Opcode → UInt8
  | ret => 0
  | constant => 1
  | constantLong => 2
  | negate => 3
  | add => 4
  | multiply => 5
  | subtract => 6
  | divide => 7
  | equal => 8
  | notEqual => 9
  | less => 10
  | lessEqual => 11
  | greater => 12
  | greaterEqual => 13
  | error => 14
  | not => 15

/-- The instruction of a byte. -/
def ofByte? (b : UInt8) : Option Opcode :=
  all[b.toNat]?

@[simp] theorem ofByte?_toByte (op : Opcode) : ofByte? op.toByte = some op := by
  cases op <;> rfl

def mnemonic : Opcode → String
  | ret => "RETURN"
  | constant => "CONSTANT"
  | constantLong => "CONSTANT_LONG"
  | negate => "NEGATE"
  | add => "ADD"
  | multiply => "MULTIPLY"
  | subtract => "SUBTRACT"
  | divide => "DIVIDE"
  | equal => "EQUAL"
  | notEqual => "NOT_EQUAL"
  | less => "LT"
  | lessEqual => "LE"
  | greater => "GT"
  | greaterEqual => "GE"
  | error => "ERROR"
  | not => "NOT"

/-- What an instruction does to the stack. -/
inductive Action where
  /-- Push the constant named by the next byte. -/
  | push
  | unary (op : UnaryOp)
  | binary (op : BinaryOp)
  /-- End the run with the value on top. -/
  | finish
  /-- End the run with an error. -/
  | fail
deriving DecidableEq, Repr

def action : Opcode → Action
  | ret => .finish
  | constant | constantLong => .push
  | negate => .unary .negate
  | not => .unary .not
  | add => .binary .add
  | multiply => .binary .multiply
  | subtract => .binary .subtract
  | divide => .binary .divide
  | equal => .binary .equal
  | notEqual => .binary .notEqual
  | less => .binary .less
  | lessEqual => .binary .lessEqual
  | greater => .binary .greater
  | greaterEqual => .binary .greaterEqual
  | error => .fail

/-- The bytes that the instruction takes. -/
def width : Opcode → Nat
  | constant | constantLong => 2
  | _ => 1

/-- An operand follows the instructions that push a constant, and no others. -/
theorem width_eq (op : Opcode) : op.width = if op.action = .push then 2 else 1 := by
  cases op <;> rfl

end Opcode

/-- The instruction of an operator with two operands. -/
def BinaryOp.opcode : BinaryOp → Opcode
  | add => .add
  | subtract => .subtract
  | multiply => .multiply
  | divide => .divide
  | less => .less
  | lessEqual => .lessEqual
  | greater => .greater
  | greaterEqual => .greaterEqual
  | equal => .equal
  | notEqual => .notEqual

/-- The instruction of an operator with one operand. -/
def UnaryOp.opcode : UnaryOp → Opcode
  | negate => .negate
  | not => .not

@[simp] theorem BinaryOp.action_opcode (op : BinaryOp) : op.opcode.action = .binary op := by
  cases op <;> rfl

@[simp] theorem UnaryOp.action_opcode (op : UnaryOp) : op.opcode.action = .unary op := by
  cases op <;> rfl

end StackCalc
