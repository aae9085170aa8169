/-
Values and the operators on them.

Integers have 32 bits and doubles are binary64.  Two integers give an integer, computed
exactly and refused when it leaves the range; a double on either side makes both sides
doubles.  Strings can be joined and compared for equality, truth values only the latter.
Every other pair of operands is an error that names the operator and the two types.
-/
import StackCalc.Decimal.Shortest

namespace StackCalc

/-- The types of values. -/
inductive Tag where
  | double
  | integer
  | bool
  | string
deriving DecidableEq, Repr

def Tag.name : Tag → String
  | double => "double"
  | integer => "integer"
  | bool => "bool"
  | string => "string"

/-- What an expression evaluates to. -/
inductive Value where
  | double (x : Float)
  | integer (n : Int32)
  | bool (b : Bool)
  | string (s : String)
deriving DecidableEq

/-- Operators with two operands. -/
inductive BinaryOp where
  | add
  | subtract
  | multiply
  | divide
  | less
  | lessEqual
  | greater
  | greaterEqual
  | equal
  | notEqual
deriving DecidableEq, Repr

/-- Operators with one operand that compute something. -/
inductive UnaryOp where
  | negate
  | not
deriving DecidableEq, Repr

/-- The operator as errors write it. -/
def BinaryOp.symbol : BinaryOp → String
  | add => "+"
  | subtract => "-"
  | multiply => "*"
  | divide => "/"
  | less => "<"
  | lessEqual => "<="
  | greater => ">"
  | greaterEqual => ">="
  | equal => "=="
  | notEqual => "!="

/-- The operator as errors write it. -/
def UnaryOp.symbol : UnaryOp → String
  | negate => "-"
  | not => "!"

/-- Why an operation has no value. -/
inductive ValueError where
  | typeMismatch (expected found : Tag)
  | unsupportedOperation (op : BinaryOp) (left right : Tag)
  | unsupportedUnary (op : UnaryOp) (operand : Tag)
  | divisionByZero
  /-- The exact result of the operator so written has more than 32 bits. -/
  | integerOverflow (symbol : String)
  | invalidLiteral (tag : Tag) (text : String)
deriving DecidableEq, Repr

def ValueError.message : ValueError → String
  | typeMismatch expected found =>
    "type mismatch: expected " ++ expected.name ++ ", found " ++ found.name
  | unsupportedOperation op left right =>
    "unsupported operation: " ++ left.name ++ " " ++ op.symbol ++ " " ++ right.name
  | unsupportedUnary op operand =>
    "unsupported operation: " ++ op.symbol ++ " " ++ operand.name
  | divisionByZero => "division by zero"
  | integerOverflow symbol => "integer overflow in '" ++ symbol ++ "'"
  | invalidLiteral tag text => "invalid " ++ tag.name ++ " literal '" ++ text ++ "'"

namespace Value

def tag : Value → Tag
  | double _ => .double
  | integer _ => .integer
  | bool _ => .bool
  | string _ => .string

/-- The value as it is printed. -/
def text : Value → String
  | double x => doubleText x
  | integer n => toString n.toInt
  | bool true => "true"
  | bool false => "false"
  | string s => s

/-! ### Access by type -/

def asDouble : Value → Except ValueError Float
  | double x => .ok x
  | v => .error (.typeMismatch .double v.tag)

def asInteger : Value → Except ValueError Int32
  | integer n => .ok n
  | v => .error (.typeMismatch .integer v.tag)

def asBool : Value → Except ValueError Bool
  | bool b => .ok b
  | v => .error (.typeMismatch .bool v.tag)

def asString : Value → Except ValueError String
  | string s => .ok s
  | v => .error (.typeMismatch .string v.tag)

/-! ### Operators -/

/-- The integer is one of 32 bits. -/
def inRange (n : Int) : Bool :=
  -2147483648 ≤ n && n ≤ 2147483647

/-- An exact result as a value, if it has at most 32 bits. -/
def checked (symbol : String) (n : Int) : Except ValueError Value :=
  if inRange n then .ok (.integer (Int32.ofInt n)) else .error (.integerOverflow symbol)

/-- An operator on two integers.  Division goes toward zero. -/
def onIntegers (op : BinaryOp) (a b : Int) : Except ValueError Value :=
  match op with
  | .add => checked op.symbol (a + b)
  | .subtract => checked op.symbol (a - b)
  | .multiply => checked op.symbol (a * b)
  | .divide => if b = 0 then .error .divisionByZero else checked op.symbol (a.tdiv b)
  | .less => .ok (.bool (a < b))
  | .lessEqual => .ok (.bool (a ≤ b))
  | .greater => .ok (.bool (b < a))
  | .greaterEqual => .ok (.bool (b ≤ a))
  | .equal => .ok (.bool (a == b))
  | .notEqual => .ok (.bool (a != b))

/-- An operator on two doubles.  Division by either zero is an error, not an infinity. -/
def onDoubles (op : BinaryOp) (a b : Float) : Except ValueError Value :=
  match op with
  | .add => .ok (.double (a + b))
  | .subtract => .ok (.double (a - b))
  | .multiply => .ok (.double (a * b))
  | .divide => if b == 0 then .error .divisionByZero else .ok (.double (a / b))
  | .less => .ok (.bool (a < b))
  | .lessEqual => .ok (.bool (a ≤ b))
  | .greater => .ok (.bool (b < a))
  | .greaterEqual => .ok (.bool (b ≤ a))
  | .equal => .ok (.bool (a == b))
  | .notEqual => .ok (.bool (a != b))

/-- The double equal to an integer; 32 bits always fit. -/
def widen (n : Int32) : Float :=
  Float.ofInt n.toInt

/-- An operator with two operands. -/
def binary (op : BinaryOp) : Value → Value → Except ValueError Value
  | integer a, integer b => onIntegers op a.toInt b.toInt
  | integer a, double b => onDoubles op (widen a) b
  | double a, integer b => onDoubles op a (widen b)
  | double a, double b => onDoubles op a b
  | string a, string b =>
    match op with
    | .add => .ok (.string (a ++ b))
    | .equal => .ok (.bool (a == b))
    | .notEqual => .ok (.bool (a != b))
    | _ => .error (.unsupportedOperation op .string .string)
  | bool a, bool b =>
    match op with
    | .equal => .ok (.bool (a == b))
    | .notEqual => .ok (.bool (a != b))
    | _ => .error (.unsupportedOperation op .bool .bool)
  | a, b => .error (.unsupportedOperation op a.tag b.tag)

/-- An operator with one operand. -/
def unary (op : UnaryOp) : Value → Except ValueError Value
  | integer n =>
    match op with
    | .negate => checked op.symbol (-n.toInt)
    | .not => .error (.unsupportedUnary op .integer)
  | double x =>
    match op with
    | .negate => .ok (.double (-x))
    | .not => .error (.unsupportedUnary op .double)
  | bool b =>
    match op with
    | .not => .ok (.bool (!b))
    | .negate => .error (.unsupportedUnary op .bool)
  | string _ => .error (.unsupportedUnary op .string)

end Value

end StackCalc
