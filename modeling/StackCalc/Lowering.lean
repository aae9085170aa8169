/-
Lowering an expression to code.

The code of a node is the code of its operands from left to right followed by its own
instruction, so that running it leaves one value on top of the stack.  Parentheses, the
wrapper around a literal and a plus sign before an operand add nothing.

The first thing that cannot be lowered ends the walk.  A node that is too far down is
refused on entry and everything else about a node is checked after its operands.  A literal
is tried in the order line, text, pool; an operator with two operands is looked up before
its line is checked, and one with one operand after.
-/
import StackCalc.Code.Chunk
import StackCalc.Expr.Parser
import StackCalc.Value.Literal

namespace StackCalc

/-- Why a node has no code. -/
inductive LowerFault where
  | tooManyConstants
  | unsupportedOperator (op : TokenKind)
  | invalidLiteral (error : ValueError)
  | lineOutOfRange
  | tooDeep
deriving DecidableEq, Repr

/-- A fault and the site of the node that is to blame. -/
structure LowerError where
  fault : LowerFault
  site : Site
deriving DecidableEq, Repr

/-- The last line that the line table can hold. -/
def maxLine : Nat := 65535

namespace LowerError

def line (e : LowerError) : Nat :=
  e.site.position.line

def message (e : LowerError) : String :=
  let atLine := " at line " ++ toString e.line
  match e.fault with
  | .tooManyConstants =>
    "too many constants in one chunk (limit " ++ toString maxConstants ++ ")" ++ atLine
  | .unsupportedOperator op => "operator '" ++ op.symbol ++ "' has no bytecode" ++ atLine
  | .invalidLiteral error => error.message ++ atLine
  | .lineOutOfRange =>
    "line " ++ toString e.line ++ " is beyond the line table limit of " ++ toString maxLine
  | .tooDeep => "expression tree is deeper than " ++ toString maxHeight ++ " levels" ++ atLine

/-- The bytes to blame, unless the node came from no source text. -/
def span? (e : LowerError) : Option Span :=
  if e.site.span = .unknown then none else some e.site.span

end LowerError

/-- What an operator does with one operand; a plus sign does nothing. -/
inductive PrefixMeaning where
  | nothing
  | compute (op : UnaryOp)
deriving DecidableEq, Repr

namespace TokenKind

/-- The meaning of a token before an operand. -/
def prefixMeaning? : TokenKind → Option PrefixMeaning
  | mark .plus => some .nothing
  | mark .minus => some (.compute .negate)
  | mark .bang => some (.compute .not)
  | _ => none

/-- The meaning of a token between two operands. -/
def binaryOp? : TokenKind → Option BinaryOp
  | mark .plus => some .add
  | mark .minus => some .subtract
  | mark .star => some .multiply
  | mark .slash => some .divide
  | mark .less => some .less
  | mark .lessEqual => some .lessEqual
  | mark .greater => some .greater
  | mark .greaterEqual => some .greaterEqual
  | mark .equal | mark .equalEqual => some .equal
  | mark .bangEqual | mark .hash => some .notEqual
  | _ => none

end TokenKind

namespace Expr

/-- The line of a site as the line table holds it. -/
def tableLine (s : Site) : Except LowerError UInt16 :=
  if s.position.line ≤ maxLine then .ok s.position.line.toUInt16
  else .error ⟨.lineOutOfRange, s⟩

/-- Adds the instruction of a literal. -/
def lowerLiteral (s : Site) (kind : LiteralKind) (text : String) (c : Chunk) :
    Except LowerError Chunk := do
  let line ← tableLine s
  match Value.ofLiteral kind text with
  | .error e => .error ⟨.invalidLiteral e, s⟩
  | .ok v =>
    match c.pushConstant .constant v line with
    | .error _ => .error ⟨.tooManyConstants, s⟩
    | .ok c => .ok c

/-- Adds the instruction of an operator whose operand has been lowered. -/
def lowerPrefix (s : Site) (op : TokenKind) (c : Chunk) : Except LowerError Chunk := do
  let line ← tableLine s
  match op.prefixMeaning? with
  | some .nothing => .ok c
  | some (.compute u) => .ok (c.push u.opcode line)
  | none => .error ⟨.unsupportedOperator op, s⟩

/-- Adds the instruction of an operator whose two operands have been lowered. -/
def lowerOperator (s : Site) (op : TokenKind) (c : Chunk) : Except LowerError Chunk :=
  match op.binaryOp? with
  | none => .error ⟨.unsupportedOperator op, s⟩
  | some b => do
    let line ← tableLine s
    .ok (c.push b.opcode line)

/-- Adds the code of a node that has `depth` nodes above it. -/
def lowerAt (depth : Nat) : Expr → Chunk → Except LowerError Chunk
  | literal s kind text, c =>
    if maxHeight ≤ depth then .error ⟨.tooDeep, s⟩ else lowerLiteral s kind text c
  | unary s op e, c =>
    if maxHeight ≤ depth then .error ⟨.tooDeep, s⟩
    else do lowerPrefix s op (← e.lowerAt (depth + 1) c)
  | binary s _ op l r, c =>
    if maxHeight ≤ depth then .error ⟨.tooDeep, s⟩
    else do lowerOperator s op (← r.lowerAt (depth + 1) (← l.lowerAt (depth + 1) c))
  | grouping s e, c | primary s e, c =>
    if maxHeight ≤ depth then .error ⟨.tooDeep, s⟩ else e.lowerAt (depth + 1) c

/-- The code of an expression, which ends by returning its value. -/
def lower (e : Expr) : Except LowerError Chunk := do
  return (← e.lowerAt 0 .empty).push .ret 0

end Expr

/-! ### From source text to code -/

/-- Why a source text has no code. -/
inductive CompileError where
  | lex (e : LexError)
  | parse (e : ParseError)
  | lower (e : LowerError)
deriving DecidableEq, Repr

namespace CompileError

def message : CompileError → String
  | lex e => e.message
  | parse e => e.message
  | lower e => e.message

def line : CompileError → Nat
  | lex e => e.site.position.line
  | parse e => e.site.position.line
  | lower e => e.line

/-- The bytes of the source text to blame. -/
def span? : CompileError → Option Span
  | lex e => some e.site.span
  | parse e => some e.site.span
  | lower e => e.span?

end CompileError

/-- The expression that a source text is. -/
def Expr.ofSource (source : String) : Except CompileError Expr := do
  let tokens ← (Token.scan source).mapError .lex
  (Expr.ofTokens tokens).mapError .parse

/-- The code of a source text. -/
def Chunk.ofSource (source : String) : Except CompileError Chunk := do
  let e ← Expr.ofSource source
  e.lower.mapError .lower

end StackCalc
