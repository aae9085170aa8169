/-
Two ways to write an expression.

The Polish form puts the operator first and every operator node in parentheses; the
wrapper around a literal does not show.  The JSON form shows every node with its kind and
position, and leaves the spans out.
-/
import StackCalc.Expr.Basic
import StackCalc.Text.Json

namespace StackCalc

/-! ### Polish form -/

/-- The expression with each operator before its operands. -/
def Expr.polish : Expr → String
  | literal _ .string text => "\"" ++ text ++ "\""
  | literal _ _ text => text
  | unary _ op e => "(" ++ op.symbol ++ " " ++ e.polish ++ ")"
  | binary _ _ op l r => "(" ++ op.symbol ++ " " ++ l.polish ++ " " ++ r.polish ++ ")"
  | grouping _ e => "(group " ++ e.polish ++ ")"
  | primary _ e => e.polish

/-! ### JSON form -/

def Keyword.tag : Keyword → String
  | varWord => "Var"
  | constWord => "Const"
  | procedureWord => "Procedure"
  | callWord => "Call"
  | beginWord => "Begin"
  | endWord => "End"
  | ifWord => "If"
  | thenWord => "Then"
  | elseWord => "Else"
  | whileWord => "While"
  | doWord => "Do"
  | forWord => "For"
  | printWord => "Print"
  | oddWord => "Odd"
  | trueWord => "True"
  | falseWord => "False"

def Mark.tag : Mark → String
  | dot => "Dot"
  | comma => "Comma"
  | semicolon => "Semicolon"
  | assign => "Assign"
  | leftParen => "LParen"
  | rightParen => "RParen"
  | plus => "Plus"
  | minus => "Minus"
  | star => "Star"
  | slash => "Slash"
  | equal => "Equal"
  | equalEqual => "EqualEqual"
  | bangEqual => "BangEqual"
  | hash => "Hash"
  | less => "Less"
  | lessEqual => "LessEqual"
  | greater => "Greater"
  | greaterEqual => "GreaterEqual"
  | bang => "Bang"

def NumberKind.tag : NumberKind → String
  | integer => "Integer"
  | double => "Double"

def NumberKind.toJson (n : NumberKind) : Json :=
  .obj [("Number", .str n.tag)]

def TokenKind.toJson : TokenKind → Json
  | keyword k => .str k.tag
  | mark m => .str m.tag
  | number n => n.toJson
  | string => .str "Str"
  | identifier => .str "Ident"

def LiteralKind.toJson : LiteralKind → Json
  | number n => n.toJson
  | string => .str "String"
  | bool => .str "Bool"

def Level.tag : Level → String
  | binary => "Binary"
  | equality => "Equality"
  | comparison => "Comparison"
  | term => "Term"
  | factor => "Factor"

def Position.toJson (p : Position) : Json :=
  .obj [("line", .num p.line), ("column", .num p.column)]

namespace Expr

/-- The name of the node's kind. -/
def tag : Expr → String
  | literal _ _ _ => "Literal"
  | unary _ _ _ => "Unary"
  | binary _ level _ _ _ => level.tag
  | grouping _ _ => "Grouping"
  | primary _ _ => "Primary"

/-- A node in JSON: its kind with what belongs to it, then its position. -/
def nodeJson (tag : String) (content : Json) (site : Site) : Json :=
  .obj [("kind", .obj [(tag, content)]), ("pos", site.position.toJson)]

/-- The tree in JSON, without spans. -/
def toJson : Expr → Json
  | literal s kind text =>
    nodeJson "Literal" (.obj [("kind", kind.toJson), ("text", .str text)]) s
  | unary s op e => nodeJson "Unary" (.obj [("op", op.toJson), ("operand", e.toJson)]) s
  | binary s level op l r =>
    nodeJson level.tag (.obj [("left", l.toJson), ("op", op.toJson), ("right", r.toJson)]) s
  | grouping s e => nodeJson "Grouping" e.toJson s
  | primary s e => nodeJson "Primary" e.toJson s

end Expr

end StackCalc
