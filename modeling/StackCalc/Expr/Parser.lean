/-
Reading a token list as one expression.

  program    = expression [ "." ]
  expression = equality
  equality   = comparison { ( "==" | "=" | "!=" | "#" ) comparison }
  comparison = term { ( ">" | ">=" | "<" | "<=" ) term }
  term       = factor { ( "+" | "-" ) factor }
  factor     = unary { ( "*" | "/" ) unary }
  unary      = ( "-" | "+" | "!" | "odd" ) unary | primary
  primary    = NUMBER | STRING | "true" | "false" | "(" expression ")"

Two bounds keep every later walk over the tree short: at most 128 prefix operators and
parentheses inside one another, and at most 1024 nodes on any way down.  The first bound
is what the recursion runs on.  A parser for operands is built from the parser for operands
one level further in, so the budget of levels left goes down at each opener, and the four
levels of operators between them are one function, `chain`, applied four times.
-/
import StackCalc.Expr.Basic
import StackCalc.Token.Lexer

namespace StackCalc

/-- The ways in which a token list can fail to be an expression. -/
inductive ParseFault where
  | missingExpression
  | missingParen
  | trailing (literal : String)
  | notExpression (literal : String)
  | notParen (literal : String)
  | variableName (name : String)
  | unsupported (literal : String)
  | tooNested
  | tooTall
deriving DecidableEq, Repr

/-- How many groupings and prefix operators may enclose one another. -/
def maxNesting : Nat := 128

/-- The greatest height of a tree. -/
def maxHeight : Nat := 1024

namespace ParseFault

/-- The code under which the fault is explained. -/
def code : ParseFault → String
  | trailing _ | notExpression _ | notParen _ => "PL0-P001"
  | missingExpression | missingParen => "PL0-P002"
  | variableName _ | unsupported _ => "PL0-P003"
  | tooNested | tooTall => "PL0-P004"

def message : ParseFault → String
  | missingExpression => "expected an expression, got end of input"
  | missingParen => "expected ')', got end of input"
  | trailing s => "unexpected '" ++ s ++ "' after the end of the expression"
  | notExpression s => "expected an expression, got '" ++ s ++ "'"
  | notParen s => "expected ')', got '" ++ s ++ "'"
  | variableName s =>
    "variable '" ++ s ++ "' cannot be evaluated; only constant expressions are executable"
  | unsupported s => "'" ++ s ++ "' is not supported; only expressions are executable"
  | tooNested => "expression is nested more than " ++ toString maxNesting ++ " levels deep"
  | tooTall => "expression tree is deeper than " ++ toString maxHeight ++ " levels"

end ParseFault

/-- A fault and the place that is blamed for it. -/
structure ParseError where
  fault : ParseFault
  site : Site
deriving DecidableEq, Repr

namespace ParseError

def code (e : ParseError) : String :=
  e.fault.code

/-- What went wrong, without the place. -/
def detail (e : ParseError) : String :=
  e.fault.message

def message (e : ParseError) : String :=
  "parse error at " ++ toString e.site.position.line ++ ":" ++
    toString e.site.position.column ++ ": " ++ e.detail

end ParseError

/-! ### The grammar's classes of tokens -/

/-- The operators of a level. -/
def Level.operators : Level → List Mark
  | binary => []
  | equality => [.equalEqual, .equal, .bangEqual, .hash]
  | comparison => [.greater, .greaterEqual, .less, .lessEqual]
  | term => [.plus, .minus]
  | factor => [.star, .slash]

/-- The token is an operator of the level. -/
def Level.accepts (level : Level) : TokenKind → Bool
  | .mark m => level.operators.contains m
  | _ => false

namespace TokenKind

/-- The token can stand before an operand. -/
def isPrefixOperator : TokenKind → Bool
  | mark .minus | mark .plus | mark .bang | keyword .oddWord => true
  | _ => false

/-- The kind of literal that the token is. -/
def literalKind? : TokenKind → Option LiteralKind
  | number n => some (.number n)
  | string => some .string
  | keyword .trueWord | keyword .falseWord => some .bool
  | _ => none

/-- The token belongs to statements or declarations. -/
def isStatementWord : TokenKind → Bool
  | mark .assign => true
  | keyword .oddWord | keyword .trueWord | keyword .falseWord => false
  | keyword _ => true
  | _ => false

end TokenKind

/-! ### Parsing -/

namespace Parser

/-- The outcome of reading an expression from the front of `tokens`.  At least one token
has been read, which is why the loops below end. -/
structure Parsed (tokens : List Token) where
  expr : Expr
  /-- The height of the tree. -/
  height : Nat
  rest : List Token
  shorter : rest.length < tokens.length

/-- A parser of one syntactic category. -/
abbrev Category := (tokens : List Token) → Except ParseError (Parsed tokens)

/-- How many values a column or an offset can have. -/
def wordValues : Nat := 18446744073709551616

/-- Where the input ends: just past the last token, or at the very start if there is none.
Columns and offsets are 64-bit words, which shows when a span that was put together by hand
runs backwards. -/
def endOf (tokens : List Token) : Site :=
  match tokens.getLast? with
  | none => ⟨⟨1, 1⟩, .unknown⟩
  | some t =>
    let span := t.site.span
    let column := ((t.site.position.column + span.stop : Int) - span.start) % wordValues
    ⟨⟨t.site.position.line, column.toNat⟩, ⟨span.stop, span.stop⟩⟩

/-- Refuses a node that is too tall, in the name of the token that would build it. -/
def checkHeight (height : Nat) (blamed : Token) : Except ParseError Unit :=
  if maxHeight < height then .error ⟨.tooTall, blamed.site⟩ else .ok ()

/-- Goes on with a chain of operands of which `left` has been read, folding to the left. -/
def chainFrom (level : Level) (operand : Category) {tokens : List Token}
    (left : Parsed tokens) : Except ParseError (Parsed tokens) :=
  match hrest : left.rest with
  | [] => .ok left
  | op :: afterOp =>
    if level.accepts op.kind then do
      let right ← operand afterOp
      let height := max left.height right.height + 1
      checkHeight height op
      let span := left.expr.site.span.merge right.expr.site.span
      chainFrom level operand
        { expr := .binary ⟨op.site.position, span⟩ level op.kind left.expr right.expr
          height := height
          rest := right.rest
          shorter := by
            have h₁ := left.shorter
            have h₂ := right.shorter
            rw [hrest, List.length_cons] at h₁
            omega }
    else .ok left
termination_by left.rest.length
decreasing_by
  rw [hrest, List.length_cons]
  exact Nat.lt_succ_of_lt right.shorter

/-- One or more operands with operators of one level between them. -/
def chain (level : Level) (operand : Category) : Category := fun tokens => do
  chainFrom level operand (← operand tokens)

/-- An expression, given how an operand is read. -/
def expressionOf (operand : Category) : Category :=
  chain .equality (chain .comparison (chain .term (chain .factor operand)))

/-- Why no expression starts with this token. -/
def refusal (t : Token) : ParseFault :=
  if t.kind = .identifier then .variableName t.literal
  else if t.kind.isStatementWord then .unsupported t.literal
  else .notExpression t.literal

/-- A literal operand. -/
def literalAt (t : Token) (kind : LiteralKind) (rest : List Token) : Parsed (t :: rest) :=
  { expr := .primary t.site (.literal t.site kind t.literal)
    height := 2
    rest := rest
    shorter := by simp }

/-- A prefix operator and its operand. -/
def prefixed (op : Token) {rest : List Token} (x : Parsed rest) :
    Except ParseError (Parsed (op :: rest)) := do
  checkHeight (x.height + 1) op
  return {
    expr := .unary ⟨op.site.position, op.site.span.merge x.expr.site.span⟩ op.kind x.expr
    height := x.height + 1
    rest := x.rest
    shorter := Nat.lt_succ_of_lt x.shorter }

/-- What an opening parenthesis and an expression need to be complete. -/
def closed (finish : Site) (opener : Token) {rest : List Token} (x : Parsed rest) :
    Except ParseError (Parsed (opener :: rest)) :=
  match hrest : x.rest with
  | [] => .error ⟨.missingParen, finish⟩
  | t :: afterParen =>
    if t.kind = .mark .rightParen then do
      checkHeight (x.height + 1) opener
      return {
        expr := .grouping ⟨opener.site.position, opener.site.span.merge t.site.span⟩ x.expr
        height := x.height + 1
        rest := afterParen
        shorter := by
          have h := x.shorter
          rw [hrest, List.length_cons] at h
          rw [List.length_cons]
          omega }
    else .error ⟨.notParen t.literal, t.site⟩

/-- An operand, given how operands one level further in are read, if there may be any. -/
def operandStep (finish : Site) (inner : Option Category) : Category
  | [] => .error ⟨.missingExpression, finish⟩
  | t :: rest =>
    if t.kind.isPrefixOperator then
      match inner with
      | none => .error ⟨.tooNested, t.site⟩
      | some operand => do prefixed t (← operand rest)
    else
      match t.kind.literalKind? with
      | some kind => .ok (literalAt t kind rest)
      | none =>
        if t.kind = .mark .leftParen then
          match inner with
          | none => .error ⟨.tooNested, t.site⟩
          | some operand => do closed finish t (← expressionOf operand rest)
        else .error ⟨refusal t, t.site⟩

/-- An operand with at most `budget` openers inside one another.  `finish` is where the
input ends. -/
def operand (finish : Site) : Nat → Category
  | 0 => operandStep finish none
  | budget + 1 => operandStep finish (some (operand finish budget))

/-- An expression with at most `budget` openers inside one another. -/
def expression (finish : Site) (budget : Nat) : Category :=
  expressionOf (operand finish budget)

/-- Drops the dot that may close a program. -/
def dropDot : List Token → List Token
  | [] => []
  | t :: rest => if t.kind = .mark .dot then rest else t :: rest

end Parser

/-- The expression that a whole token list is. -/
def Expr.ofTokens (tokens : List Token) : Except ParseError Expr := do
  let parsed ← Parser.expression (Parser.endOf tokens) maxNesting tokens
  match Parser.dropDot parsed.rest with
  | [] => return parsed.expr
  | t :: _ => .error ⟨.trailing t.literal, t.site⟩

end StackCalc
