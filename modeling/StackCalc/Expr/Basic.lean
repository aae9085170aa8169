/-
Expression trees.

A node is a literal, an operator with one or two operands, a pair of parentheses, or the
wrapper that the parser puts around a literal operand.  Nodes with two operands remember
the level of the grammar that built them; a tree put together by hand may use the level
that no grammar rule builds.  Any token can stand as an operator here: which operators mean
something is decided where the tree is lowered.
-/
import StackCalc.Source.Span
import StackCalc.Token.Kind

namespace StackCalc

/-- How the text of a literal becomes a value. -/
inductive LiteralKind where
  | number (n : NumberKind)
  | string
  | bool
deriving DecidableEq, Repr

/-- The level of a node with two operands. -/
inductive Level where
  /-- A level that the grammar does not have, for trees put together by hand. -/
  | binary
  | equality
  | comparison
  | term
  | factor
deriving DecidableEq, Repr

/-- An expression.  The site of a node is that of the literal, of the operator or of the
opening parenthesis, with the bytes of the whole node. -/
inductive Expr where
  | literal (site : Site) (kind : LiteralKind) (text : String)
  | unary (site : Site) (op : TokenKind) (operand : Expr)
  | binary (site : Site) (level : Level) (op : TokenKind) (left right : Expr)
  | grouping (site : Site) (inner : Expr)
  | primary (site : Site) (inner : Expr)
deriving DecidableEq, Repr

namespace Expr

def site : Expr → Site
  | literal s _ _ => s
  | unary s _ _ => s
  | binary s _ _ _ _ => s
  | grouping s _ => s
  | primary s _ => s

/-- The number of nodes on the longest way down. -/
def height : Expr → Nat
  | literal _ _ _ => 1
  | unary _ _ e => e.height + 1
  | binary _ _ _ l r => max l.height r.height + 1
  | grouping _ e => e.height + 1
  | primary _ e => e.height + 1

/-- The node itself, then its operands from left to right with all that is below them. -/
def nodes : Expr → List Expr
  | e@(literal _ _ _) => [e]
  | e@(unary _ _ x) => e :: x.nodes
  | e@(binary _ _ _ l r) => e :: (l.nodes ++ r.nodes)
  | e@(grouping _ x) => e :: x.nodes
  | e@(primary _ x) => e :: x.nodes

end Expr

end StackCalc
