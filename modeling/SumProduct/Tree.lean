/-
Parse trees: expressions as they were spelt, with their parentheses and the region of the source
that each part covers. A tree may also come from elsewhere than a source, so its numbers and names
are unchecked until an expression is built from it.
-/
import SumProduct.Expr.Basic
import SumProduct.Token.Basic

namespace SumProduct

/-! ## Operators -/

inductive OperatorKind where
  | plus
  | times
deriving DecidableEq, Repr

def OperatorKind.text : OperatorKind → String
  | plus => "+"
  | times => "*"

/-- An operator sign in a source. -/
structure Operator where
  kind : OperatorKind
  span : Span
deriving DecidableEq, Repr

/-- How tightly an operator binds: `times` separates factors, `plus` separates terms, and `any`
is below both. -/
inductive Precedence where
  | any
  | term
  | factor
deriving DecidableEq, Repr

namespace Precedence

def rank : Precedence → Nat
  | any => 0
  | term => 1
  | factor => 2

def label : Precedence → String
  | any => "Any"
  | term => "Term"
  | factor => "Factor"

end Precedence

def OperatorKind.precedence : OperatorKind → Precedence
  | plus => .term
  | times => .factor

def Operator.precedence (op : Operator) : Precedence := op.kind.precedence

/-! ## Trees -/

inductive Tree where
  | number (value : Double) (span : Span)
  | symbol (name : String) (span : Span)
  | paren (inner : Tree) (span : Span)
  | binary (lhs : Tree) (op : Operator) (rhs : Tree) (span : Span)
deriving DecidableEq, Repr

namespace Tree

def span : Tree → Span
  | number _ s => s
  | symbol _ s => s
  | paren _ s => s
  | binary _ _ _ s => s

/-- Two operands joined by an operator, covering everything between their ends. -/
def join (lhs : Tree) (op : Operator) (rhs : Tree) : Tree :=
  binary lhs op rhs (lhs.span.cover rhs.span)

/-- The tree within all parentheses around it. -/
def innermost : Tree → Tree
  | paren inner _ => inner.innermost
  | t => t

/-- Every node after its operands, left before right. -/
def postOrder : Tree → List Tree
  | t@(paren inner _) => inner.postOrder ++ [t]
  | t@(binary lhs _ rhs _) => lhs.postOrder ++ rhs.postOrder ++ [t]
  | t => [t]

/-- The spelling with one blank around each operator and none elsewhere. -/
def text : Tree → String
  | number value _ => value.text
  | symbol name _ => name
  | paren inner _ => "(" ++ inner.text ++ ")"
  | binary lhs op rhs _ => lhs.text ++ " " ++ op.kind.text ++ " " ++ rhs.text

end Tree

/-! ## Expressions from trees -/

def OperatorKind.apply : OperatorKind → Expr → Expr → Expr
  | plus => .sum
  | times => .product

/-- The expression that a tree spells. Parentheses leave no trace but the grouping. The leaves
are checked from left to right. -/
def Expr.ofTree : Tree → Except Refusal Expr
  | .number value _ => Expr.ofDouble value
  | .symbol name _ => Expr.ofName name
  | .paren inner _ => ofTree inner
  | .binary lhs op rhs _ =>
    match ofTree lhs with
    | .error e => .error e
    | .ok l =>
      match ofTree rhs with
      | .error e => .error e
      | .ok r => .ok (op.kind.apply l r)

end SumProduct
