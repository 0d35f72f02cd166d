/-
Records of what an operation on expressions does, in the order in which it is done, and their
texts.
-/
import SumProduct.Expr.Basic

namespace SumProduct

/-- How much a record matters: the start and the end of an operation, or a single rule. -/
inductive Level where
  | debug
  | trace
deriving DecidableEq, Repr

def Level.label : Level → String
  | debug => "DEBUG"
  | trace => "TRACE"

inductive Record where
  | differentiating (f : Expr) (x : Symbol)
  | sumRule (x : Symbol) (lhs rhs : Expr)
  | productRule (x : Symbol) (lhs rhs : Expr)
  | leafRule (x : Symbol) (e : Expr) (result : Number)
  | simplifying (e : Expr) (bound : Nat)
  | simplified (e : Expr)
  | addZero (lhs rhs remaining : Expr)
  | multiplyZero (lhs rhs : Expr)
  | multiplyOne (lhs rhs remaining : Expr)
  | foldSum (lhs rhs result : Number)
  | foldProduct (lhs rhs result : Number)
  | substitute (x : Symbol) (value : Number)
deriving DecidableEq

namespace Record

def level : Record → Level
  | differentiating .. | simplifying .. | simplified .. => .debug
  | _ => .trace

private def inParens (lhs : Expr) (sign : String) (rhs : Expr) : String :=
  "(" ++ lhs.text ++ sign ++ rhs.text ++ ")"

private def equation (lhs : Number) (sign : String) (rhs result : Number) : String :=
  lhs.text ++ sign ++ rhs.text ++ " = " ++ result.text

def message : Record → String
  | differentiating f x => "differentiating " ++ f.text ++ " with respect to " ++ x.name
  | sumRule x l r => "sum_rule: d/d" ++ x.name ++ " " ++ inParens l " + " r
  | productRule x l r => "product_rule: d/d" ++ x.name ++ " " ++ inParens l " * " r
  | leafRule x e result => "primary_rule: d/d" ++ x.name ++ " " ++ e.text ++ " = " ++ result.text
  | simplifying e bound => "simplifying " ++ e.text ++ " with " ++ toString bound ++ " binding(s)"
  | simplified e => "simplified to " ++ e.text
  | addZero l r e => "add_zero: " ++ inParens l " + " r ++ " -> " ++ e.text
  | multiplyZero l r => "multiply_zero: " ++ inParens l " * " r ++ " -> 0"
  | multiplyOne l r e => "multiply_one: " ++ inParens l " * " r ++ " -> " ++ e.text
  | foldSum l r n => "fold_sum: " ++ equation l " + " r n
  | foldProduct l r n => "fold_product: " ++ equation l " * " r n
  | substitute x v => "substitute: " ++ x.name ++ " = " ++ v.text

end Record

end SumProduct
