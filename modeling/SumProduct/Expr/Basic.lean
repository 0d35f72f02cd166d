/-
Polynomial expressions over `+` and `*`: binary trees with numbers and symbols at the leaves. An
expression is written with every sum and product in parentheses.
-/
import SumProduct.Number
import SumProduct.Symbol

namespace SumProduct

/-- An expression. Operands keep their order and grouping. -/
inductive Expr where
  | number (n : Number)
  | symbol (x : Symbol)
  | sum (lhs rhs : Expr)
  | product (lhs rhs : Expr)
deriving DecidableEq

namespace Expr

def zero : Expr := number .zero

def number? : Expr → Option Number
  | number n => some n
  | _ => none

def symbol? : Expr → Option Symbol
  | symbol x => some x
  | _ => none

/-- Whether the expression is the literal zero; an expression that only has the value zero is
not. -/
def isZero (e : Expr) : Bool := e.number?.any Number.isZero

/-- Whether the expression is the literal one. -/
def isOne (e : Expr) : Bool := e.number?.any Number.isOne

theorem isZero_iff {e : Expr} : e.isZero = true ↔ e = zero := by
  cases e <;> simp [isZero, zero, number?]

theorem isOne_iff {e : Expr} : e.isOne = true ↔ e = number .one := by
  cases e <;> simp [isOne, number?]

/-! ## Text -/

def text : Expr → String
  | number n => n.text
  | symbol x => x.name
  | sum l r => "(" ++ l.text ++ " + " ++ r.text ++ ")"
  | product l r => "(" ++ l.text ++ " * " ++ r.text ++ ")"

end Expr

/-! ## Refusals -/

/-- Why a value is not admitted into an expression or an operation on expressions. -/
inductive Refusal where
  | number (e : Number.Invalid)
  | symbol (e : Symbol.Invalid)
  /-- Something other than a symbol to be bound. -/
  | key (e : Expr)
  /-- Something other than a symbol to differentiate by. -/
  | derivativeBy (e : Expr)
deriving DecidableEq

def Refusal.message : Refusal → String
  | number e => e.message
  | symbol e => e.message
  | key e => "only symbols can be bound to a value, got `" ++ e.text ++ "`"
  | derivativeBy e => "can only differentiate with respect to a symbol, got `" ++ e.text ++ "`"

namespace Expr

/-! ## Leaves from unchecked values -/

def ofDouble (x : Double) : Except Refusal Expr :=
  match Number.ofDouble x with
  | .ok n => .ok (number n)
  | .error e => .error (.number e)

def ofName (name : String) : Except Refusal Expr :=
  match Symbol.ofName name with
  | .ok x => .ok (symbol x)
  | .error e => .error (.symbol e)

end Expr

end SumProduct
