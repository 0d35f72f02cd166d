/-
Derivatives by the sum and product rules, taken as they come: nothing is simplified.
-/
import SumProduct.Record

namespace SumProduct.Expr

/-- The derivative of a leaf: one for the symbol itself, zero for any other leaf. -/
def leafDerivative (x : Symbol) (e : Expr) : Number := if e = symbol x then .one else .zero

/-- The derivative by a symbol. In a product the right factor is derived first:
`l * r` becomes `l * r' + r * l'`. -/
def derivative (x : Symbol) : Expr → Expr
  | sum l r => sum (l.derivative x) (r.derivative x)
  | product l r => sum (product l (r.derivative x)) (product r (l.derivative x))
  | e => number (leafDerivative x e)

/-- The rules used, each before those of its operands. -/
def derivativeRules (x : Symbol) : Expr → List Record
  | sum l r => .sumRule x l r :: (l.derivativeRules x ++ r.derivativeRules x)
  | product l r => .productRule x l r :: (r.derivativeRules x ++ l.derivativeRules x)
  | e => [.leafRule x e (leafDerivative x e)]

/-- All records of a derivative. -/
def derivativeRecords (x : Symbol) (e : Expr) : List Record :=
  .differentiating e x :: e.derivativeRules x

/-- The symbol to differentiate by, given as an expression. -/
def toVariable (e : Expr) : Except Refusal Symbol :=
  match e with
  | symbol x => .ok x
  | _ => .error (.derivativeBy e)

/-- The derivative by a symbol given as an expression. -/
def derivativeBy (f var : Expr) : Except Refusal Expr :=
  match toVariable var with
  | .ok x => .ok (f.derivative x)
  | .error e => .error e

end SumProduct.Expr
