/-
Simplification of an expression under bindings. At each sum or product the literal rules are
tried first, and what they drop is not simplified; otherwise both operands are simplified and
combined.
-/
import SumProduct.Simplify.Rule

namespace SumProduct.Expr

/-- The simplified expression with the rules used. -/
def simplifyRules (b : Bindings) : Expr → Expr × Journal
  | number n => (number n, .empty)
  | symbol x => (Rule.substitute b x).getD (symbol x, .empty)
  | sum l r =>
    match Rule.addZero l r with
    | some (.lhs, j) => let (e, k) := l.simplifyRules b; (e, j ++ k)
    | some (.rhs, j) => let (e, k) := r.simplifyRules b; (e, j ++ k)
    | none =>
      let (l', j) := l.simplifyRules b
      let (r', k) := r.simplifyRules b
      let (e, last) := Rule.combineSum l' r'
      (e, j ++ k ++ last)
  | product l r =>
    match Rule.multiplyZero l r with
    | some zero => zero
    | none =>
      match Rule.multiplyOne l r with
      | some (.lhs, j) => let (e, k) := l.simplifyRules b; (e, j ++ k)
      | some (.rhs, j) => let (e, k) := r.simplifyRules b; (e, j ++ k)
      | none =>
        let (l', j) := l.simplifyRules b
        let (r', k) := r.simplifyRules b
        let (e, last) := Rule.combineProduct l' r'
        (e, j ++ k ++ last)

def simplify (b : Bindings) (e : Expr) : Expr := (e.simplifyRules b).1

/-- The simplified expression, and the steps taken behind those taken before. -/
def simplifyWith (b : Bindings) (before : List Step) (e : Expr) : Expr × List Step :=
  let (e', j) := e.simplifyRules b
  (e', before ++ j.steps)

/-- The simplified expression and the steps taken. -/
def simplifyWithSteps (b : Bindings) (e : Expr) : Expr × List Step := e.simplifyWith b []

/-- All records of a simplification. -/
def simplifyRecords (b : Bindings) (e : Expr) : List Record :=
  let (e', j) := e.simplifyRules b
  .simplifying e b.size :: j.records ++ [.simplified e']

end SumProduct.Expr
