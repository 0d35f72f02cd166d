/-
Expressions from texts.
-/
import SumProduct.Grammar.Expr

namespace SumProduct

/-- Why no expression came of a text: it could not be read, or a value in it is not admitted. -/
inductive Failure where
  | syntaxError (e : SyntaxError)
  | refusal (e : Refusal)
deriving DecidableEq

/-- The tree of a text that is one expression. -/
def Tree.parse (source : String) : Except SyntaxError Tree :=
  (Grammar.expr (.ofSource source)).complete.result

/-- The expression that a text spells. -/
def Expr.parse (source : String) : Except Failure Expr :=
  match Tree.parse source with
  | .error e => .error (.syntaxError e)
  | .ok t =>
    match Expr.ofTree t with
    | .error e => .error (.refusal e)
    | .ok e => .ok e

end SumProduct
