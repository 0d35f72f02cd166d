/-
What a hash of an expression is computed from: one word for the kind of each node, then its
content.
-/
import SumProduct.Expr.Basic

namespace SumProduct.Expr

/-- A word given to a hash function. -/
inductive HashWord where
  | kind (k : Nat)
  | bits (b : UInt64)
  | name (s : String)
deriving DecidableEq

/-- The words of an expression, nodes before their operands. -/
def hashWords : Expr → List HashWord
  | number n => [.kind 0, .bits n.toDouble.bits]
  | symbol x => [.kind 1, .name x.name]
  | sum l r => .kind 2 :: (l.hashWords ++ r.hashWords)
  | product l r => .kind 3 :: (l.hashWords ++ r.hashWords)

end SumProduct.Expr
