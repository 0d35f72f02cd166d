/-
The stored form of expressions. Reading checks numbers and names again, from left to right.
-/
import SumProduct.Data.Basic
import SumProduct.Expr.Basic

namespace SumProduct

/-- Why stored data is not an expression: it has the wrong shape, or a value in it is not
admitted. -/
inductive Unreadable where
  | shape
  | refused (e : Refusal)
deriving DecidableEq

namespace Expr

def toData : Expr → Data
  | number n => .choice "Number" (.real n.toDouble)
  | symbol x => .choice "Symbol" (.text x.name)
  | sum l r => .choice "Sum" (.list [l.toData, r.toData])
  | product l r => .choice "Product" (.list [l.toData, r.toData])

/-- The leaf of a choice. -/
def leafOfData (choice : String) (content : Data) : Except Unreadable Expr :=
  match choice with
  | "Number" => (content.double?.map ofDouble).elim (.error .shape) (.mapError .refused)
  | "Symbol" => (content.text?.map ofName).elim (.error .shape) (.mapError .refused)
  | _ => .error .shape

/-- How the two operands of a choice are joined. -/
def joinOfData? : String → Option (Expr → Expr → Expr)
  | "Sum" => some sum
  | "Product" => some product
  | _ => none

/-- The expression that was stored. An operand too many is noticed behind the first two. -/
def ofData : Data → Except Unreadable Expr
  | .object [(choice, .list items)] =>
    match joinOfData? choice, items with
    | some join, l :: r :: rest => do
      let l ← ofData l
      let r ← ofData r
      if rest.isEmpty then pure (join l r) else throw .shape
    | some _, [l] => do
      let _ ← ofData l
      throw .shape
    | _, _ => .error .shape
  | .object [(choice, content)] => leafOfData choice content
  | _ => .error .shape

end Expr

end SumProduct
