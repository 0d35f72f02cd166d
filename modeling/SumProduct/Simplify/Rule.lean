/-
The rules of simplification. The literal rules look at the operands of a sum or product as
written; the combining rules look at operands already simplified, fold two numbers into one and
drop a zero or one that simplification brought out. Every use of a rule is a step. Some are also
recorded: all but the dropping of a zero term or a factor one by a combining rule.
-/
import SumProduct.Bindings.Basic
import SumProduct.Record

namespace SumProduct

inductive Step where
  | addZero
  | multiplyZero
  | multiplyOne
  | foldSum
  | foldProduct
  | substitute
deriving DecidableEq, Repr

def Step.label : Step → String
  | addZero => "AddZero"
  | multiplyZero => "MultiplyZero"
  | multiplyOne => "MultiplyOne"
  | foldSum => "FoldSum"
  | foldProduct => "FoldProduct"
  | substitute => "Substitute"

/-- The steps taken and the records made, in order. -/
@[ext] structure Journal where
  steps : List Step
  records : List Record
deriving DecidableEq

namespace Journal

def empty : Journal := ⟨[], []⟩

def append (a b : Journal) : Journal := ⟨a.steps ++ b.steps, a.records ++ b.records⟩

instance : Append Journal := ⟨append⟩

@[simp] theorem steps_append (a b : Journal) : (a ++ b).steps = a.steps ++ b.steps := rfl

@[simp] theorem records_append (a b : Journal) : (a ++ b).records = a.records ++ b.records := rfl

@[simp] theorem append_empty (a : Journal) : a ++ empty = a := by
  ext1 <;> simp [empty]

/-- A step without a record. -/
def silent (s : Step) : Journal := ⟨[s], []⟩

/-- A step with its record. -/
def noted (s : Step) (r : Record) : Journal := ⟨[s], [r]⟩

end Journal

namespace Rule

/-! ## Literal rules -/

/-- Which operand a rule leaves. -/
inductive Operand where
  | lhs
  | rhs
deriving DecidableEq, Repr

def Operand.of {α : Type} (lhs rhs : α) : Operand → α
  | .lhs => lhs
  | .rhs => rhs

/-- A zero term is dropped, the right one if both are zero. -/
def addZero (l r : Expr) : Option (Operand × Journal) :=
  if r.isZero then some (.lhs, .noted .addZero (.addZero l r l))
  else if l.isZero then some (.rhs, .noted .addZero (.addZero l r r))
  else none

/-- A product with a zero factor is zero. -/
def multiplyZero (l r : Expr) : Option (Expr × Journal) :=
  if l.isZero || r.isZero then some (.zero, .noted .multiplyZero (.multiplyZero l r)) else none

/-- A factor one is dropped, the right one if both are one. -/
def multiplyOne (l r : Expr) : Option (Operand × Journal) :=
  if r.isOne then some (.lhs, .noted .multiplyOne (.multiplyOne l r l))
  else if l.isOne then some (.rhs, .noted .multiplyOne (.multiplyOne l r r))
  else none

/-- A bound symbol is replaced by its value. -/
def substitute (b : Bindings) (x : Symbol) : Option (Expr × Journal) :=
  (b.get? x).map fun v => (.number v, .noted .substitute (.substitute x v))

/-! ## Combining rules -/

/-- The sum of two simplified terms. -/
def combineSum (l r : Expr) : Expr × Journal :=
  match l, r with
  | .number m, .number n => (.number (m + n), .noted .foldSum (.foldSum m n (m + n)))
  | _, _ =>
    if r.isZero then (l, .silent .addZero)
    else if l.isZero then (r, .silent .addZero)
    else (.sum l r, .empty)

/-- The product of two simplified factors. A zero factor is looked for before two numbers. -/
def combineProduct (l r : Expr) : Expr × Journal :=
  if l.isZero || r.isZero then (.zero, .noted .multiplyZero (.multiplyZero l r))
  else
    match l, r with
    | .number m, .number n => (.number (m * n), .noted .foldProduct (.foldProduct m n (m * n)))
    | _, _ =>
      if r.isOne then (l, .silent .multiplyOne)
      else if l.isOne then (r, .silent .multiplyOne)
      else (.product l r, .empty)

end Rule

end SumProduct
