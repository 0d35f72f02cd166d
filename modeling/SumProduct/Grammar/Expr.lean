/-
Reading of expressions by precedence climbing. An operand is a literal or an expression in
parentheses; operands joined by operators of equal precedence group to the left, and `*` groups
before `+`.
-/
import SumProduct.Grammar.Literal

namespace SumProduct.Grammar

/-! ## Operands -/

/-- The error for something that starts no operand. The token is passed. -/
def noOperand (c : Cursor) : Outcome Tree c.size :=
  match next c with
  | .fail e s => .fail e s
  | .ok t c' _ =>
    match t.kind with
    | .closeParen => .fail (.fatalAtSpan t.span (.unclosedParen false)) c'
    | .other => .fail (.atSpan t.span (.unknownCharacter t.lexeme)) c'
    | found => .fail (.atSpan t.span
        (.unexpectedToken [.integer, .decimal, .name, .openParen] found)) c'

/-- An operand, given what comes of reading a parenthesis at the same place. An error in the
parenthesis that is not fatal is dropped, and the parenthesis itself is then unexpected. -/
def operandOr (c : Cursor) (paren : Outcome Tree c.size) : Outcome Tree c.size :=
  (literal c).backTo c |>.orElse fun _ => paren.backTo c |>.orElse fun _ => noOperand c

/-! ## Expressions

An operand is read by `operandOr c (paren c)`, in full `operand c`. Between two calls at places
with the same tokens ahead only the last summand of the measure falls; every other call is behind
a token that was read. -/

mutual

/-- An expression in parentheses. -/
def paren (c : Cursor) : Outcome Tree c.size :=
  match (token .openParen c).backTo c with
  | .fail e s => .fail e s
  | .ok opening c₁ h₁ =>
    if c₁.sees .closeParen then .fail (c₁.fatalError .emptyParen) c₁
    else
      match expr c₁ with
      | .fail e _ => .fail e c₁
      | .ok inner c₂ h₂ =>
        match token .closeParen c₂ with
        | .fail _ _ => .fail (.fatalAtSpan opening.span (.unclosedParen true)) c₂
        | .ok closing c₃ h₃ =>
          .ok (.paren inner (opening.span.cover closing.span)) c₃
            (Nat.lt_trans h₃ (Nat.lt_trans h₂ h₁))
termination_by 3 * c.size

/-- An operand and all operators and operands that follow it. -/
def expr (c : Cursor) : Outcome Tree c.size :=
  if c.sees .closeParen then .fail (c.fatalError (.unclosedParen false)) c
  else
    match operandOr c (paren c) with
    | .fail e _ => .fail e c
    | .ok lhs c₁ h₁ => (chain lhs .any c₁).weaken h₁
termination_by 3 * c.size + 1

/-- Extends a left-hand side by the operators that bind at least as tightly as a precedence and
their right-hand sides. -/
def chain (lhs : Tree) (least : Precedence) (c : Cursor) : Outcome Tree (c.size + 1) :=
  match operatorFrom least c with
  | .fail _ _ => .ok lhs c (Nat.lt_succ_self _)
  | .ok op c₁ h₁ => (chainFrom lhs op least c₁).weaken (Nat.le_succ_of_le (Nat.le_of_lt h₁))
termination_by 3 * c.size + 2

/-- Extends a left-hand side by an operator already read, its right-hand side and what follows. -/
def chainFrom (lhs : Tree) (op : Operator) (least : Precedence) (c : Cursor) :
    Outcome Tree c.size :=
  match operandOr c (paren c) with
  | .fail e _ => .fail e c
  | .ok rhs c₁ h₁ =>
    match completeRhs op.precedence rhs c₁ with
    | .fail e s => .fail e s
    | .ok rhs c₂ h₂ => (chain (lhs.join op rhs) least c₂).weaken (Nat.lt_of_lt_of_le h₂ h₁)
termination_by 3 * c.size + 1

/-- Extends a right-hand side by the operators that bind more tightly than the operator before
it. -/
def completeRhs (p : Precedence) (rhs : Tree) (c : Cursor) : Outcome Tree (c.size + 1) :=
  match operatorAbove p c with
  | .fail _ _ => .ok rhs c (Nat.lt_succ_self _)
  | .ok op c₁ h₁ =>
    match chainFrom rhs op op.precedence c₁ with
    | .fail e s => .fail e s
    | .ok rhs c₂ h₂ =>
      (completeRhs p rhs c₂).weaken (Nat.succ_le_succ (Nat.le_of_lt (Nat.lt_trans h₂ h₁)))
termination_by 3 * c.size + 2

end

/-- A literal or an expression in parentheses. -/
def operand (c : Cursor) : Outcome Tree c.size := operandOr c (paren c)

/-- An expression whose outermost part is an operator with its operands. -/
def binary (c : Cursor) : Outcome Tree c.size :=
  match (expr c).backTo c with
  | .fail e s => .fail e s
  | .ok t c' h =>
    match t with
    | .binary .. => .ok t c' h
    | _ => .fail (c.error .unsuitable) c'

end SumProduct.Grammar
