/-
Reading of single tokens: the next one, one of a given kind, or an operator.
-/
import SumProduct.Cursor.Outcome
import SumProduct.Tree

namespace SumProduct.Grammar

/-- The next token that is not whitespace. At the end of the source this fails, with all
whitespace passed. -/
def nextOf (stop : Nat) : (tokens : List Token) → Outcome Token tokens.length
  | [] => .fail (.atSpan (.point stop) .unexpectedEnd) ⟨[], stop⟩
  | t :: rest =>
    if t.isBlank then (nextOf stop rest).weaken (Nat.le_succ _)
    else .ok t ⟨rest, stop⟩ (Nat.lt_succ_self _)

def next (c : Cursor) : Outcome Token c.size := nextOf c.stop c.rest

/-- A token of a kind. A token of another kind is passed all the same. -/
def token (kind : TokenKind) (c : Cursor) : Outcome Token c.size :=
  match next c with
  | .fail e s => .fail e s
  | .ok t c' h =>
    if t.kind = kind then .ok t c' h
    else .fail (.atSpan t.span (.unexpectedToken [kind] t.kind)) c'

/-! ## Operators -/

/-- The operator of a kind of token. -/
def operatorKind? : TokenKind → Option OperatorKind
  | .plus => some .plus
  | .times => some .times
  | _ => none

/-- An operator. A token of another kind is passed all the same. -/
def operator (c : Cursor) : Outcome Operator c.size :=
  match next c with
  | .fail e s => .fail e s
  | .ok t c' h =>
    match operatorKind? t.kind with
    | some kind => .ok ⟨kind, t.span⟩ c' h
    | none => .fail (.atSpan t.span (.unexpectedToken [.plus, .times] t.kind)) c'

/-- An operator that satisfies a condition. The cursor stays if there is none. -/
def operatorIf (accept : Operator → Bool) (c : Cursor) : Outcome Operator c.size :=
  match operator c with
  | .fail e _ => .fail e c
  | .ok op c' h => if accept op then .ok op c' h else .fail (c'.error .unsuitable) c

/-- An operator that binds at least as tightly as a precedence. -/
def operatorFrom (least : Precedence) : (c : Cursor) → Outcome Operator c.size :=
  operatorIf fun op => least.rank ≤ op.precedence.rank

/-- An operator that binds more tightly than a precedence. -/
def operatorAbove (p : Precedence) : (c : Cursor) → Outcome Operator c.size :=
  operatorIf fun op => p.rank < op.precedence.rank

end SumProduct.Grammar
