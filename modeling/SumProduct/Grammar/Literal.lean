/-
Reading of literals: numbers and symbols.
-/
import SumProduct.Grammar.Lexical

namespace SumProduct.Grammar

/-- A number: digits, with or without a point, that have a value. A numeral without one is a fatal
error, behind which the cursor is left. -/
def numberBy (value : String → Option Number) (c : Cursor) : Outcome Tree c.size :=
  match (token .integer c).backTo c |>.orElse fun _ => (token .decimal c).backTo c with
  | .fail e s => .fail e s
  | .ok t c' h =>
    match value t.lexeme with
    | some n => .ok (.number n.toDouble t.span) c' h
    | none => .fail (.fatalAtSpan t.span (.invalidNumber t.lexeme)) c'

/-- A number. The value of a numeral is the nearest double, unless it rounds beyond the finite
ones. -/
def number (c : Cursor) : Outcome Tree c.size :=
  numberBy (fun numeral => Number.ofDecimal? (Decimal.read numeral)) c

/-- A symbol: a run of letters. -/
def symbol (c : Cursor) : Outcome Tree c.size :=
  (token .name c).backTo c |>.map fun t => .symbol t.lexeme t.span

/-- A number or a symbol. -/
def literal (c : Cursor) : Outcome Tree c.size :=
  (number c).backTo c |>.orElse fun _ => symbol c

end SumProduct.Grammar
