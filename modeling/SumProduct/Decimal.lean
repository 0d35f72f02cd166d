/-
Decimal numerals: digits with at most one point. Reading one keeps its exact value, writing one
takes a fixed number of places.
-/

namespace SumProduct

/-- The decimal `digits / 10 ^ places`. -/
structure Decimal where
  digits : Nat
  places : Nat
deriving DecidableEq, Repr

namespace Decimal

/-- The number that a run of digits names. -/
def digitsValue (cs : List Char) : Nat :=
  cs.foldl (fun n c => 10 * n + (c.toNat - '0'.toNat)) 0

/-- The exact value of a numeral: digits, or digits around a point. -/
def read (numeral : String) : Decimal :=
  let cs := numeral.toList
  let whole := cs.takeWhile Char.isDigit
  let fraction := (cs.dropWhile Char.isDigit).drop 1
  ⟨digitsValue (whole ++ fraction), fraction.length⟩

/-- The numeral with its point and every place, and at least one digit before the point. -/
def text (d : Decimal) : String :=
  let fraction := toString (d.digits % Nat.pow 10 d.places)
  toString (d.digits / Nat.pow 10 d.places) ++ "."
    ++ String.ofList (List.replicate (d.places - fraction.length) '0') ++ fraction

end Decimal

end SumProduct
