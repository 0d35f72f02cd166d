/-
Rounding to the nearest double, a tie going to the even significand, in exact arithmetic. One
function serves sums, products, decimals and whole numbers.
-/
import SumProduct.Double.Basic

namespace SumProduct

/-- The quotient rounded to the nearest natural number, a tie going to the even one. -/
def divRound (num den : Nat) : Nat :=
  let floor := num / den
  let twice := 2 * (num % den)
  if twice < den then floor
  else if den < twice then floor + 1
  else floor + floor % 2

namespace Double

/-- The rank nearest to `num / den` quanta, a tie going to the even one. A binade above the
first holds its values `2 ^ s` quanta apart and starts at rank `(s + 1) * binade`, so a
significand that rounds up to `2 ^ 53` lands on the first rank of the next binade. A result from
`infinityRank` on is an overflow. -/
def nearestRank (num den : Nat) : Nat :=
  let s := (num / den).log2 - 52
  s * binade + divRound num (den <<< s)

/-- The double nearest to a whole number. -/
def ofInt (n : Int) : Double :=
  ofRank (n < 0) (min (nearestRank (n.natAbs * quantaPerUnit) 1) infinityRank)

end Double

end SumProduct
