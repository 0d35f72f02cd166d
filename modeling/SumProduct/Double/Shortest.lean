/-
The shortest text of a double: the fewest significant digits that read back to the same value,
the nearest such decimal, and the upper one of two equally near. The digits are always written
positionally.
-/
import SumProduct.Double.Basic

namespace SumProduct

/-- The decimal `digits * 10 ^ exponent`. -/
structure Scientific where
  digits : Nat
  exponent : Int
deriving DecidableEq, Repr

namespace Scientific

/-- Positional digits, without an exponent and without trailing zeros behind the point. -/
def text (d : Scientific) : String :=
  let digits := (toString d.digits).toList
  if 0 ≤ d.exponent then
    String.ofList (digits ++ List.replicate d.exponent.toNat '0')
  else
    let places := (-d.exponent).toNat
    let padded := List.replicate (places + 1 - digits.length) '0' ++ digits
    let whole := padded.take (padded.length - places)
    let fraction := ((padded.drop (padded.length - places)).reverse.dropWhile (· == '0')).reverse
    String.ofList (if fraction.isEmpty then whole else whole ++ '.' :: fraction)

end Scientific

namespace Double

/-! ## The decimals that read back -/

/-- Whether the decimal `digits * 10 ^ exponent` rounds to the value of a rank. It does when it
lies between the midpoints to the neighbouring values, the midpoints included for an even rank.
Sizes are counted in half quanta. -/
def readsBack (rank : Nat) (d : Scientific) : Bool :=
  let scale := 2 * quantaPerUnit
  let size := d.digits * scale * Nat.pow 10 d.exponent.toNat
  let unit := Nat.pow 10 (-d.exponent).toNat
  let low := (quanta (rank - 1) + quanta rank) * unit
  let high := (quanta rank + quanta (rank + 1)) * unit
  if rank % 2 = 0 then low ≤ size && size ≤ high else low < size && size < high

/-- The decimal of the given exponent nearest to the value of a rank among those that read
back: one of the two that enclose the value. -/
def nearestAt? (rank : Nat) (exponent : Int) : Option Scientific :=
  let num := quanta rank * Nat.pow 10 (-exponent).toNat
  let den := quantaPerUnit * Nat.pow 10 exponent.toNat
  let below : Scientific := ⟨num / den, exponent⟩
  let above : Scientific := ⟨num / den + 1, exponent⟩
  match readsBack rank below, readsBack rank above with
  | true, true => some (if 2 * (num % den) < den then below else above)
  | true, false => some below
  | false, true => some above
  | false, false => none

/-- The exponent of the leading decimal digit of the value of a positive rank. The value is
first scaled by `10 ^ 345`, which makes the least of them greater than one. -/
def leadingExponent (rank : Nat) : Int :=
  let scaled := quanta rank * Nat.pow 10 345 / quantaPerUnit
  (toString scaled).length - 346

/-- The decimal that is exactly the value of a rank: a quantum is `5 ^ 1074 * 10 ^ -1074`. -/
def exact (rank : Nat) : Scientific := ⟨quanta rank * Nat.pow 5 1074, -1074⟩

/-- The first decimal that reads back among those of `exponent`, `exponent - 1` and so on, or the
exact one if none of them does. -/
def firstReadingBack (rank : Nat) (exponent : Int) : Nat → Scientific
  | 0 => exact rank
  | more + 1 =>
    match nearestAt? rank exponent with
    | some d => d
    | none => firstReadingBack rank (exponent - 1) more

/-- The shortest decimal of the value of a rank. Seventeen digits always read back, so the
search through one to seventeen digits finds it. -/
def shortest (rank : Nat) : Scientific :=
  if rank = 0 then ⟨0, 0⟩ else firstReadingBack rank (leadingExponent rank) 17

/-! ## Text -/

/-- The shortest text, with a sign also for negative zero. -/
def text (x : Double) : String :=
  if x.isUnordered then "NaN"
  else (if x.isNegative then "-" else "") ++ (if x.isFinite then (shortest x.rank).text else "inf")

end Double

end SumProduct
