/-
Numbers of expressions: finite, non-negative doubles. They are identified with their ranks, so
equal numbers have equal bits, the order of ranks is the order of values, and there is one zero.
Sums and products are rounded to nearest and stop at the largest number.
-/
import SumProduct.Double.Rounding
import SumProduct.Double.Shortest
import SumProduct.Decimal

namespace SumProduct

/-- A finite, non-negative double. -/
@[ext] structure Number where
  rank : Nat
  rank_lt : rank < Double.infinityRank
deriving DecidableEq, Repr

namespace Number

def zero : Number := ⟨0, by decide⟩

def one : Number := ⟨1023 * Double.binade, by decide⟩

/-- The largest number. -/
def max : Number := ⟨Double.infinityRank - 1, by decide⟩

def isZero (n : Number) : Bool := n == zero

def isOne (n : Number) : Bool := n == one

@[simp] theorem isZero_iff {n : Number} : n.isZero = true ↔ n = zero := beq_iff_eq

@[simp] theorem isOne_iff {n : Number} : n.isOne = true ↔ n = one := beq_iff_eq

/-- The size in quanta, exact. -/
def quanta (n : Number) : Nat := Double.quanta n.rank

def toDouble (n : Number) : Double := .ofRank false n.rank

/-! ## Numbers from doubles -/

/-- A double that is no number of expressions: negative, infinite or not a number. -/
structure Invalid where
  value : Double
deriving DecidableEq, Repr

def Invalid.message (e : Invalid) : String :=
  "numbers must be finite and non-negative, got `" ++ e.value.text ++ "`"

/-- The number that a double stands for; negative zero stands for zero. -/
def ofDouble (x : Double) : Except Invalid Number :=
  if h : x.rank < Double.infinityRank then
    if x.isNegative && x.rank ≠ 0 then .error ⟨x⟩ else .ok ⟨x.rank, h⟩
  else .error ⟨x⟩

theorem rank_lt_sign (n : Number) : n.rank < Double.signBit :=
  Nat.lt_trans n.rank_lt (by decide)

@[simp] theorem rank_toDouble (n : Number) : n.toDouble.rank = n.rank :=
  Double.rank_ofRank false n.rank_lt_sign

@[simp] theorem isNegative_toDouble (n : Number) : n.toDouble.isNegative = false :=
  Double.isNegative_ofRank false n.rank_lt_sign

@[simp] theorem ofDouble_toDouble (n : Number) : ofDouble n.toDouble = .ok n := by
  simp [ofDouble, n.rank_lt]

/-! ## Arithmetic -/

/-- The number of a rank, or the largest number if the rank is too high. -/
def saturate (rank : Nat) : Number :=
  if h : rank < Double.infinityRank then ⟨rank, h⟩ else max

/-- The sum rounded to nearest, at most the largest number. -/
def add (a b : Number) : Number := saturate (Double.nearestRank (a.quanta + b.quanta) 1)

/-- The product rounded to nearest, at most the largest number. -/
def mul (a b : Number) : Number :=
  saturate (Double.nearestRank (a.quanta * b.quanta) Double.quantaPerUnit)

instance : Add Number := ⟨add⟩

instance : Mul Number := ⟨mul⟩

theorem add_comm (a b : Number) : a + b = b + a := by
  show a.add b = b.add a
  rw [add, add, Nat.add_comm]

theorem mul_comm (a b : Number) : a * b = b * a := by
  show a.mul b = b.mul a
  rw [mul, mul, Nat.mul_comm]

/-! ## Decimals -/

/-- The number nearest to a decimal, or none if the decimal is too large. -/
def ofDecimal? (d : Decimal) : Option Number :=
  let rank := Double.nearestRank (d.digits * Double.quantaPerUnit) (Nat.pow 10 d.places)
  if h : rank < Double.infinityRank then some ⟨rank, h⟩ else none

/-- The decimal of the given places nearest to a number, a tie going to the even last digit. -/
def toDecimal (places : Nat) (n : Number) : Decimal :=
  ⟨divRound (n.quanta * Nat.pow 10 places) Double.quantaPerUnit, places⟩

/-- Numbers are written with six places. -/
def text (n : Number) : String := (n.toDecimal 6).text

end Number

end SumProduct
