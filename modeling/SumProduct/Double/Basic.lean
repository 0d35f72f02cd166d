/-
Double-precision values of every class, held as their 64 bits. The bits below the sign are the
rank of a value: ranks order the values of one sign by size, infinity has the rank
`infinityRank`, and higher ranks are not numbers.
-/

namespace SumProduct

/-- A double-precision value: finite, infinite or not a number. -/
structure Double where
  bits : UInt64
deriving DecidableEq, Repr

namespace Double

/-! ## Classes -/

/-- The number of ranks in a binade, `2 ^ 52`. The values of a binade have the same exponent. -/
def binade : Nat := 1 <<< 52

/-- The sign bit, `2 ^ 63`. Ranks are below it. -/
def signBit : Nat := 1 <<< 63

/-- The rank of infinity, one above that of the largest finite value. -/
def infinityRank : Nat := 2047 * binade

/-- The bits below the sign. -/
def rank (x : Double) : Nat := x.bits.toNat % signBit

/-- The sign bit; set also for negative zero and for some values that are not numbers. -/
def isNegative (x : Double) : Bool := signBit ≤ x.bits.toNat

def isFinite (x : Double) : Bool := x.rank < infinityRank

/-- Whether the value is not a number. -/
def isUnordered (x : Double) : Bool := infinityRank < x.rank

/-- The value of a sign and a rank. -/
def ofRank (negative : Bool) (rank : Nat) : Double :=
  ⟨UInt64.ofNat ((if negative then signBit else 0) + rank)⟩

theorem rank_ofRank (negative : Bool) {rank : Nat} (h : rank < signBit) :
    (ofRank negative rank).rank = rank := by
  simp only [signBit] at h
  cases negative <;> simp [ofRank, Double.rank, signBit] <;> omega

theorem isNegative_ofRank (negative : Bool) {rank : Nat} (h : rank < signBit) :
    (ofRank negative rank).isNegative = negative := by
  simp only [signBit] at h
  cases negative <;> simp [ofRank, isNegative, signBit] <;> omega

/-! ## Sizes in quanta -/

/-- How many quanta make one: the quantum is the least positive value, `2 ^ -1074`. -/
@[irreducible] def quantaPerUnit : Nat := 1 <<< 1074

/-- The size of the finite value of a rank, counted in quanta. Every finite value is a whole
number of them: in the first binade the rank itself, above it a significand of 53 bits shifted by
the exponent. -/
def quanta (rank : Nat) : Nat :=
  if rank < binade then rank else (binade + rank % binade) <<< (rank / binade - 1)

end Double

end SumProduct
