/-
The exact values of numbers, as rational numbers.
-/
import SumProduct.Proofs.Number.Exact
import Mathlib.Algebra.Order.Field.Rat
import Mathlib.Data.Rat.Cast.Order

namespace SumProduct

/-- The exact value of a number. -/
def Number.value (n : Number) : ℚ := n.quanta / Double.quantaPerUnit

@[simp] theorem Number.value_zero : Number.zero.value = 0 := by
  rw [value, quanta_zero, Nat.cast_zero, zero_div]

@[simp] theorem Number.value_one : Number.one.value = 1 := by
  rw [value, quanta_one]
  exact div_self (Nat.cast_ne_zero.2 quantaPerUnit_pos.ne')

end SumProduct
