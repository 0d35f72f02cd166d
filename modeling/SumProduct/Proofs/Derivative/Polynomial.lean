/-
Expressions as polynomials in their symbols, with the exact values of the numbers as rational
coefficients. The derivative of an expression, taken rule by rule on the tree, stands for the
formal partial derivative of its polynomial.
-/
import SumProduct.Derivative
import SumProduct.Proofs.Number.Value
import Mathlib.Algebra.MvPolynomial.PDeriv

namespace SumProduct

open MvPolynomial

namespace Expr

/-- The polynomial of an expression. -/
noncomputable def polynomial : Expr → MvPolynomial Symbol ℚ
  | number n => C n.value
  | symbol x => X x
  | sum l r => l.polynomial + r.polynomial
  | product l r => l.polynomial * r.polynomial

theorem polynomial_leafDerivative_symbol (x y : Symbol) :
    (number (leafDerivative x (symbol y))).polynomial = pderiv x (X y : MvPolynomial Symbol ℚ) := by
  unfold leafDerivative
  by_cases h : y = x
  · subst h
    rw [if_pos rfl, polynomial, Number.value_one, C_1, pderiv_X_self]
  · rw [if_neg (by simpa using h), polynomial, Number.value_zero, C_0, pderiv_X_of_ne h]

/-- The rules of differentiation follow the Leibniz rule of polynomials. -/
theorem polynomial_derivative (x : Symbol) (f : Expr) :
    (f.derivative x).polynomial = pderiv x f.polynomial := by
  induction f with
  | number n =>
    show (number Number.zero).polynomial = pderiv x (C n.value)
    rw [polynomial, Number.value_zero, C_0, pderiv_C]
  | symbol y => exact polynomial_leafDerivative_symbol x y
  | sum l r ihl ihr =>
    show (l.derivative x).polynomial + (r.derivative x).polynomial = _
    rw [ihl, ihr, polynomial, map_add]
  | product l r ihl ihr =>
    -- The right factor is derived first, and its partner keeps the left place.
    show l.polynomial * (r.derivative x).polynomial + r.polynomial * (l.derivative x).polynomial = _
    rw [ihl, ihr, polynomial, pderiv_mul, add_comm, mul_comm r.polynomial]

/-- The coefficient of a monomial in the derivative by `x` is that of the next higher one in `x`
times its exponent. -/
theorem coeff_polynomial_derivative (f : Expr) (x : Symbol) (m : Symbol →₀ ℕ) :
    (f.derivative x).polynomial.coeff m =
      (m x + 1) * f.polynomial.coeff (m + Finsupp.single x 1) := by
  rw [polynomial_derivative, coeff_pderiv, mul_comm]

end Expr

end SumProduct
