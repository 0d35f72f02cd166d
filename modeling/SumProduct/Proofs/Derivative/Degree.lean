/-
The degree of an expression in a symbol, and how often its derivative can be taken before nothing is
left. Derivatives are never simplified in between, so most of what a repeated derivative consists of
is zero only by its value; simplification finds all of it.
-/
import SumProduct.Proofs.Derivative.Simplified
import SumProduct.Proofs.Simplify.Value
import Mathlib.Logic.Function.Iterate

namespace SumProduct.Expr

/-- The degree in a symbol, read off the tree: terms are not expected to cancel. -/
def degree (x : Symbol) : Expr → Nat
  | number _ => 0
  | symbol y => if y = x then 1 else 0
  | sum l r => max (l.degree x) (r.degree x)
  | product l r => l.degree x + r.degree x

theorem degree_eq_zero_of_notMem {x : Symbol} {e : Expr} (h : x ∉ e.symbolLeaves) :
    e.degree x = 0 := by
  induction e with
  | number n => rfl
  | symbol y =>
    have hne : y ≠ x := fun hy => h (hy ▸ List.mem_singleton_self y)
    rw [degree, if_neg hne]
  | sum l r ihl ihr =>
    simp only [symbolLeaves, List.mem_append, not_or] at h
    rw [degree, ihl h.1, ihr h.2, Nat.max_self]
  | product l r ihl ihr =>
    simp only [symbolLeaves, List.mem_append, not_or] at h
    rw [degree, ihl h.1, ihr h.2]

/-! ## Repeated derivatives -/

@[simp] theorem iterate_derivative_zero (x : Symbol) (n : Nat) :
    (derivative x)^[n] zero = zero :=
  Function.iterate_fixed (derivative_zero x) n

theorem iterate_derivative_number (x : Symbol) (m : Number) (n : Nat) :
    (derivative x)^[n + 1] (number m) = zero := by
  rw [Function.iterate_succ_apply, derivative_number, iterate_derivative_zero]

theorem iterate_derivative_sum (x : Symbol) (l r : Expr) (n : Nat) :
    (derivative x)^[n] (sum l r) = sum ((derivative x)^[n] l) ((derivative x)^[n] r) := by
  induction n generalizing l r with
  | zero => rfl
  | succ n ih =>
    rw [Function.iterate_succ_apply, derivative_sum, ih]
    rfl

/-- A symbol is gone after one derivative, or after two if it is the variable. -/
theorem iterate_derivative_symbol {x y : Symbol} {n : Nat} (h : (symbol y).degree x < n) :
    (derivative x)^[n] (symbol y) = zero := by
  obtain ⟨n, rfl⟩ := Nat.exists_eq_succ_of_ne_zero (Nat.ne_of_gt (Nat.zero_lt_of_lt h))
  rw [Function.iterate_succ_apply]
  by_cases hy : y = x
  · rw [degree, if_pos hy] at h
    obtain ⟨n, rfl⟩ := Nat.exists_eq_succ_of_ne_zero (Nat.ne_of_gt (Nat.lt_of_succ_lt_succ h))
    rw [hy, show (symbol x).derivative x = number .one by simp [derivative, leafDerivative]]
    exact iterate_derivative_number x .one n
  · rw [derivative_symbol_of_ne hy, iterate_derivative_zero]

/-- The `n`-fold derivative of a product is made of products of an `i`-fold and a `j`-fold
derivative of the factors with `i + j = n`. If one of the two always simplifies to zero, so does
the whole. -/
theorem simplify_iterate_derivative_product {b : Bindings} {x : Symbol} {n : Nat} {l r : Expr}
    (h : ∀ i j, i + j = n → simplify b ((derivative x)^[i] l) = zero ∨
      simplify b ((derivative x)^[j] r) = zero) :
    simplify b ((derivative x)^[n] (product l r)) = zero := by
  induction n generalizing l r with
  | zero =>
    rw [Function.iterate_zero_apply, simplify_product]
    rcases h 0 0 rfl with hl | hr
    · rw [show simplify b l = zero from hl, zero_times]
    · rw [show simplify b r = zero from hr, times_zero]
  | succ n ih =>
    -- both terms of the product rule meet the condition for one derivative less
    have hright : simplify b ((derivative x)^[n] (product l (r.derivative x))) = zero :=
      ih fun i j hij => h i (j + 1) (by omega)
    have hleft : simplify b ((derivative x)^[n] (product r (l.derivative x))) = zero :=
      ih fun i j hij => (h (j + 1) i (by omega)).symm
    rw [Function.iterate_succ_apply, derivative_product, iterate_derivative_sum, simplify_sum,
      hright, hleft, zero_plus]

theorem simplify_iterate_derivative {b : Bindings} {x : Symbol} {e : Expr} {n : Nat}
    (h : e.degree x < n) : simplify b ((derivative x)^[n] e) = zero := by
  induction e generalizing n with
  | number m =>
    obtain ⟨n, rfl⟩ := Nat.exists_eq_succ_of_ne_zero (Nat.ne_of_gt h)
    rw [iterate_derivative_number, simplify_zero]
  | symbol y => rw [iterate_derivative_symbol h, simplify_zero]
  | sum l r ihl ihr =>
    rw [degree, Nat.max_lt] at h
    rw [iterate_derivative_sum, simplify_sum, ihl h.1, ihr h.2, zero_plus]
  | product l r ihl ihr =>
    rw [degree] at h
    refine simplify_iterate_derivative_product fun i j hij => ?_
    -- of `i + j` derivatives one factor takes more than its degree
    by_cases hi : l.degree x < i
    · exact .inl (ihl hi)
    · exact .inr (ihr (by omega))

/-- A derivative taken more often than the degree says simplifies to the number zero, whatever is
bound. In particular one derivative by a symbol that does not occur does. -/
theorem repeated_derivative_vanishes (b : Bindings) (x : Symbol) (e : Expr) :
    (∀ n, e.degree x < n → simplify b ((derivative x)^[n] e) = number .zero) ∧
      (x ∉ e.symbolLeaves → simplify b (e.derivative x) = number .zero) := by
  constructor
  · intro n hn
    exact simplify_iterate_derivative hn
  · intro hx
    have hdegree : e.degree x < 1 := by
      rw [degree_eq_zero_of_notMem hx]
      exact Nat.zero_lt_one
    exact simplify_iterate_derivative hdegree

/-- `(x + y) * x` has degree two in `x`, and `z` does not occur in it. -/
theorem repeated_derivative_vanishes_square :
    simplify .empty ((derivative ⟨"x", by decide⟩)^[3]
        (product (sum (symbol ⟨"x", by decide⟩) (symbol ⟨"y", by decide⟩))
          (symbol ⟨"x", by decide⟩))) = number .zero ∧
      simplify .empty ((product (sum (symbol ⟨"x", by decide⟩) (symbol ⟨"y", by decide⟩))
        (symbol ⟨"x", by decide⟩)).derivative ⟨"z", by decide⟩) = number .zero :=
  ⟨(repeated_derivative_vanishes _ _ _).1 3 (by decide),
    (repeated_derivative_vanishes _ _ _).2 (by decide)⟩

end SumProduct.Expr
