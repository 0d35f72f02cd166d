/-
Derivatives of simplified expressions. Simplifying before a derivative is taken changes nothing
that simplifying after it would not change as well: the derivatives of what was dropped or folded
simplify to zero.
-/
import SumProduct.Derivative
import SumProduct.Proofs.Simplify.Stages

namespace SumProduct.Expr

/-! ## Derivatives by the rules -/

@[simp] theorem derivative_number (x : Symbol) (n : Number) :
    (number n).derivative x = zero := by
  simp [derivative, leafDerivative, zero]

@[simp] theorem derivative_zero (x : Symbol) : zero.derivative x = zero := derivative_number x _

theorem derivative_symbol_of_ne {x y : Symbol} (h : y ≠ x) : (symbol y).derivative x = zero := by
  simp [derivative, leafDerivative, zero, h]

theorem derivative_sum (x : Symbol) (l r : Expr) :
    (sum l r).derivative x = sum (l.derivative x) (r.derivative x) := rfl

theorem derivative_product (x : Symbol) (l r : Expr) :
    (product l r).derivative x =
      sum (product l (r.derivative x)) (product r (l.derivative x)) := rfl

/-- The simplified derivative of a product, from the simplified factors and their derivatives. -/
theorem simplify_derivative_product (b : Bindings) (x : Symbol) (l r : Expr) :
    simplify b ((product l r).derivative x) =
      plus (times (simplify b l) (simplify b (r.derivative x)))
        (times (simplify b r) (simplify b (l.derivative x))) := by
  rw [derivative_product, simplify_sum, simplify_product, simplify_product]

/-! ## Derivatives of what was combined -/

/-- Terms may be combined before or after the derivative is taken. -/
theorem simplify_derivative_plus (b : Bindings) (x : Symbol) (l r : Expr) :
    simplify b ((plus l r).derivative x) =
      plus (simplify b (l.derivative x)) (simplify b (r.derivative x)) := by
  rcases plus_cases l r with ⟨m, n, rfl, rfl⟩ | rfl | rfl | h
  · simp only [number_plus_number, derivative_number, simplify_zero, plus_zero]
  · rw [zero_plus, derivative_zero, simplify_zero, zero_plus]
  · rw [plus_zero, derivative_zero, simplify_zero, plus_zero]
  · rw [h, derivative_sum, simplify_sum]

/-- Factors may be combined before or after the derivative is taken. Where they were folded or one
was dropped, the product rule leaves terms with a factor zero. -/
theorem simplify_derivative_times (b : Bindings) (x : Symbol) (l r : Expr) :
    simplify b ((times l r).derivative x) = simplify b ((product l r).derivative x) := by
  rw [simplify_derivative_product]
  rcases times_cases l r with ⟨m, n, rfl, rfl⟩ | rfl | rfl | rfl | rfl | h
  · simp only [number_times_number, derivative_number, simplify_zero, times_zero, plus_zero]
  · simp only [zero_times, derivative_zero, simplify_zero, times_zero, plus_zero]
  · simp only [times_zero, derivative_zero, simplify_zero, zero_times, plus_zero]
  · simp only [one_times, derivative_number, simplify_number, simplify_zero, times_zero, plus_zero]
  · simp only [times_one, derivative_number, simplify_number, simplify_zero, times_zero, one_times,
      zero_plus]
  · rw [h, simplify_derivative_product]

/-! ## Derivatives of simplified expressions -/

/-- The derivative of a simplified expression, simplified further, is that of the expression as it
was. The variable must be left unbound by the first simplification. -/
theorem simplify_derivative_simplify {a : Bindings} {x : Symbol} (hx : a.get? x = none)
    (b : Bindings) (e : Expr) :
    simplify b ((simplify a e).derivative x) = simplify (a.union b) (e.derivative x) := by
  induction e with
  | number n => rw [simplify_number, derivative_number, simplify_zero, simplify_zero]
  | symbol y =>
    rw [simplify_symbol]
    rcases hy : a.get? y with _ | v
    · exact simplify_number b _
    · -- a bound symbol is another one than the variable, so it is constant either way
      have hne : y ≠ x := by
        rintro rfl
        rw [hx] at hy
        cases hy
      show simplify b ((number v).derivative x) = _
      rw [derivative_number, derivative_symbol_of_ne hne, simplify_zero, simplify_zero]
  | sum l r ihl ihr =>
    rw [simplify_sum, simplify_derivative_plus, ihl, ihr, derivative_sum, simplify_sum]
  | product l r ihl ihr =>
    rw [simplify_product, simplify_derivative_times, simplify_derivative_product,
      simplify_derivative_product, ihl, ihr, simplify_simplify, simplify_simplify]

/-- Simplification and differentiation commute up to a last simplification, in which the first
bindings win where both bind a symbol. In particular, under bindings that keep the first ones the
simplified derivative is the same whether or not the expression was simplified before. -/
theorem simplify_derivative_commute (e : Expr) (x : Symbol) (a b : Bindings)
    (hx : a.get? x = none) :
    simplify b ((simplify a e).derivative x) = simplify (a.union b) (e.derivative x) ∧
      (∀ y, (a.union b).get? y = (a.get? y).or (b.get? y)) ∧
      ((∀ y v, a.get? y = some v → b.get? y = some v) →
        simplify b ((simplify a e).derivative x) = simplify b (e.derivative x)) := by
  have hcommute :
      simplify b ((simplify a e).derivative x) = simplify (a.union b) (e.derivative x) :=
    simplify_derivative_simplify hx b e
  refine ⟨hcommute, Bindings.get?_union a b, ?_⟩
  intro hkeep
  rw [hcommute, Bindings.union_eq_right hkeep]

/-- With `y` first bound to zero and then to one, `(x + y) * x` loses its `y` in the first stage,
so its derivative by `x` simplifies to `x + x`. -/
theorem simplify_derivative_commute_square :
    (Bindings.empty.bind ⟨"y", by decide⟩ .zero).get? ⟨"x", by decide⟩ = none ∧
      simplify (Bindings.empty.bind ⟨"y", by decide⟩ .one)
          ((simplify (Bindings.empty.bind ⟨"y", by decide⟩ .zero)
            (product (sum (symbol ⟨"x", by decide⟩) (symbol ⟨"y", by decide⟩))
              (symbol ⟨"x", by decide⟩))).derivative ⟨"x", by decide⟩) =
        sum (symbol ⟨"x", by decide⟩) (symbol ⟨"x", by decide⟩) := by
  have hx : (Bindings.empty.bind ⟨"y", by decide⟩ .zero).get? ⟨"x", by decide⟩ = none := by decide
  refine ⟨hx, (simplify_derivative_commute _ _ _ _ hx).1.trans ?_⟩
  decide +kernel

end SumProduct.Expr
