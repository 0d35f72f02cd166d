/-
How large derivatives become. The product rule copies both factors next to their derivatives, and
yet a derivative has at most as many nodes as the square of the nodes before: the square of a sum
has room for the copies in its cross terms. The levels at most double, as each product adds one to
those of its own.
-/
import SumProduct.Expr.PostOrder
import SumProduct.Proofs.Derivative.Simplified
import SumProduct.Proofs.Simplify.Steps
import Mathlib.Tactic.Ring

namespace SumProduct.Expr

/-! ## One derivative -/

section

variable (x : Symbol) (l r : Expr)

theorem size_derivative_product : ((product l r).derivative x).size =
    l.size + r.size + ((l.derivative x).size + (r.derivative x).size) + 3 := by
  rw [derivative_product, size, size, size]
  omega

theorem height_derivative_product : ((product l r).derivative x).height =
    max (max l.height (r.derivative x).height) (max r.height (l.derivative x).height) + 2 := by
  rw [derivative_product, height, height, height]
  omega

end

theorem size_derivative_le (x : Symbol) (f : Expr) : (f.derivative x).size ≤ f.size ^ 2 := by
  induction f with
  | number n => exact Nat.le_refl 1
  | symbol y => exact Nat.le_refl 1
  | sum l r ihl ihr =>
    calc ((sum l r).derivative x).size
        = (l.derivative x).size + (r.derivative x).size + 1 := rfl
      _ ≤ l.size ^ 2 + r.size ^ 2 + 1 := by omega
      _ ≤ l.size ^ 2 + r.size ^ 2 + 1 + 2 * (l.size * r.size + l.size + r.size) :=
        Nat.le_add_right _ _
      _ = (sum l r).size ^ 2 := by
        rw [size]
        ring
  | product l r ihl ihr =>
    have hl : 0 < l.size := size_pos l
    have hr : 0 < r.size := size_pos r
    calc ((product l r).derivative x).size
        = l.size + r.size + ((l.derivative x).size + (r.derivative x).size) + 3 :=
        size_derivative_product x l r
      _ ≤ l.size ^ 2 + r.size ^ 2 + 1 + (l.size + r.size + 2) := by omega
      -- two factors of at least one node make up for the two operators added
      _ ≤ l.size ^ 2 + r.size ^ 2 + 1 + 2 * (l.size + r.size) := by omega
      _ ≤ l.size ^ 2 + r.size ^ 2 + 1 + 2 * (l.size * r.size + l.size + r.size) := by omega
      _ = (product l r).size ^ 2 := by
        rw [size]
        ring

theorem height_derivative_le (x : Symbol) (f : Expr) :
    (f.derivative x).height ≤ 2 * f.height := by
  induction f with
  | number n => exact Nat.le_succ 1
  | symbol y => exact Nat.le_succ 1
  | sum l r ihl ihr =>
    rw [derivative_sum, height, height]
    omega
  | product l r ihl ihr =>
    rw [height_derivative_product, height]
    omega

/-! ## Derivatives in a row -/

/-- The derivative by each symbol of a list, one after the other. -/
def derivatives (f : Expr) (xs : List Symbol) : Expr := xs.foldl (fun g x => g.derivative x) f

theorem size_derivatives_le (f : Expr) (xs : List Symbol) :
    (f.derivatives xs).size ≤ f.size ^ 2 ^ xs.length := by
  induction xs generalizing f with
  | nil => exact Nat.le_of_eq (pow_one _).symm
  | cons x xs ih =>
    calc (f.derivatives (x :: xs)).size
        ≤ (f.derivative x).size ^ 2 ^ xs.length := ih (f.derivative x)
      _ ≤ (f.size ^ 2) ^ 2 ^ xs.length := Nat.pow_le_pow_left (size_derivative_le x f) _
      _ = f.size ^ 2 ^ (x :: xs).length := by
        rw [← pow_mul, List.length_cons, pow_succ']

theorem height_derivatives_le (f : Expr) (xs : List Symbol) :
    (f.derivatives xs).height ≤ 2 ^ xs.length * f.height := by
  induction xs generalizing f with
  | nil => exact Nat.le_of_eq (one_mul _).symm
  | cons x xs ih =>
    calc (f.derivatives (x :: xs)).height
        ≤ 2 ^ xs.length * (f.derivative x).height := ih (f.derivative x)
      _ ≤ 2 ^ xs.length * (2 * f.height) := Nat.mul_le_mul_left _ (height_derivative_le x f)
      _ = 2 ^ (x :: xs).length * f.height := by
        rw [← mul_assoc, List.length_cons, pow_succ]

/-- A derivative has at most as many nodes as the square of the nodes before, and at most twice the
levels. So the nodes of a fixed number of derivatives in a row are bounded by a fixed power, and the
levels by a fixed multiple. -/
theorem derivative_growth (f : Expr) (x : Symbol) :
    (f.derivative x).size ≤ f.size ^ 2 ∧ (f.derivative x).height ≤ 2 * f.height ∧
      ∀ xs : List Symbol, (f.derivatives xs).size ≤ f.size ^ 2 ^ xs.length ∧
        (f.derivatives xs).height ≤ 2 ^ xs.length * f.height :=
  ⟨size_derivative_le x f, height_derivative_le x f, fun xs =>
    ⟨size_derivatives_le f xs, height_derivatives_le f xs⟩⟩

end SumProduct.Expr
