/-
The value of an expression under an assignment of numbers to all symbols. Simplification keeps it
to the bit when the assignment agrees with the bindings, and with every symbol bound it leaves the
value alone as the one leaf.
-/
import SumProduct.Bindings.Lemmas
import SumProduct.Proofs.Simplify.BottomUp

namespace SumProduct

/-- An assignment that gives every bound symbol its value. -/
def Bindings.Agrees (b : Bindings) (ρ : Symbol → Number) : Prop :=
  ∀ x v, b.get? x = some v → ρ x = v

namespace Expr

/-- The value under an assignment, in the rounded arithmetic of numbers. -/
def eval (ρ : Symbol → Number) : Expr → Number
  | number n => n
  | symbol x => ρ x
  | sum l r => l.eval ρ + r.eval ρ
  | product l r => l.eval ρ * r.eval ρ

/-- The symbols at the leaves from left to right, each as often as it stands there. -/
def symbolLeaves : Expr → List Symbol
  | number _ => []
  | symbol x => [x]
  | sum l r => l.symbolLeaves ++ r.symbolLeaves
  | product l r => l.symbolLeaves ++ r.symbolLeaves

/-! ## Values of combined operands -/

@[simp] theorem eval_zero (ρ : Symbol → Number) : zero.eval ρ = Number.zero := rfl

@[simp] theorem eval_number (ρ : Symbol → Number) (n : Number) : (number n).eval ρ = n := rfl

@[simp] theorem eval_plus (ρ : Symbol → Number) (l r : Expr) :
    (plus l r).eval ρ = l.eval ρ + r.eval ρ := by
  rcases plus_cases l r with ⟨m, n, rfl, rfl⟩ | rfl | rfl | h
  · rfl
  · rw [zero_plus, eval_zero, Number.zero_add]
  · rw [plus_zero, eval_zero, Number.add_zero]
  · rw [h, eval]

@[simp] theorem eval_times (ρ : Symbol → Number) (l r : Expr) :
    (times l r).eval ρ = l.eval ρ * r.eval ρ := by
  rcases times_cases l r with ⟨m, n, rfl, rfl⟩ | rfl | rfl | rfl | rfl | h
  · rw [number_times_number, eval_number, eval_number, eval_number]
  · rw [zero_times, eval_zero, Number.zero_mul]
  · rw [times_zero, eval_zero, Number.mul_zero]
  · rw [one_times, eval_number, Number.one_mul]
  · rw [times_one, eval_number, Number.mul_one]
  · rw [h, eval]

/-! ## Simplified expressions -/

theorem eval_simplify {b : Bindings} {ρ : Symbol → Number} (hρ : b.Agrees ρ) (e : Expr) :
    (simplify b e).eval ρ = e.eval ρ := by
  induction e with
  | number n => rfl
  | symbol x =>
    rw [simplify_symbol]
    rcases hx : b.get? x with _ | v
    · rfl
    · exact (hρ x v hx).symm
  | sum l r ihl ihr => rw [simplify_sum, eval_plus, ihl, ihr, eval]
  | product l r ihl ihr => rw [simplify_product, eval_times, ihl, ihr, eval]

/-- A simplified expression without unbound symbols is a number. -/
theorem exists_simplify_eq_number {b : Bindings} {e : Expr}
    (h : ∀ x ∈ e.symbolLeaves, (b.get? x).isSome) : ∃ n, simplify b e = number n := by
  induction e with
  | number n => exact ⟨n, rfl⟩
  | symbol x =>
    obtain ⟨v, hv⟩ := Option.isSome_iff_exists.1 (h x (List.mem_singleton_self x))
    refine ⟨v, ?_⟩
    rw [simplify_symbol, hv]
    rfl
  | sum l r ihl ihr =>
    obtain ⟨m, hm⟩ := ihl fun x hx => h x (List.mem_append_left _ hx)
    obtain ⟨n, hn⟩ := ihr fun x hx => h x (List.mem_append_right _ hx)
    refine ⟨m + n, ?_⟩
    rw [simplify_sum, hm, hn, number_plus_number]
  | product l r ihl ihr =>
    obtain ⟨m, hm⟩ := ihl fun x hx => h x (List.mem_append_left _ hx)
    obtain ⟨n, hn⟩ := ihr fun x hx => h x (List.mem_append_right _ hx)
    refine ⟨m * n, ?_⟩
    rw [simplify_product, hm, hn, number_times_number]

/-- Simplification keeps the value under every assignment that agrees with the bindings, and
leaves only the value if the bindings reach every symbol. -/
theorem simplify_preserves_value (e : Expr) (b : Bindings) (ρ : Symbol → Number)
    (hρ : b.Agrees ρ) :
    (simplify b e).eval ρ = e.eval ρ ∧
      ((∀ x ∈ e.symbolLeaves, (b.get? x).isSome) → simplify b e = number (e.eval ρ)) := by
  have hvalue : (simplify b e).eval ρ = e.eval ρ := eval_simplify hρ e
  refine ⟨hvalue, fun hbound => ?_⟩
  -- a number is its own value, so the one that is left is the value of the expression
  obtain ⟨n, hn⟩ := exists_simplify_eq_number hbound
  rw [hn, ← hvalue, hn, eval_number]

/-- With `x` bound to the largest number, `x + x * 1` stops at the largest number. -/
theorem simplify_preserves_value_max :
    simplify (Bindings.empty.bind ⟨"x", by decide⟩ .max)
        (sum (symbol ⟨"x", by decide⟩) (product (symbol ⟨"x", by decide⟩) (number .one))) =
      number .max := by
  have hagree : (Bindings.empty.bind ⟨"x", by decide⟩ .max).Agrees fun _ => .max := by
    intro y v hv
    rw [Bindings.get?_bind] at hv
    split at hv
    · exact Option.some.inj hv
    · cases hv
  have hmax : Number.max + Number.max * Number.one = Number.max := by
    rw [Number.mul_one]
    decide +kernel
  refine ((simplify_preserves_value _ _ (fun _ => .max) hagree).2 ?_).trans (congrArg number hmax)
  decide

end Expr

end SumProduct
