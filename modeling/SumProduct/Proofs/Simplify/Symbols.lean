/-
Where the symbols of a result come from. Simplification takes leaves away and changes none but the
bound ones, so the unbound symbols keep their order and nothing joins them; what it does hangs on
the bindings of the symbols that occur, and on no others. Derivatives bring in no symbols either.
-/
import SumProduct.Derivative
import SumProduct.Proofs.Expr.PostOrder

namespace SumProduct.Expr

/-! ## Leaves of combined operands -/

theorem symbolLeaves_plus (l r : Expr) :
    (plus l r).symbolLeaves.Sublist (l.symbolLeaves ++ r.symbolLeaves) := by
  rcases plus_cases l r with ⟨m, n, rfl, rfl⟩ | rfl | rfl | h
  · exact List.nil_sublist _
  · rw [zero_plus]
    exact List.sublist_append_right _ _
  · rw [plus_zero]
    exact List.sublist_append_left _ _
  · rw [h, symbolLeaves]

theorem symbolLeaves_times (l r : Expr) :
    (times l r).symbolLeaves.Sublist (l.symbolLeaves ++ r.symbolLeaves) := by
  rcases times_cases l r with ⟨m, n, rfl, rfl⟩ | rfl | rfl | rfl | rfl | h
  · rw [number_times_number]
    exact List.nil_sublist _
  · rw [zero_times]
    exact List.nil_sublist _
  · rw [times_zero]
    exact List.nil_sublist _
  · rw [one_times]
    exact List.sublist_append_right _ _
  · rw [times_one]
    exact List.sublist_append_left _ _
  · rw [h, symbolLeaves]

/-! ## Leaves of a simplified expression -/

/-- The unbound symbols at the leaves, from left to right. -/
def freeLeaves (b : Bindings) (e : Expr) : List Symbol :=
  e.symbolLeaves.filter fun x => (b.get? x).isNone

theorem freeLeaves_apply (b : Bindings) (op : OperatorKind) (l r : Expr) :
    (op.apply l r).freeLeaves b = l.freeLeaves b ++ r.freeLeaves b := by
  rw [freeLeaves, symbolLeaves_apply, List.filter_append]
  rfl

theorem symbolLeaves_simplify (b : Bindings) (e : Expr) :
    (simplify b e).symbolLeaves.Sublist (e.freeLeaves b) := by
  induction e with
  | number n => exact List.nil_sublist _
  | symbol x =>
    rw [simplify_symbol, freeLeaves, symbolLeaves, List.filter_singleton]
    -- a bound symbol gives way to a number, an unbound one stays
    cases b.get? x with
    | none => exact List.Sublist.refl _
    | some v => exact List.nil_sublist _
  | sum l r ihl ihr =>
    have hfree : (sum l r).freeLeaves b = l.freeLeaves b ++ r.freeLeaves b :=
      freeLeaves_apply b .plus l r
    rw [simplify_sum, hfree]
    exact (symbolLeaves_plus _ _).trans (ihl.append ihr)
  | product l r ihl ihr =>
    have hfree : (product l r).freeLeaves b = l.freeLeaves b ++ r.freeLeaves b :=
      freeLeaves_apply b .times l r
    rw [simplify_product, hfree]
    exact (symbolLeaves_times _ _).trans (ihl.append ihr)

/-! ## Bindings that agree -/

/-- Bindings that agree on the symbols of an expression simplify it by the same rules. -/
theorem simplifyRules_congr {a b : Bindings} {e : Expr}
    (h : ∀ x ∈ e.symbolLeaves, a.get? x = b.get? x) : e.simplifyRules a = e.simplifyRules b := by
  induction e with
  | number n => rfl
  | symbol x =>
    unfold simplifyRules Rule.substitute
    rw [h x (List.mem_singleton_self x)]
  | sum l r ihl ihr =>
    have hl := ihl fun x hx => h x (List.mem_append_left _ hx)
    have hr := ihr fun x hx => h x (List.mem_append_right _ hx)
    unfold simplifyRules
    rw [hl, hr]
  | product l r ihl ihr =>
    have hl := ihl fun x hx => h x (List.mem_append_left _ hx)
    have hr := ihr fun x hx => h x (List.mem_append_right _ hx)
    unfold simplifyRules
    rw [hl, hr]

/-! ## Derivatives -/

theorem mem_symbolLeaves_of_derivative {x y : Symbol} {e : Expr}
    (h : y ∈ (e.derivative x).symbolLeaves) : y ∈ e.symbolLeaves := by
  induction e with
  | number n => cases h
  | symbol z => cases h
  | sum l r ihl ihr =>
    rcases List.mem_append.1 h with h | h
    · exact List.mem_append_left _ (ihl h)
    · exact List.mem_append_right _ (ihr h)
  | product l r ihl ihr =>
    -- each term of the product rule has one factor as it was and the derivative of the other
    rcases List.mem_append.1 h with h | h
    · rcases List.mem_append.1 h with h | h
      · exact List.mem_append_left _ h
      · exact List.mem_append_right _ (ihr h)
    · rcases List.mem_append.1 h with h | h
      · exact List.mem_append_right _ h
      · exact List.mem_append_left _ (ihl h)

/-- The symbols left by a simplification are unbound ones of the expression, in their order and no
more often than before; only the bindings of symbols that the expression contains matter, to the
result and to the steps; and a derivative contains no symbol that the expression does not. -/
theorem symbols_come_from_expression (e : Expr) (b : Bindings) :
    (simplify b e).symbolLeaves.Sublist (e.symbolLeaves.filter fun x => (b.get? x).isNone) ∧
      (∀ b', (∀ x, e.containsSymbol x = true → b.get? x = b'.get? x) →
        e.simplifyWithSteps b = e.simplifyWithSteps b') ∧
      ∀ x y, (e.derivative x).containsSymbol y = true → e.containsSymbol y = true := by
  refine ⟨symbolLeaves_simplify b e, fun b' h => ?_, fun x y hy => ?_⟩
  · have hrules : e.simplifyRules b = e.simplifyRules b' :=
      simplifyRules_congr fun x hx => h x (containsSymbol_iff.2 hx)
    unfold simplifyWithSteps simplifyWith
    rw [hrules]
  · exact containsSymbol_iff.2 (mem_symbolLeaves_of_derivative (containsSymbol_iff.1 hy))

/-- A binding of `z` does not matter to `x * y + x`, and its derivative by `x` contains `y`. -/
theorem symbols_come_from_expression_unbound :
    (sum (product (symbol ⟨"x", by decide⟩) (symbol ⟨"y", by decide⟩))
        (symbol ⟨"x", by decide⟩)).simplifyWithSteps
          ((Bindings.empty.bind ⟨"x", by decide⟩ .one).bind ⟨"z", by decide⟩ .zero) =
      (sum (product (symbol ⟨"x", by decide⟩) (symbol ⟨"y", by decide⟩))
        (symbol ⟨"x", by decide⟩)).simplifyWithSteps
          (Bindings.empty.bind ⟨"x", by decide⟩ .one) ∧
    (sum (product (symbol ⟨"x", by decide⟩) (symbol ⟨"y", by decide⟩))
      (symbol ⟨"x", by decide⟩)).containsSymbol ⟨"y", by decide⟩ = true := by
  constructor
  · refine (symbols_come_from_expression _ _).2.1 _ fun x hx => ?_
    have hne : x ≠ ⟨"z", by decide⟩ := by
      rintro rfl
      exact absurd hx (by decide)
    rw [Bindings.get?_bind, if_neg hne]
  · exact (symbols_come_from_expression _ .empty).2.2 ⟨"x", by decide⟩ _ (by decide)

end SumProduct.Expr
