/-
Bindings applied in stages. Simplifying under some bindings and then under others is simplifying
once under both, the earlier bindings winning where both bind a symbol.
-/
import SumProduct.Bindings.Lemmas
import SumProduct.Proofs.Simplify.BottomUp

namespace SumProduct

namespace Bindings

/-- What either binds, with the values of the first where both do. -/
def union (a b : Bindings) : Bindings := a.entries.foldr (fun p c => c.bind p.1 p.2) b

@[simp] theorem get?_union (a b : Bindings) (x : Symbol) :
    (a.union b).get? x = (a.get? x).or (b.get? x) := by
  unfold union get?
  induction a.entries with
  | nil => rfl
  | cons p rest ih =>
    obtain ⟨y, v⟩ := p
    rw [List.foldr_cons, lookup_cons_entry]
    show ((List.foldr _ b rest).bind y v).get? x = _
    rw [get?_bind]
    by_cases hx : x = y
    · rw [if_pos hx, if_pos hx, Option.some_or]
    · rw [if_neg hx, if_neg hx]
      exact ih

/-- Bindings that keep what others bind are what both bind together. -/
theorem union_eq_right {a b : Bindings} (h : ∀ x v, a.get? x = some v → b.get? x = some v) :
    a.union b = b := by
  ext1 x
  rw [get?_union]
  rcases hx : a.get? x with _ | v
  · exact Option.none_or
  · rw [Option.some_or, h x v hx]

end Bindings

namespace Expr

theorem simplify_simplify (a b : Bindings) (e : Expr) :
    simplify b (simplify a e) = simplify (a.union b) e := by
  induction e with
  | number n => rfl
  | symbol x =>
    rw [simplify_symbol, simplify_symbol, Bindings.get?_union]
    -- the second stage sees a symbol only if the first left it
    rcases a.get? x with _ | v
    · exact simplify_symbol b x
    · rfl
  | sum l r ihl ihr => rw [simplify_sum, simplify_plus, ihl, ihr, simplify_sum]
  | product l r ihl ihr => rw [simplify_product, simplify_times, ihl, ihr, simplify_product]

/-- Bindings may be applied in stages: two simplifications give what one gives under the bindings
of both, which bind what either binds and take the value of the first where both do. -/
theorem simplify_in_stages (e : Expr) (a b : Bindings) :
    simplify b (simplify a e) = simplify (a.union b) e ∧
      ∀ x, (a.union b).get? x = (a.get? x).or (b.get? x) :=
  ⟨simplify_simplify a b e, Bindings.get?_union a b⟩

end Expr

end SumProduct
