/-
The normal forms of simplification. A redex is a node that a rule applies to, and a normal form has
no redex anywhere. Simplification always ends in a normal form, and leaves an expression as it is
exactly if it is one, so simplifying twice is simplifying once.
-/
import SumProduct.Proofs.Simplify.BottomUp

namespace SumProduct.Expr

/-! ## Redexes -/

/-- Two numbers, which the combining rules fold into one. -/
def AreNumbers (l r : Expr) : Prop := l.number?.isSome ∧ r.number?.isSome

/-- A node that a rule applies to: a bound symbol, a sum with a zero term, a product with a factor
zero or one, or a sum or product of two numbers. -/
def IsRedex (b : Bindings) : Expr → Prop
  | number _ => False
  | symbol x => (b.get? x).isSome
  | sum l r => l = zero ∨ r = zero ∨ AreNumbers l r
  | product l r => l = zero ∨ r = zero ∨ l = number .one ∨ r = number .one ∨ AreNumbers l r

/-- No redex anywhere in the expression. -/
def IsNormal (b : Bindings) : Expr → Prop
  | number n => ¬ IsRedex b (number n)
  | symbol x => ¬ IsRedex b (symbol x)
  | sum l r => ¬ IsRedex b (sum l r) ∧ l.IsNormal b ∧ r.IsNormal b
  | product l r => ¬ IsRedex b (product l r) ∧ l.IsNormal b ∧ r.IsNormal b

instance (l r : Expr) : Decidable (AreNumbers l r) :=
  inferInstanceAs (Decidable (_ ∧ _))

instance decidableIsRedex (b : Bindings) : DecidablePred (IsRedex b)
  | number _ => inferInstanceAs (Decidable False)
  | symbol _ => inferInstanceAs (Decidable (_ = true))
  | sum _ _ => inferInstanceAs (Decidable (_ ∨ _))
  | product _ _ => inferInstanceAs (Decidable (_ ∨ _))

instance decidableIsNormal (b : Bindings) : DecidablePred (IsNormal b)
  | number n => inferInstanceAs (Decidable ¬ IsRedex b (number n))
  | symbol x => inferInstanceAs (Decidable ¬ IsRedex b (symbol x))
  | sum l r =>
    have := decidableIsNormal b l
    have := decidableIsNormal b r
    inferInstanceAs (Decidable (_ ∧ _ ∧ _))
  | product l r =>
    have := decidableIsNormal b l
    have := decidableIsNormal b r
    inferInstanceAs (Decidable (_ ∧ _ ∧ _))

theorem areNumbers_iff {l r : Expr} :
    AreNumbers l r ↔ ∃ m n, l = number m ∧ r = number n := by
  cases l <;> cases r <;> simp [AreNumbers, number?]

theorem isNormal_number (b : Bindings) (n : Number) : IsNormal b (number n) := id

/-- Where no rule applies to the sum of two terms, combining them gives that sum. -/
theorem plus_eq_sum_of_not_isRedex {b : Bindings} {l r : Expr} (h : ¬ IsRedex b (sum l r)) :
    plus l r = sum l r := by
  simp only [IsRedex, areNumbers_iff, not_or] at h
  obtain ⟨hl, hr, hn⟩ := h
  exact plus_eq_sum (fun m n hmn => hn ⟨m, n, hmn⟩) hl hr

/-- Where no rule applies to the product of two factors, combining them gives that product. -/
theorem times_eq_product_of_not_isRedex {b : Bindings} {l r : Expr}
    (h : ¬ IsRedex b (product l r)) : times l r = product l r := by
  simp only [IsRedex, areNumbers_iff, not_or] at h
  obtain ⟨hl, hr, hl1, hr1, hn⟩ := h
  exact times_eq_product (fun m n hmn => hn ⟨m, n, hmn⟩) hl hr hl1 hr1

/-! ## Combined normal forms -/

/-- Combining two terms leaves no redex that was not in them. -/
theorem isNormal_plus {b : Bindings} {l r : Expr} (hl : IsNormal b l) (hr : IsNormal b r) :
    IsNormal b (plus l r) := by
  by_cases h : IsRedex b (sum l r)
  · rcases h with rfl | rfl | hn
    · rwa [zero_plus]
    · rwa [plus_zero]
    · obtain ⟨m, n, rfl, rfl⟩ := areNumbers_iff.1 hn
      exact isNormal_number b (m + n)
  · rw [plus_eq_sum_of_not_isRedex h]
    exact ⟨h, hl, hr⟩

/-- Combining two factors leaves no redex that was not in them. -/
theorem isNormal_times {b : Bindings} {l r : Expr} (hl : IsNormal b l) (hr : IsNormal b r) :
    IsNormal b (times l r) := by
  by_cases h : IsRedex b (product l r)
  · rcases h with rfl | rfl | rfl | rfl | hn
    · rwa [zero_times]
    · rwa [times_zero]
    · rwa [one_times]
    · rwa [times_one]
    · obtain ⟨m, n, rfl, rfl⟩ := areNumbers_iff.1 hn
      rw [number_times_number]
      exact isNormal_number b (m * n)
  · rw [times_eq_product_of_not_isRedex h]
    exact ⟨h, hl, hr⟩

/-! ## Simplification -/

theorem isNormal_simplify (b : Bindings) (e : Expr) : IsNormal b (simplify b e) := by
  induction e with
  | number n => exact isNormal_number b n
  | symbol x =>
    rw [simplify_symbol]
    rcases hx : b.get? x with _ | v
    · simp [IsNormal, IsRedex, hx]
    · exact isNormal_number b v
  | sum l r ihl ihr =>
    rw [simplify_sum]
    exact isNormal_plus ihl ihr
  | product l r ihl ihr =>
    rw [simplify_product]
    exact isNormal_times ihl ihr

theorem simplify_of_isNormal {b : Bindings} {e : Expr} (h : IsNormal b e) : simplify b e = e := by
  induction e with
  | number n => rfl
  | symbol x =>
    have hx : b.get? x = none := by simpa [IsNormal, IsRedex] using h
    rw [simplify_symbol, hx]
    rfl
  | sum l r ihl ihr =>
    obtain ⟨hn, hl, hr⟩ := h
    rw [simplify_sum, ihl hl, ihr hr, plus_eq_sum_of_not_isRedex hn]
  | product l r ihl ihr =>
    obtain ⟨hn, hl, hr⟩ := h
    rw [simplify_product, ihl hl, ihr hr, times_eq_product_of_not_isRedex hn]

/-- Simplification ends in a normal form, the normal forms are the expressions that it leaves as
they are, and simplifying again changes nothing. -/
theorem simplify_fixes_normal_forms (b : Bindings) (e : Expr) :
    IsNormal b (simplify b e) ∧ (simplify b e = e ↔ IsNormal b e) ∧
      simplify b (simplify b e) = simplify b e := by
  have hnormal : IsNormal b (simplify b e) := isNormal_simplify b e
  refine ⟨hnormal, ⟨?_, simplify_of_isNormal⟩, simplify_of_isNormal hnormal⟩
  intro hfix
  rwa [hfix] at hnormal

/-- The least positive number times itself underflows to zero, and the sum around it loses the zero
term that only then comes out. -/
example :
    let tiny : Expr := number ⟨1, by decide⟩
    let x : Expr := symbol ⟨"x", by decide⟩
    simplify .empty (sum (product tiny tiny) x) = x ∧ ¬ IsNormal .empty (product tiny tiny) := by
  decide +kernel

end SumProduct.Expr
