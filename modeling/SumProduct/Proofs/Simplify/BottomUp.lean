/-
Simplification goes from the leaves up. The combining rules alone decide what becomes of a sum or
a product: the literal rules, tried before the operands are simplified, give what the combining
rules would give after.
-/
import SumProduct.Simplify.Basic
import SumProduct.Proofs.Number.Exact

namespace SumProduct.Expr

/-- The sum of two simplified terms, without the journal. -/
def plus (l r : Expr) : Expr := (Rule.combineSum l r).1

/-- The product of two simplified factors, without the journal. -/
def times (l r : Expr) : Expr := (Rule.combineProduct l r).1

/-! ## Combined sums -/

@[simp] theorem number_plus_number (m n : Number) :
    plus (number m) (number n) = number (m + n) := rfl

theorem plus_eq_ite (l r : Expr) (h : ∀ m n, ¬(l = number m ∧ r = number n)) :
    plus l r = if r.isZero then l else if l.isZero then r else sum l r := by
  unfold plus Rule.combineSum
  split
  · exact absurd ⟨rfl, rfl⟩ (h _ _)
  · split
    · rfl
    · split <;> rfl

@[simp] theorem plus_zero (l : Expr) : plus l zero = l := by
  by_cases h : ∃ m, l = number m
  · obtain ⟨m, rfl⟩ := h
    show number (m + Number.zero) = number m
    rw [Number.add_zero]
  · rw [plus_eq_ite l zero fun m _ hm => h ⟨m, hm.1⟩, if_pos (isZero_iff.2 rfl)]

@[simp] theorem zero_plus (r : Expr) : plus zero r = r := by
  by_cases h : ∃ n, r = number n
  · obtain ⟨n, rfl⟩ := h
    show number (Number.zero + n) = number n
    rw [Number.zero_add]
  · rw [plus_eq_ite zero r fun _ n hn => h ⟨n, hn.2⟩]
    by_cases hr : r = zero
    · exact absurd ⟨_, hr⟩ h
    · rw [if_neg (mt isZero_iff.1 hr), if_pos (isZero_iff.2 rfl)]

theorem plus_eq_sum {l r : Expr} (h : ∀ m n, ¬(l = number m ∧ r = number n)) (hl : l ≠ zero)
    (hr : r ≠ zero) : plus l r = sum l r := by
  rw [plus_eq_ite l r h, if_neg (mt isZero_iff.1 hr), if_neg (mt isZero_iff.1 hl)]

/-- Two terms are folded, or one is zero and dropped, or the sum stays. -/
theorem plus_cases (l r : Expr) :
    (∃ m n, l = number m ∧ r = number n) ∨ l = zero ∨ r = zero ∨ plus l r = sum l r := by
  by_cases h : ∃ m n, l = number m ∧ r = number n
  · exact .inl h
  by_cases hl : l = zero
  · exact .inr (.inl hl)
  by_cases hr : r = zero
  · exact .inr (.inr (.inl hr))
  exact .inr (.inr (.inr (plus_eq_sum (fun m n hmn => h ⟨m, n, hmn⟩) hl hr)))

/-! ## Combined products -/

theorem times_eq_ite (l r : Expr) (h : ∀ m n, ¬(l = number m ∧ r = number n)) :
    times l r = if l.isZero || r.isZero then zero
      else if r.isOne then l else if l.isOne then r else product l r := by
  unfold times Rule.combineProduct
  split
  · rfl
  · split
    · exact absurd ⟨rfl, rfl⟩ (h _ _)
    · split
      · rfl
      · split <;> rfl

theorem times_of_isZero {l r : Expr} (h : (l.isZero || r.isZero) = true) : times l r = zero := by
  unfold times Rule.combineProduct
  rw [if_pos h]

@[simp] theorem times_zero (l : Expr) : times l zero = zero :=
  times_of_isZero (by rw [isZero_iff.2 rfl, Bool.or_true])

@[simp] theorem zero_times (r : Expr) : times zero r = zero :=
  times_of_isZero (by rw [isZero_iff.2 rfl, Bool.true_or])

/-- Two numbers are folded, a zero being looked for first only for the journal. -/
@[simp] theorem number_times_number (m n : Number) :
    times (number m) (number n) = number (m * n) := by
  by_cases hm : m = Number.zero
  · subst hm
    rw [Number.zero_mul]
    exact zero_times _
  by_cases hn : n = Number.zero
  · subst hn
    rw [Number.mul_zero]
    exact times_zero _
  have hz : ((number m).isZero || (number n).isZero) ≠ true := by
    simp [isZero, number?, hm, hn]
  unfold times Rule.combineProduct
  rw [if_neg hz]

@[simp] theorem times_one (l : Expr) : times l (number .one) = l := by
  by_cases h : ∃ m, l = number m
  · obtain ⟨m, rfl⟩ := h
    rw [number_times_number, Number.mul_one]
  · have hz : (l.isZero || (number .one).isZero) ≠ true := by
      have hl : l.isZero ≠ true := fun hl => h ⟨_, isZero_iff.1 hl⟩
      have h1 : (number Number.one).isZero ≠ true := by decide
      simp [hl, h1]
    rw [times_eq_ite l _ fun m _ hm => h ⟨m, hm.1⟩, if_neg hz, if_pos (isOne_iff.2 rfl)]

@[simp] theorem one_times (r : Expr) : times (number .one) r = r := by
  by_cases h : ∃ n, r = number n
  · obtain ⟨n, rfl⟩ := h
    rw [number_times_number, Number.one_mul]
  · have hz : ((number .one).isZero || r.isZero) ≠ true := by
      have hr : r.isZero ≠ true := fun hr => h ⟨_, isZero_iff.1 hr⟩
      have h1 : (number Number.one).isZero ≠ true := by decide
      simp [hr, h1]
    have h1 : r.isOne ≠ true := fun hr => h ⟨_, isOne_iff.1 hr⟩
    rw [times_eq_ite _ r fun _ n hn => h ⟨n, hn.2⟩, if_neg hz, if_neg h1,
      if_pos (isOne_iff.2 rfl)]

theorem times_eq_product {l r : Expr} (h : ∀ m n, ¬(l = number m ∧ r = number n))
    (hl : l ≠ zero) (hr : r ≠ zero) (hl1 : l ≠ number .one) (hr1 : r ≠ number .one) :
    times l r = product l r := by
  have hz : (l.isZero || r.isZero) ≠ true := by
    simp [mt isZero_iff.1 hl, mt isZero_iff.1 hr]
  rw [times_eq_ite l r h, if_neg hz, if_neg (mt isOne_iff.1 hr1), if_neg (mt isOne_iff.1 hl1)]

/-- Two factors are folded, or one is zero or one, or the product stays. -/
theorem times_cases (l r : Expr) :
    (∃ m n, l = number m ∧ r = number n) ∨ l = zero ∨ r = zero ∨
      l = number .one ∨ r = number .one ∨ times l r = product l r := by
  by_cases h : ∃ m n, l = number m ∧ r = number n
  · exact .inl h
  by_cases hl : l = zero
  · exact .inr (.inl hl)
  by_cases hr : r = zero
  · exact .inr (.inr (.inl hr))
  by_cases hl1 : l = number .one
  · exact .inr (.inr (.inr (.inl hl1)))
  by_cases hr1 : r = number .one
  · exact .inr (.inr (.inr (.inr (.inl hr1))))
  exact .inr (.inr (.inr (.inr (.inr
    (times_eq_product (fun m n hmn => h ⟨m, n, hmn⟩) hl hr hl1 hr1)))))

/-! ## Simplification -/

@[simp] theorem simplify_number (b : Bindings) (n : Number) :
    simplify b (number n) = number n := rfl

theorem simplify_symbol (b : Bindings) (x : Symbol) :
    simplify b (symbol x) = ((b.get? x).map number).getD (symbol x) := by
  unfold simplify simplifyRules Rule.substitute
  cases b.get? x <;> rfl

@[simp] theorem simplify_zero (b : Bindings) : simplify b zero = zero := rfl

/-- The operands of a sum are simplified and combined. -/
theorem simplify_sum (b : Bindings) (l r : Expr) :
    simplify b (sum l r) = plus (simplify b l) (simplify b r) := by
  by_cases hr : r.isZero = true
  · have hrule : Rule.addZero l r = some (.lhs, .noted .addZero (.addZero l r l)) := by
      rw [Rule.addZero, if_pos hr]
    -- a term zero by its look is zero when simplified, and combining drops it just so
    obtain rfl := isZero_iff.1 hr
    rw [simplify_zero, plus_zero]
    simp only [simplify, simplifyRules, hrule]
  by_cases hl : l.isZero = true
  · have hrule : Rule.addZero l r = some (.rhs, .noted .addZero (.addZero l r r)) := by
      rw [Rule.addZero, if_neg hr, if_pos hl]
    obtain rfl := isZero_iff.1 hl
    rw [simplify_zero, zero_plus]
    simp only [simplify, simplifyRules, hrule]
  have hrule : Rule.addZero l r = none := by
    rw [Rule.addZero, if_neg hr, if_neg hl]
  simp only [simplify, simplifyRules, hrule, plus]

/-- The operands of a product are simplified and combined. -/
theorem simplify_product (b : Bindings) (l r : Expr) :
    simplify b (product l r) = times (simplify b l) (simplify b r) := by
  by_cases hz : (l.isZero || r.isZero) = true
  · have hrule : Rule.multiplyZero l r = some (zero, .noted .multiplyZero (.multiplyZero l r)) := by
      rw [Rule.multiplyZero, if_pos hz]
    have hsimp : simplify b (product l r) = zero := by
      simp only [simplify, simplifyRules, hrule]
    rw [hsimp]
    rcases Bool.or_eq_true_iff.1 hz with h | h
    · rw [isZero_iff.1 h, simplify_zero, zero_times]
    · rw [isZero_iff.1 h, simplify_zero, times_zero]
  have hzero : Rule.multiplyZero l r = none := by
    rw [Rule.multiplyZero, if_neg hz]
  by_cases hr : r.isOne = true
  · have hrule : Rule.multiplyOne l r = some (.lhs, .noted .multiplyOne (.multiplyOne l r l)) := by
      rw [Rule.multiplyOne, if_pos hr]
    obtain rfl := isOne_iff.1 hr
    rw [simplify_number, times_one]
    simp only [simplify, simplifyRules, hzero, hrule]
  by_cases hl : l.isOne = true
  · have hrule : Rule.multiplyOne l r = some (.rhs, .noted .multiplyOne (.multiplyOne l r r)) := by
      rw [Rule.multiplyOne, if_neg hr, if_pos hl]
    obtain rfl := isOne_iff.1 hl
    rw [simplify_number, one_times]
    simp only [simplify, simplifyRules, hzero, hrule]
  have hrule : Rule.multiplyOne l r = none := by
    rw [Rule.multiplyOne, if_neg hr, if_neg hl]
  simp only [simplify, simplifyRules, hzero, hrule, times]

/-! ## Simplifying what was combined -/

/-- Terms may be combined before or after they are simplified. -/
theorem simplify_plus (b : Bindings) (l r : Expr) :
    simplify b (plus l r) = plus (simplify b l) (simplify b r) := by
  rcases plus_cases l r with ⟨m, n, rfl, rfl⟩ | rfl | rfl | h
  · simp only [simplify_number, number_plus_number]
  · rw [zero_plus, simplify_zero, zero_plus]
  · rw [plus_zero, simplify_zero, plus_zero]
  · rw [h, simplify_sum]

/-- Factors may be combined before or after they are simplified. -/
theorem simplify_times (b : Bindings) (l r : Expr) :
    simplify b (times l r) = times (simplify b l) (simplify b r) := by
  rcases times_cases l r with ⟨m, n, rfl, rfl⟩ | rfl | rfl | rfl | rfl | h
  · simp only [simplify_number, number_times_number]
  · rw [zero_times, simplify_zero, zero_times]
  · rw [times_zero, simplify_zero, times_zero]
  · rw [one_times, simplify_number, one_times]
  · rw [times_one, simplify_number, times_one]
  · rw [h, simplify_product]

/-! ## The plain recursion -/

/-- The number that a symbol is bound to, or the symbol itself. -/
def valueOr (b : Bindings) (x : Symbol) : Expr :=
  match b.get? x with
  | some v => number v
  | none => symbol x

/-- Simplification by the combining rules alone: every operand is gone through, and none is looked
at as it is written. -/
def bottomUp (b : Bindings) : Expr → Expr
  | number n => number n
  | symbol x => valueOr b x
  | sum l r => plus (l.bottomUp b) (r.bottomUp b)
  | product l r => times (l.bottomUp b) (r.bottomUp b)

/-- The expression with every bound symbol replaced by its number, and nothing else. -/
def substitute (b : Bindings) : Expr → Expr
  | number n => number n
  | symbol x => valueOr b x
  | sum l r => sum (l.substitute b) (r.substitute b)
  | product l r => product (l.substitute b) (r.substitute b)

theorem simplify_symbol_eq_valueOr (b : Bindings) (x : Symbol) :
    simplify b (symbol x) = valueOr b x := by
  rw [simplify_symbol, valueOr]
  cases b.get? x <;> rfl

theorem simplify_eq_bottomUp (b : Bindings) (e : Expr) : simplify b e = bottomUp b e := by
  induction e with
  | number n => rfl
  | symbol x => exact simplify_symbol_eq_valueOr b x
  | sum l r ihl ihr => rw [simplify_sum, ihl, ihr, bottomUp]
  | product l r ihl ihr => rw [simplify_product, ihl, ihr, bottomUp]

theorem simplify_substitute (b : Bindings) (e : Expr) :
    simplify .empty (substitute b e) = simplify b e := by
  induction e with
  | number n => rfl
  | symbol x =>
    rw [simplify_symbol_eq_valueOr, substitute, valueOr]
    -- a number stays, and with nothing bound a symbol stays too
    cases b.get? x <;> rfl
  | sum l r ihl ihr => rw [substitute, simplify_sum, ihl, ihr, simplify_sum]
  | product l r ihl ihr => rw [substitute, simplify_product, ihl, ihr, simplify_product]

/-- The literal rules only save work: the combining rules give the same result from the leaves up.
Nor does it matter when the bound symbols are replaced, at their leaves or before anything else. -/
theorem simplify_without_literal_rules (b : Bindings) (e : Expr) :
    simplify b e = bottomUp b e ∧ simplify b e = simplify .empty (substitute b e) :=
  ⟨simplify_eq_bottomUp b e, (simplify_substitute b e).symm⟩

end SumProduct.Expr
