/-
What the steps of simplification cost. Every step but a substitution takes an operator away, every
substitution a bound symbol, nothing makes an expression higher, and without a step nothing changes.
Rewritings in a row and of both operands keep to this, so simplification does, also where it drops
an operand that it has taken steps in.
-/
import SumProduct.Tree
import SumProduct.Proofs.Simplify.Value
import Mathlib.Tactic.SplitIfs

namespace SumProduct.Expr

/-! ## Operators, levels and bound symbols -/

/-- The number of sums and products. -/
def operators : Expr → Nat
  | number _ => 0
  | symbol _ => 0
  | sum l r => l.operators + r.operators + 1
  | product l r => l.operators + r.operators + 1

/-- The number of levels; a leaf has one. -/
def height : Expr → Nat
  | number _ => 1
  | symbol _ => 1
  | sum l r => max l.height r.height + 1
  | product l r => max l.height r.height + 1

/-- The number of leaves with a bound symbol. -/
def boundLeaves (b : Bindings) (e : Expr) : Nat := e.symbolLeaves.countP fun x => (b.get? x).isSome

section

variable (op : OperatorKind) (l r : Expr)

theorem operators_apply : (op.apply l r).operators = l.operators + r.operators + 1 := by
  cases op <;> rfl

theorem height_apply : (op.apply l r).height = max l.height r.height + 1 := by
  cases op <;> rfl

theorem boundLeaves_apply (b : Bindings) :
    (op.apply l r).boundLeaves b = l.boundLeaves b + r.boundLeaves b := by
  cases op <;> exact List.countP_append

end

theorem boundLeaves_symbol {b : Bindings} {x : Symbol} {v : Number} (h : b.get? x = some v) :
    (symbol x).boundLeaves b = 1 := by
  simp [boundLeaves, symbolLeaves, h]

/-! ## Paid rewritings -/

/-- One expression is rewritten to another in some steps. The operators left and the steps other
than substitutions are together no more than the operators before, the bound symbols left and the
substitutions no more than the bound symbols before, there are no more levels than before, and
without a step nothing changes. -/
structure Pays (b : Bindings) (e e' : Expr) (steps : List Step) : Prop where
  operators : e'.operators + steps.countP (· ≠ .substitute) ≤ e.operators
  height : e'.height ≤ e.height
  bound : e'.boundLeaves b + steps.count .substitute ≤ e.boundLeaves b
  unchanged : steps = [] → e' = e

namespace Pays

variable {b : Bindings} {e e' e'' l l' r r' : Expr} {ss ts : List Step} {s : Step}

theorem refl (b : Bindings) (e : Expr) : Pays b e e [] :=
  ⟨Nat.le_refl _, Nat.le_refl _, Nat.le_refl _, fun _ => rfl⟩

/-- Rewritings in a row. -/
theorem trans (h : Pays b e e' ss) (h' : Pays b e' e'' ts) : Pays b e e'' (ss ++ ts) := by
  obtain ⟨hoperators, hheight, hbound, hunchanged⟩ := h
  obtain ⟨hoperators', hheight', hbound', hunchanged'⟩ := h'
  refine ⟨?_, Nat.le_trans hheight' hheight, ?_, fun hnil => ?_⟩
  · rw [List.countP_append]
    omega
  · rw [List.count_append]
    omega
  · obtain ⟨hs, ht⟩ := List.append_eq_nil_iff.1 hnil
    exact (hunchanged' ht).trans (hunchanged hs)

/-- Rewritings of both operands. -/
theorem apply (op : OperatorKind) (hl : Pays b l l' ss) (hr : Pays b r r' ts) :
    Pays b (op.apply l r) (op.apply l' r') (ss ++ ts) := by
  obtain ⟨hoperators, hheight, hbound, hunchanged⟩ := hl
  obtain ⟨hoperators', hheight', hbound', hunchanged'⟩ := hr
  refine ⟨?_, ?_, ?_, fun hnil => ?_⟩
  · rw [List.countP_append, operators_apply, operators_apply]
    omega
  · rw [height_apply, height_apply]
    omega
  · rw [List.count_append, boundLeaves_apply, boundLeaves_apply]
    omega
  · obtain ⟨hs, ht⟩ := List.append_eq_nil_iff.1 hnil
    rw [hunchanged hs, hunchanged' ht]

/-- A step that is no substitution takes an operator away. -/
theorem of_step (hs : s ≠ .substitute) (hoperators : e'.operators < e.operators)
    (hheight : e'.height ≤ e.height) (hbound : e'.boundLeaves b ≤ e.boundLeaves b) :
    Pays b e e' [s] := by
  refine ⟨?_, hheight, ?_, nofun⟩
  · rw [List.countP_singleton, if_pos (decide_eq_true hs)]
    exact hoperators
  · rw [List.count_singleton, if_neg (by simpa using hs)]
    exact hbound

/-- A step that leaves one of two operands. -/
theorem of_operand (op : OperatorKind) (s : Step) (hs : s ≠ .substitute) (o : Rule.Operand) :
    Pays b (op.apply l r) (o.of l r) [s] := by
  cases o with
  | lhs =>
    refine of_step hs ?_ ?_ ?_
    · rw [operators_apply]
      exact Nat.lt_succ_of_le (Nat.le_add_right _ _)
    · rw [height_apply]
      exact Nat.le_succ_of_le (Nat.le_max_left _ _)
    · rw [boundLeaves_apply]
      exact Nat.le_add_right _ _
  | rhs =>
    refine of_step hs ?_ ?_ ?_
    · rw [operators_apply]
      exact Nat.lt_succ_of_le (Nat.le_add_left _ _)
    · rw [height_apply]
      exact Nat.le_succ_of_le (Nat.le_max_right _ _)
    · rw [boundLeaves_apply]
      exact Nat.le_add_left _ _

/-- A step that leaves a number in place of an operator and its operands. -/
theorem of_number (op : OperatorKind) (s : Step) (hs : s ≠ .substitute) (n : Number) :
    Pays b (op.apply l r) (number n) [s] := by
  refine of_step hs ?_ ?_ (Nat.zero_le _)
  · rw [operators_apply]
    exact Nat.succ_pos _
  · rw [height_apply]
    exact Nat.succ_pos _

end Pays

/-! ## Rules -/

section

variable {b : Bindings} {l r : Expr} {o : Rule.Operand} {j : Journal}

theorem pays_addZero (h : Rule.addZero l r = some (o, j)) :
    Pays b (sum l r) (o.of l r) j.steps := by
  unfold Rule.addZero at h
  split_ifs at h
  · cases h
    exact .of_operand .plus .addZero nofun .lhs
  · cases h
    exact .of_operand .plus .addZero nofun .rhs

theorem pays_multiplyOne (h : Rule.multiplyOne l r = some (o, j)) :
    Pays b (product l r) (o.of l r) j.steps := by
  unfold Rule.multiplyOne at h
  split_ifs at h
  · cases h
    exact .of_operand .times .multiplyOne nofun .lhs
  · cases h
    exact .of_operand .times .multiplyOne nofun .rhs

theorem pays_multiplyZero {e : Expr} (h : Rule.multiplyZero l r = some (e, j)) :
    Pays b (product l r) e j.steps := by
  unfold Rule.multiplyZero at h
  split_ifs at h
  cases h
  exact .of_number .times .multiplyZero nofun .zero

theorem pays_substitute {x : Symbol} {e : Expr} (h : Rule.substitute b x = some (e, j)) :
    Pays b (symbol x) e j.steps := by
  obtain ⟨v, hv, he⟩ := Option.map_eq_some_iff.1 h
  cases he
  refine ⟨Nat.le_refl _, Nat.le_refl _, ?_, nofun⟩
  rw [boundLeaves_symbol hv]
  exact Nat.le_refl _

theorem pays_combineSum (b : Bindings) (l r : Expr) :
    Pays b (sum l r) (Rule.combineSum l r).1 (Rule.combineSum l r).2.steps := by
  unfold Rule.combineSum
  split
  · exact .of_number .plus .foldSum nofun _
  · split
    · exact .of_operand .plus .addZero nofun .lhs
    · split
      · exact .of_operand .plus .addZero nofun .rhs
      · exact .refl b _

theorem pays_combineProduct (b : Bindings) (l r : Expr) :
    Pays b (product l r) (Rule.combineProduct l r).1 (Rule.combineProduct l r).2.steps := by
  unfold Rule.combineProduct
  split
  · exact .of_number .times .multiplyZero nofun _
  · split
    · exact .of_number .times .foldProduct nofun _
    · split
      · exact .of_operand .times .multiplyOne nofun .lhs
      · split
        · exact .of_operand .times .multiplyOne nofun .rhs
        · exact .refl b _

end

/-! ## Simplification -/

/-- All steps of a simplification are paid for. -/
theorem pays_simplifyRules (b : Bindings) (e : Expr) :
    Pays b e (e.simplifyRules b).1 (e.simplifyRules b).2.steps := by
  induction e with
  | number n => exact .refl b _
  | symbol x =>
    unfold simplifyRules
    cases h : Rule.substitute b x with
    | none => exact .refl b _
    | some out => exact pays_substitute h
  | sum l r ihl ihr =>
    unfold simplifyRules
    split
    · rename_i h
      exact (pays_addZero h).trans ihl
    · rename_i h
      exact (pays_addZero h).trans ihr
    · exact (ihl.apply .plus ihr).trans (pays_combineSum b _ _)
  | product l r ihl ihr =>
    unfold simplifyRules
    split
    · rename_i h
      exact pays_multiplyZero h
    · split
      · rename_i h
        exact (pays_multiplyOne h).trans ihl
      · rename_i h
        exact (pays_multiplyOne h).trans ihr
      · exact (ihl.apply .times ihr).trans (pays_combineProduct b _ _)

/-! ## Steps as they are taken -/

section

variable {σ : Type} (push : σ → Step → σ)

/-- Simplification that hands every step to a collector as soon as it is taken. -/
def simplifyInto (b : Bindings) : Expr → σ → Expr × σ
  | number n, s => (number n, s)
  | symbol x, s =>
    match Rule.substitute b x with
    | some (e, j) => (e, j.steps.foldl push s)
    | none => (symbol x, s)
  | sum l r, s =>
    match Rule.addZero l r with
    | some (.lhs, j) => l.simplifyInto b (j.steps.foldl push s)
    | some (.rhs, j) => r.simplifyInto b (j.steps.foldl push s)
    | none =>
      let (l', s) := l.simplifyInto b s
      let (r', s) := r.simplifyInto b s
      let (e, j) := Rule.combineSum l' r'
      (e, j.steps.foldl push s)
  | product l r, s =>
    match Rule.multiplyZero l r with
    | some (zero, j) => (zero, j.steps.foldl push s)
    | none =>
      match Rule.multiplyOne l r with
      | some (.lhs, j) => l.simplifyInto b (j.steps.foldl push s)
      | some (.rhs, j) => r.simplifyInto b (j.steps.foldl push s)
      | none =>
        let (l', s) := l.simplifyInto b s
        let (r', s) := r.simplifyInto b s
        let (e, j) := Rule.combineProduct l' r'
        (e, j.steps.foldl push s)

/-- A collector gets the steps of the journal, in their order and no others, and does not change
what becomes of the expression. -/
theorem simplifyInto_eq (b : Bindings) (e : Expr) (s : σ) :
    e.simplifyInto push b s =
      ((e.simplifyRules b).1, (e.simplifyRules b).2.steps.foldl push s) := by
  induction e generalizing s with
  | number n => rfl
  | symbol x =>
    unfold simplifyInto simplifyRules
    cases Rule.substitute b x <;> rfl
  | sum l r ihl ihr =>
    unfold simplifyInto simplifyRules
    rcases Rule.addZero l r with _ | ⟨_ | _, j⟩
    · simp only [ihl, ihr, Journal.steps_append, List.foldl_append]
    · simp only [ihl, Journal.steps_append, List.foldl_append]
    · simp only [ihr, Journal.steps_append, List.foldl_append]
  | product l r ihl ihr =>
    unfold simplifyInto simplifyRules
    rcases Rule.multiplyZero l r with _ | ⟨z, j⟩
    · rcases Rule.multiplyOne l r with _ | ⟨_ | _, j⟩
      · simp only [ihl, ihr, Journal.steps_append, List.foldl_append]
      · simp only [ihl, Journal.steps_append, List.foldl_append]
      · simp only [ihr, Journal.steps_append, List.foldl_append]
    · rfl

end

/-! ## All steps -/

/-- Steps are substitutions or not, so there are none if there are none of either. -/
theorem steps_eq_nil_iff {steps : List Step} :
    steps = [] ↔ steps.countP (· ≠ .substitute) = 0 ∧ steps.count .substitute = 0 := by
  rw [List.countP_eq_zero, List.count_eq_zero]
  constructor
  · rintro rfl
    exact ⟨nofun, nofun⟩
  · rintro ⟨hother, hsubstitute⟩
    refine List.eq_nil_iff_forall_not_mem.2 fun s hs => ?_
    obtain rfl : s = .substitute := by simpa using hother s hs
    exact hsubstitute hs

/-- Simplification takes an operator away for each step that is no substitution and a bound symbol
for each substitution, does not make an expression higher, and takes no steps exactly if it leaves
the expression as it is. A collector that holds steps gets these behind them, and any collector gets
just these. -/
theorem simplify_pays_for_steps (b : Bindings) (e : Expr) (before : List Step) :
    ∃ r steps, e.simplifyWithSteps b = (r, steps) ∧
      r.operators + steps.countP (· ≠ .substitute) ≤ e.operators ∧
      r.height ≤ e.height ∧
      steps.count .substitute ≤ e.symbolLeaves.countP (fun x => (b.get? x).isSome) ∧
      (steps = [] ↔ r = e) ∧
      e.simplifyWith b before = (r, before ++ steps) ∧
      ∀ (σ : Type) (push : σ → Step → σ) (s : σ),
        e.simplifyInto push b s = (r, steps.foldl push s) := by
  have hpays := pays_simplifyRules b e
  refine ⟨(e.simplifyRules b).1, (e.simplifyRules b).2.steps, rfl, hpays.operators, hpays.height,
    ?_, ⟨hpays.unchanged, fun hr => ?_⟩, rfl, fun σ push s => simplifyInto_eq push b e s⟩
  · exact Nat.le_trans (Nat.le_add_left _ _) hpays.bound
  · -- an expression left as it is has lost nothing that a step could have been paid with
    have hoperators := hpays.operators
    have hbound := hpays.bound
    rw [hr] at hoperators hbound
    exact steps_eq_nil_iff.2 ⟨by omega, by omega⟩

-- The steps taken in an operand stay where a zero then takes the place of the operand.
example : ((sum (symbol ⟨"y", by decide⟩) (sum (number .one) (number .one))).product
    (symbol ⟨"x", by decide⟩)).simplifyWithSteps (Bindings.empty.bind ⟨"x", by decide⟩ .zero) =
      (zero, [.foldSum, .substitute, .multiplyZero]) := by
  decide +kernel

end SumProduct.Expr
