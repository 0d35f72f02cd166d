/-
Precedence climbing from any start. Whatever stands on the left and whichever precedence is the
least, the climb takes the longest run of operators and operands that is ahead and groups it on two
levels, or it fails at the first operator without an operand, as reading this operand fails.
-/
import SumProduct.Proofs.Grammar.Run

namespace SumProduct

namespace Grammar

open Outcome

variable {least : Precedence} {c c₁ c' d s : Cursor} {op : Operator} {e : SyntaxError}
  {xs ys : List (Operator × Tree)}

/-! ## Operators -/

/-- An operator is read where the next token is a `+` or a `*`, and covers this token. -/
theorem gives_operator_iff_kind : (operator c).Gives op c' ↔
    ∃ t, (next c).Gives t c' ∧ op.span = t.span ∧
      (t.kind = .plus ∧ op.kind = .plus ∨ t.kind = .times ∧ op.kind = .times) := by
  rw [gives_operator]
  refine exists_congr fun t => and_congr_right fun _ => ?_
  rw [operatorKind?_eq_some]
  exact and_comm

/-! ## Pairs of operators and operands -/

/-- Operators that bind at least as tightly as a precedence, each with its operand, one pair behind
the other from a cursor to another. -/
inductive Pairs (least : Precedence) : Cursor → List (Operator × Tree) → Cursor → Prop where
  | nil (c : Cursor) : Pairs least c [] c
  | cons {c c₁ c₂ c' : Cursor} {op : Operator} {x : Tree} {xs : List (Operator × Tree)}
      (hop : (operator c).Gives op c₁) (hleast : least.rank ≤ op.precedence.rank)
      (hx : (operand c₁).Gives x c₂) (hxs : Pairs least c₂ xs c') :
      Pairs least c ((op, x) :: xs) c'

/-- All pairs that follow a cursor: no operator of the precedence is ahead any more, and any other
pairs are the first ones of these. -/
structure LongestPairs (least : Precedence) (c : Cursor) (xs : List (Operator × Tree))
    (c' : Cursor) : Prop where
  pairs : Pairs least c xs c'
  ends : ∀ op d, (operator c').Gives op d → op.precedence.rank < least.rank
  longest : ∀ ys d, Pairs least c ys d → ∃ zs, xs = ys ++ zs ∧ Pairs least d zs c'

/-- Some pairs follow the first cursor and then an operator without an operand: behind it, at the
second cursor, reading the operand fails with an error. -/
def LacksOperand (least : Precedence) (c : Cursor) (e : SyntaxError) (s : Cursor) : Prop :=
  ∃ xs c₁ op s', Pairs least c xs c₁ ∧ (operator c₁).Gives op s ∧
    least.rank ≤ op.precedence.rank ∧ operand s = .fail e s'

/-- Pairs up to where no operator is ahead are known from the cursor, so other pairs are the first
ones of them. -/
theorem Pairs.exists_append (h : Pairs least c xs c')
    (hends : ∀ op d, (operator c').Gives op d → op.precedence.rank < least.rank)
    (h' : Pairs least c ys d) : ∃ zs, xs = ys ++ zs ∧ Pairs least d zs c' := by
  -- along the pairs that may be fewer: where they go on, the others cannot have ended
  induction h' generalizing xs with
  | nil c => exact ⟨xs, rfl, h⟩
  | cons hop hleast hx _ ih =>
    cases h with
    | nil c => exact absurd hleast (Nat.not_le_of_lt (hends _ _ hop))
    | cons hop' hleast' hx' hxs' =>
      obtain ⟨rfl, rfl⟩ := hop.unique hop'
      obtain ⟨rfl, rfl⟩ := hx.unique hx'
      obtain ⟨zs, rfl, hzs⟩ := ih hxs'
      exact ⟨zs, rfl, hzs⟩

/-! ## Runs -/

theorem pairs_of_run (h : (run least c).Gives xs c') : Pairs least c xs c' := by
  induction xs generalizing c with
  | nil =>
    obtain ⟨rfl, -⟩ := gives_run_nil.1 h
    exact .nil c
  | cons x xs ih =>
    obtain ⟨c₁, c₂, hop, hx, hxs⟩ := gives_run_cons.1 h
    obtain ⟨hop, hleast⟩ := gives_operatorFrom.1 hop
    exact .cons hop hleast hx (ih hxs)

theorem run_of_pairs (h : Pairs least c xs c')
    (hends : ∀ op d, (operator c').Gives op d → op.precedence.rank < least.rank) :
    (run least c).Gives xs c' := by
  induction h with
  | nil c =>
    refine gives_run_nil.2 ⟨rfl, fun op d hop => ?_⟩
    obtain ⟨hop, hleast⟩ := gives_operatorFrom.1 hop
    exact absurd hleast (Nat.not_le_of_lt (hends op d hop))
  | cons hop hleast hx _ ih =>
    exact gives_run_cons.2 ⟨_, _, gives_operatorFrom.2 ⟨hop, hleast⟩, hx, ih hends⟩

/-- A run is read exactly where it is the longest one. -/
theorem gives_run_iff : (run least c).Gives xs c' ↔ LongestPairs least c xs c' := by
  constructor
  · intro h
    have hpairs := pairs_of_run h
    have hends : ∀ op d, (operator c').Gives op d → op.precedence.rank < least.rank :=
      fun op d hop => Nat.lt_of_not_le fun hleast =>
        run_stops h op d (gives_operatorFrom.2 ⟨hop, hleast⟩)
    exact ⟨hpairs, hends, fun ys d hys => hpairs.exists_append hends hys⟩
  · intro h
    exact run_of_pairs h.pairs h.ends

theorem lacksOperand_of_run {least : Precedence} {c s : Cursor} {e : SyntaxError}
    (h : run least c = .fail e s) : LacksOperand least c e s := by
  rw [run] at h
  split at h
  · cases h
  · rename_i op c₁ h₁ ho
    obtain ⟨hop, hleast⟩ := gives_operatorFrom.1 ⟨h₁, ho⟩
    split at h
    · rename_i e' s' hx
      cases h
      exact ⟨[], c, op, s', .nil c, hop, hleast, hx⟩
    · rename_i x c₂ h₂ hx
      have hlt : c₂.size < c.size := Nat.lt_trans h₂ h₁
      obtain ⟨xs, c₃, op', s', hxs, hfail⟩ :=
        lacksOperand_of_run (map_eq_fail.1 (weaken_eq_fail.1 h))
      exact ⟨(op, x) :: xs, c₃, op', s', .cons hop hleast ⟨h₂, hx⟩ hxs, hfail⟩
termination_by c.size

theorem run_of_lacksOperand (h : LacksOperand least c e s) : run least c = .fail e s := by
  obtain ⟨xs, c₁, op, s', hxs, hop, hleast, hx⟩ := h
  induction hxs with
  | nil c =>
    obtain ⟨h₁, ho⟩ := gives_operatorFrom.2 ⟨hop, hleast⟩
    rw [run, ho]
    simp only [hx]
  | cons hop' hleast' hx' _ ih =>
    obtain ⟨h₁, ho⟩ := gives_operatorFrom.2 ⟨hop', hleast'⟩
    obtain ⟨h₂, hx'⟩ := hx'
    rw [run, ho]
    simp only [hx']
    exact weaken_eq_fail.2 (map_eq_fail.2 (ih hop))

/-- A run fails exactly where an operator of it lacks its operand. -/
theorem run_eq_fail_iff : run least c = .fail e s ↔ LacksOperand least c e s :=
  ⟨lacksOperand_of_run, run_of_lacksOperand⟩

/-! ## Precedences -/

/-- Every operator separates terms at least, so the lowest two precedences accept the same ones. -/
theorem operatorFrom_any : operatorFrom .any = operatorFrom .term := by
  have haccept : ∀ op : Operator, Precedence.any.rank ≤ op.precedence.rank ↔
      Precedence.term.rank ≤ op.precedence.rank := by
    rintro ⟨kind, span⟩
    cases kind <;> simp [Operator.precedence, OperatorKind.precedence, Precedence.rank]
  unfold operatorFrom
  simp only [haccept]

theorem run_any (c : Cursor) : run .any c = run .term c := by
  rw [run, run, operatorFrom_any]
  cases operatorFrom .term c with
  | fail e s => rfl
  | ok op c₁ h₁ =>
    dsimp only
    cases operand c₁ with
    | fail e s => rfl
    | ok x c₂ h₂ =>
      dsimp only
      rw [run_any c₂]
termination_by c.size
decreasing_by exact Nat.lt_trans h₂ h₁

/-! ## Right-hand sides -/

/-- Where a tighter operator is seen behind a right-hand side, the climb at its precedence starts
before this operator and takes it. -/
theorem chain_of_operatorAbove {p : Precedence} (h : (operatorAbove p c).Gives op c₁) (x : Tree) :
    chain x op.precedence c =
      (chainFrom x op op.precedence c₁).weaken (Nat.le_succ_of_le (Nat.le_of_lt h.size_lt)) := by
  have hop := (gives_operatorIf.1 h).1
  obtain ⟨h₁, ho⟩ := gives_operatorFrom.2 ⟨hop, Nat.le_refl _⟩
  rw [chain, ho]

/-- A right-hand side is completed by climbs at the precedences of the operators seen, one after the
other. -/
theorem completeRhs_of_operatorAbove {p : Precedence} (h : (operatorAbove p c).Gives op c₁)
    (x : Tree) : completeRhs p x c = (chain x op.precedence c).andThen (completeRhs p) := by
  have hchain := chain_of_operatorAbove h x
  obtain ⟨h₁, ho⟩ := h
  rw [completeRhs, ho, hchain]
  dsimp only
  cases chainFrom x op op.precedence c₁ with
  | fail e s => rfl
  | ok y c₂ h₂ => rw [weaken_ok, andThen_ok]

theorem size_lt_of_operatorAbove {p : Precedence} (h : (operatorAbove p c).Gives op c₁)
    {x t : Tree} (ht : (chain x op.precedence c).Gives t c') : c'.size < c.size := by
  rw [chain_of_operatorAbove h] at ht
  exact Nat.lt_trans (gives_weaken.1 ht).size_lt h.size_lt

/-! ## Climbing -/

/-- From any left-hand side and precedence, climbing gives the left-hand side with the longest run
ahead grouped on two levels, behind which the cursor then is. It fails exactly where an operator of
the run lacks its operand, with the error of this operand. The lowest two precedences do not differ,
and a right-hand side is completed by climbs that take the operator seen ahead. The operators of a
run are the `+` and `*` among the tokens. -/
theorem chain_groups_longest_pairs (lhs : Tree) (least : Precedence) (c : Cursor) :
    (∀ t c', (chain lhs least c).Gives t c' ↔
      ∃ xs, LongestPairs least c xs c' ∧ t = lhs.group xs) ∧
    (∀ e s, chain lhs least c = .fail e s ↔ LacksOperand least c e s) ∧
    chain lhs .any c = chain lhs .term c ∧
    (∀ p op c₁, (operatorAbove p c).Gives op c₁ →
      completeRhs p lhs c = (chain lhs op.precedence c).andThen (completeRhs p) ∧
        ∀ t c', (chain lhs op.precedence c).Gives t c' → c'.size < c.size) ∧
    ∀ op d d', (operator d).Gives op d' ↔
      ∃ t, (next d).Gives t d' ∧ op.span = t.span ∧
        (t.kind = .plus ∧ op.kind = .plus ∨ t.kind = .times ∧ op.kind = .times) := by
  refine ⟨fun t c' => ?_, fun e s => ?_, ?_, fun p op c₁ h =>
    ⟨completeRhs_of_operatorAbove h lhs, fun t c' => size_lt_of_operatorAbove h⟩,
    fun op d d' => gives_operator_iff_kind⟩
  · rw [chain_eq_run, gives_map]
    refine exists_congr fun xs => and_congr gives_run_iff ?_
    exact eq_comm
  · rw [chain_eq_run, map_eq_fail]
    exact run_eq_fail_iff
  · rw [chain_eq_run, chain_eq_run, run_any]

-- A sum that is given stays whole, although a product follows it.
example :
    let sum := (Tree.symbol "a" ⟨0, 1⟩).join ⟨.plus, ⟨1, 2⟩⟩ (.symbol "b" ⟨2, 3⟩)
    (chain sum .any (.ofSource "* y + z * w")).result.toOption =
      some ((sum.join ⟨.times, ⟨0, 1⟩⟩ (.symbol "y" ⟨2, 3⟩)).join ⟨.plus, ⟨4, 5⟩⟩
        ((Tree.symbol "z" ⟨6, 7⟩).join ⟨.times, ⟨8, 9⟩⟩ (.symbol "w" ⟨10, 11⟩))) := by
  decide +kernel

end Grammar

end SumProduct
