/-
Precedence climbing as two levels of grouping. A run is the operators ahead that bind at least as
tightly as a precedence, each with its operand, read one after the other without any grouping; a
left-hand side extended by precedence climbing is the left-hand side extended by the run, products
grouped first and everything grouped to the left.
-/
import SumProduct.Proofs.Grammar.Success

namespace SumProduct

/-! ## Grouping -/

namespace Run

variable {α β ω ψ : Type}

/-- Joins operands to a left-hand side, one after the other. -/
def joinLeft (join : α → ω → α → α) (lhs : α) (xs : List (ω × α)) : α :=
  xs.foldl (fun l x => join l x.1 x.2) lhs

/-- The operands behind loose operators, each with the tight operators behind it joined to it.
The first operator counts as loose. -/
def gather (join : α → ω → α → α) (tight : ω → Bool) : List (ω × α) → List (ω × α)
  | [] => []
  | (op, x) :: xs =>
    (op, joinLeft join x (xs.takeWhile fun y => tight y.1))
      :: gather join tight (xs.dropWhile fun y => tight y.1)
termination_by xs => xs.length
decreasing_by exact Nat.lt_succ_of_le (List.dropWhile_sublist _).length_le

/-- A left-hand side extended by a run: the tight operators group first, and operators that bind
equally group to the left. -/
def group (join : α → ω → α → α) (tight : ω → Bool) (lhs : α) (xs : List (ω × α)) : α :=
  joinLeft join (joinLeft join lhs (xs.takeWhile fun y => tight y.1))
    (gather join tight (xs.dropWhile fun y => tight y.1))

section

variable {join : α → ω → α → α} {tight : ω → Bool}

@[simp] theorem joinLeft_nil (lhs : α) : joinLeft join lhs ([] : List (ω × α)) = lhs := rfl

@[simp] theorem joinLeft_cons (lhs : α) (op : ω) (x : α) (xs : List (ω × α)) :
    joinLeft join lhs ((op, x) :: xs) = joinLeft join (join lhs op x) xs := rfl

@[simp] theorem group_nil (lhs : α) : group join tight lhs [] = lhs := by
  simp [group, gather]

theorem group_tight (lhs : α) {op : ω} (h : tight op = true) (x : α) (xs : List (ω × α)) :
    group join tight lhs ((op, x) :: xs) = group join tight (join lhs op x) xs := by
  simp [group, h]

/-- A loose operator, its operand with the tight operators behind it, and the rest of the run. -/
theorem group_loose (lhs : α) {op : ω} (h : tight op = false) (x : α) {xs ys : List (ω × α)}
    (hx : ∀ y ∈ xs, tight y.1 = true) (hy : ∀ y ∈ ys.head?, tight y.1 = false) :
    group join tight lhs ((op, x) :: (xs ++ ys)) =
      group join tight (join lhs op (joinLeft join x xs)) ys := by
  have htake : ys.takeWhile (fun y => tight y.1) = [] := by
    cases ys with
    | nil => rfl
    | cons y ys => simp [hy y rfl]
  have hdrop : ys.dropWhile (fun y => tight y.1) = ys := by
    cases ys with
    | nil => rfl
    | cons y ys => simp [hy y rfl]
  have hxs : ((op, x) :: (xs ++ ys)).takeWhile (fun y => tight y.1) = [] := by simp [h]
  have hxd : ((op, x) :: (xs ++ ys)).dropWhile (fun y => tight y.1) = (op, x) :: (xs ++ ys) := by
    simp [h]
  rw [group, hxs, hxd, gather, List.takeWhile_append_of_pos hx, List.dropWhile_append_of_pos hx,
    group, htake, hdrop]
  simp

end

/-! ## Grouping under a map -/

section

variable {join : α → ω → α → α} {tight : ω → Bool} {join' : β → ψ → β → β} {tight' : ψ → Bool}
  {f : α → β} {g : ω → ψ}

theorem map_joinLeft (hj : ∀ l op r, f (join l op r) = join' (f l) (g op) (f r)) (lhs : α)
    (xs : List (ω × α)) :
    f (joinLeft join lhs xs) = joinLeft join' (f lhs) (xs.map (Prod.map g f)) := by
  induction xs generalizing lhs with
  | nil => rfl
  | cons x xs ih =>
    obtain ⟨op, x⟩ := x
    simpa [hj] using ih (join lhs op x)

theorem map_gather (hj : ∀ l op r, f (join l op r) = join' (f l) (g op) (f r))
    (ht : ∀ op, tight' (g op) = tight op) (xs : List (ω × α)) :
    (gather join tight xs).map (Prod.map g f) = gather join' tight' (xs.map (Prod.map g f)) := by
  fun_induction gather join tight xs with
  | case1 => simp [gather]
  | case2 op x xs ih =>
    have hp : (fun y : ψ × β => tight' y.1) ∘ Prod.map g f = fun y => tight y.1 := by
      funext y
      exact ht y.1
    rw [List.map_cons, ih, List.map_cons, Prod.map_apply, Prod.map_apply, gather,
      List.takeWhile_map, List.dropWhile_map, hp, map_joinLeft hj]

/-- Grouping commutes with a map of the operands that respects joining. -/
theorem map_group (hj : ∀ l op r, f (join l op r) = join' (f l) (g op) (f r))
    (ht : ∀ op, tight' (g op) = tight op) (lhs : α) (xs : List (ω × α)) :
    f (group join tight lhs xs) = group join' tight' (f lhs) (xs.map (Prod.map g f)) := by
  have hp : (fun y : ψ × β => tight' y.1) ∘ Prod.map g f = fun y => tight y.1 := by
    funext y
    exact ht y.1
  rw [group, map_joinLeft hj, map_joinLeft hj, map_gather hj ht, group, List.takeWhile_map,
    List.dropWhile_map, hp]

end

end Run

/-- A tree extended by operators and operands, products grouped before sums. -/
def Tree.group : Tree → List (Operator × Tree) → Tree :=
  Run.group Tree.join fun op => op.kind = .times

namespace Grammar

open Outcome

/-! ## Operators of a precedence -/

theorem gives_operatorFrom {least : Precedence} {c c' : Cursor} {op : Operator} :
    (operatorFrom least c).Gives op c' ↔
      (operator c).Gives op c' ∧ least.rank ≤ op.precedence.rank := by
  simp [operatorFrom, gives_operatorIf]

theorem factor_le_iff {op : Operator} :
    Precedence.factor.rank ≤ op.precedence.rank ↔ op.kind = .times := by
  obtain ⟨kind, span⟩ := op
  cases kind <;> simp [Operator.precedence, OperatorKind.precedence, Precedence.rank]

/-- What binds more tightly than a term is a factor. -/
theorem operatorAbove_term (c : Cursor) : operatorAbove .term c = operatorFrom .factor c := rfl

/-- Nothing binds more tightly than a factor. -/
theorem operatorAbove_factor (c : Cursor) : ∃ e s, operatorAbove .factor c = .fail e s := by
  unfold operatorAbove operatorIf
  cases operator c with
  | fail e s => exact ⟨e, c, rfl⟩
  | ok op d h =>
    refine ⟨d.error .unsuitable, c, ?_⟩
    obtain ⟨kind, span⟩ := op
    cases kind <;> rfl

/-- An operator that separates factors counts for every precedence. -/
theorem operatorFrom_of_factor {least : Precedence} {c c' : Cursor} {op : Operator}
    (h : (operatorFrom .factor c).Gives op c') : (operatorFrom least c).Gives op c' := by
  obtain ⟨ho, hf⟩ := gives_operatorFrom.1 h
  refine gives_operatorFrom.2 ⟨ho, Nat.le_trans ?_ hf⟩
  cases least <;> decide

/-! ## Runs -/

/-- The operators ahead that bind at least as tightly as a precedence, each with its operand. -/
def run (least : Precedence) (c : Cursor) : Outcome (List (Operator × Tree)) (c.size + 1) :=
  match operatorFrom least c with
  | .fail _ _ => .ok [] c (Nat.lt_succ_self _)
  | .ok op c₁ h₁ =>
    match operand c₁ with
    | .fail e _ => .fail e c₁
    | .ok x c₂ h₂ =>
      ((run least c₂).map ((op, x) :: ·)).weaken
        (Nat.succ_le_succ (Nat.le_of_lt (Nat.lt_trans h₂ h₁)))
termination_by c.size

theorem gives_run_nil {least : Precedence} {c c' : Cursor} :
    (run least c).Gives [] c' ↔ c = c' ∧ ∀ op d, ¬ (operatorFrom least c).Gives op d := by
  rw [run]
  cases operatorFrom least c with
  | fail e s => simp
  | ok op c₁ h₁ =>
    cases ho : operand c₁ with
    | fail e s => simp [ho]
    | ok x c₂ h₂ => simp [ho]

theorem gives_run_cons {least : Precedence} {c c' : Cursor} {op : Operator} {x : Tree}
    {xs : List (Operator × Tree)} :
    (run least c).Gives ((op, x) :: xs) c' ↔ ∃ c₁ c₂, (operatorFrom least c).Gives op c₁ ∧
      (operand c₁).Gives x c₂ ∧ (run least c₂).Gives xs c' := by
  constructor
  · intro h
    rw [run] at h
    split at h
    · simp at h
    · rename_i o c₁ h₁ ho
      split at h
      · simp at h
      · rename_i y c₂ h₂ hy
        obtain ⟨ys, hys, he⟩ := gives_map.1 (gives_weaken.1 h)
        cases he
        exact ⟨c₁, c₂, ⟨h₁, ho⟩, ⟨h₂, hy⟩, hys⟩
  · rintro ⟨c₁, c₂, ⟨h₁, ho⟩, ⟨h₂, hx⟩, hxs⟩
    rw [run]
    simpa [ho, hx] using hxs

/-- A run is as long as possible: no further operator of the precedence is ahead. -/
theorem run_stops {least : Precedence} {xs : List (Operator × Tree)} :
    ∀ {c c' : Cursor}, (run least c).Gives xs c' →
      ∀ op d, ¬ (operatorFrom least c').Gives op d := by
  induction xs with
  | nil =>
    intro c c' h
    obtain ⟨rfl, hno⟩ := gives_run_nil.1 h
    exact hno
  | cons x xs ih =>
    intro c c' h
    obtain ⟨c₁, c₂, -, -, h⟩ := gives_run_cons.1 h
    exact ih h

theorem precedence_of_run {least : Precedence} {xs : List (Operator × Tree)} :
    ∀ {c c' : Cursor}, (run least c).Gives xs c' → ∀ x ∈ xs, least.rank ≤ x.1.precedence.rank := by
  induction xs with
  | nil => simp
  | cons x xs ih =>
    intro c c' h y hy
    obtain ⟨c₁, c₂, ho, -, h⟩ := gives_run_cons.1 h
    rcases List.mem_cons.1 hy with rfl | hy
    · exact (gives_operatorFrom.1 ho).2
    · exact ih h y hy

/-- A run starts with the factors ahead. -/
theorem run_eq_andThen (least : Precedence) (c : Cursor) :
    run least c = (run .factor c).andThen fun xs c' => (run least c').map (xs ++ ·) := by
  cases hf : operatorFrom .factor c with
  | fail e s =>
    have hr : run .factor c = .ok [] c (Nat.lt_succ_self _) := by rw [run, hf]
    rw [hr]
    cases hl : run least c <;> simp [hl]
  | ok op c₁ h₁ =>
    obtain ⟨_, hl⟩ := @operatorFrom_of_factor least c c₁ op ⟨h₁, hf⟩
    rw [run, run, hl, hf]
    dsimp only
    cases hx : operand c₁ with
    | fail e s => simp
    | ok x c₂ h₂ =>
      dsimp only
      rw [run_eq_andThen least c₂]
      cases run .factor c₂ with
      | fail e s => simp
      | ok xs c₃ h₃ => simp
termination_by c.size
decreasing_by exact Nat.lt_trans h₂ h₁

/-! ## Climbing -/

theorem precedence_of_times {op : Operator} (h : op.kind = .times) : op.precedence = .factor := by
  rw [Operator.precedence, h, OperatorKind.precedence]

theorem precedence_of_ne_times {op : Operator} (h : op.kind ≠ .times) : op.precedence = .term := by
  obtain ⟨kind, span⟩ := op
  cases kind <;> simp_all [Operator.precedence, OperatorKind.precedence]

theorem times_of_factor {c c' : Cursor} {op : Operator} (h : (operatorFrom .factor c).Gives op c') :
    op.kind = .times := factor_le_iff.1 (gives_operatorFrom.1 h).2

/-- Behind a factor the right-hand side is complete. -/
theorem completeRhs_factor (x : Tree) (c : Cursor) :
    completeRhs .factor x c = .ok x c (Nat.lt_succ_self _) := by
  obtain ⟨e, s, h⟩ := operatorAbove_factor c
  rw [completeRhs, h]

theorem chain_factor (lhs : Tree) (c : Cursor) :
    chain lhs .factor c = (run .factor c).map (Run.joinLeft Tree.join lhs) := by
  rw [chain, run]
  cases hf : operatorFrom .factor c with
  | fail e s => rfl
  | ok op c₁ h₁ =>
    have hop := precedence_of_times (times_of_factor ⟨h₁, hf⟩)
    dsimp only
    rw [chainFrom, ← operand]
    cases hx : operand c₁ with
    | fail e s => rfl
    | ok x c₂ h₂ =>
      dsimp only
      rw [hop, completeRhs_factor]
      dsimp only
      rw [chain_factor (lhs.join op x) c₂]
      simp
termination_by c.size
decreasing_by exact Nat.lt_trans h₂ h₁

/-- Behind a term the right-hand side takes in the factors ahead. -/
theorem completeRhs_term (x : Tree) (c : Cursor) :
    completeRhs .term x c = (run .factor c).map (Run.joinLeft Tree.join x) := by
  have hchain := chain_factor x c
  rw [chain] at hchain
  rw [completeRhs, operatorAbove_term]
  cases hf : operatorFrom .factor c with
  | fail e s => simpa [hf] using hchain
  | ok op c₁ h₁ =>
    rw [hf] at hchain
    dsimp only at hchain ⊢
    rw [precedence_of_times (times_of_factor ⟨h₁, hf⟩), ← hchain]
    cases hr : chainFrom x op .factor c₁ with
    | fail e s => rfl
    | ok r c₂ h₂ =>
      -- the chain of factors has run to its end, so one look ahead finishes the loop
      have hstop : ∀ o d, ¬ (operatorFrom .factor c₂).Gives o d := by
        rw [hr, weaken_ok] at hchain
        obtain ⟨xs, hxs, -⟩ := gives_map.1 (hchain ▸ gives_ok.2 ⟨rfl, rfl⟩)
        exact run_stops hxs
      dsimp only
      rw [completeRhs, operatorAbove_term]
      cases hs : operatorFrom .factor c₂ with
      | fail e s => rfl
      | ok o d hd => exact absurd ⟨hd, hs⟩ (hstop o d)

/-- Precedence climbing extends a left-hand side by the run ahead, grouped on two levels. -/
theorem chain_eq_run (lhs : Tree) (least : Precedence) (c : Cursor) :
    chain lhs least c = (run least c).map lhs.group := by
  rw [chain, run]
  cases hl : operatorFrom least c with
  | fail e s => simp [Tree.group]
  | ok op c₁ h₁ =>
    dsimp only
    rw [chainFrom, ← operand]
    cases hx : operand c₁ with
    | fail e s => rfl
    | ok x c₂ h₂ =>
      dsimp only
      by_cases hop : op.kind = .times
      · -- a tight operator joins its operand at once
        rw [precedence_of_times hop, completeRhs_factor]
        dsimp only
        rw [chain_eq_run (lhs.join op x) least c₂]
        simp [Tree.group, Run.group_tight, hop]
      · -- a loose one waits for the factors behind its operand
        rw [precedence_of_ne_times hop, completeRhs_term, run_eq_andThen least c₂]
        cases hr : run .factor c₂ with
        | fail e s => simp
        | ok xs c₃ h₃ =>
          simp only [map_ok, andThen_ok, map_weaken, map_map, weaken_weaken]
          rw [chain_eq_run (lhs.join op (Run.joinLeft Tree.join x xs)) least c₃]
          congr 1
          refine map_congr fun ys d hys => ?_
          have hxs : ∀ y ∈ xs, y.1.kind = .times := fun y hy =>
            factor_le_iff.1 (precedence_of_run ⟨h₃, hr⟩ y hy)
          have hhead : ∀ y ∈ ys.head?, ¬ y.1.kind = .times := by
            intro y hy ht
            obtain ⟨zs, rfl⟩ := List.head?_eq_some_iff.1 hy
            obtain ⟨c₄, c₅, ho, -, -⟩ := gives_run_cons.1 hys
            have hfactor := gives_operatorFrom.2 ⟨(gives_operatorFrom.1 ho).1, factor_le_iff.2 ht⟩
            exact run_stops ⟨h₃, hr⟩ y.1 c₄ hfactor
          rw [Tree.group, Run.group_loose lhs (by simpa using hop) x (by simpa using hxs)
            (by simpa using hhead)]
termination_by c.size
decreasing_by
  all_goals omega

end Grammar

end SumProduct
