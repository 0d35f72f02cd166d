/-
Phrases against whole expressions. A source that is a phrase of any kind is an expression, and the
tree is the same one, with the same regions; an expression whose tree has the form of a phrase is
that phrase. So the order in which alternatives are tried loses and adds nothing.
-/
import SumProduct.Proofs.Grammar.Progress

namespace SumProduct

/-- Whether a tree has the form of a phrase. -/
def Phrase.Admits : Phrase → Tree → Prop
  | expr, _ => True
  | operand, .number .. | operand, .symbol .. | operand, .paren .. => True
  | literal, .number .. | literal, .symbol .. => True
  | number, .number .. => True
  | symbol, .symbol .. => True
  | paren, .paren .. => True
  | binary, .binary .. => True
  | _, _ => False

/-! ## Grouping -/

namespace Tree

/-- Joining operands to a tree makes it binary, unless there are none. -/
theorem binary_joinLeft {lhs : Tree} {xs : List (Operator × Tree)}
    (h : Phrase.binary.Admits lhs ∨ xs ≠ []) : Phrase.binary.Admits (Run.joinLeft join lhs xs) := by
  induction xs generalizing lhs with
  | nil => exact h.resolve_right fun hne => hne rfl
  | cons x xs ih => exact ih (.inl trivial)

theorem binary_group (lhs : Tree) {xs : List (Operator × Tree)} (h : xs ≠ []) :
    Phrase.binary.Admits (lhs.group xs) := by
  unfold group Run.group
  apply binary_joinLeft
  cases hdrop : xs.dropWhile fun y => decide (y.1.kind = .times) with
  | nil =>
    have htake : (xs.takeWhile fun y => decide (y.1.kind = .times)) = xs := by
      rw [← List.append_nil (xs.takeWhile _), ← hdrop, List.takeWhile_append_dropWhile]
    rw [htake]
    exact .inl (binary_joinLeft (.inr h))
  | cons y ys =>
    right
    rw [Run.gather]
    exact List.cons_ne_nil _ _

end Tree

namespace Grammar

open Outcome

variable {c c' : Cursor} {t : Tree}

/-! ## Operands and expressions -/

/-- At the end of a source an operand is an expression. -/
theorem expr_of_operand (h : (operand c).Gives t c') (hend : c'.tokens = []) :
    (expr c).Gives t c' := by
  have hstop : ∀ op d, ¬ (operatorFrom .any c').Gives op d := by
    intro op d hop
    obtain ⟨u, hn, -⟩ := gives_operator.1 (gives_operatorFrom.1 hop).1
    rw [tokens_of_next hn] at hend
    cases hend
  refine gives_expr.2 ⟨t, c', h, ?_⟩
  rw [chain_eq_run]
  exact gives_map.2 ⟨[], gives_run_nil.2 ⟨rfl, hstop⟩, Run.group_nil t⟩

/-- An expression is an operand with nothing joined to it, or binary. -/
theorem operand_or_binary_of_expr (h : (expr c).Gives t c') :
    (operand c).Gives t c' ∨ Phrase.binary.Admits t := by
  obtain ⟨lhs, c₁, ho, hc⟩ := gives_expr.1 h
  rw [chain_eq_run] at hc
  obtain ⟨xs, hr, rfl⟩ := gives_map.1 hc
  cases xs with
  | nil =>
    obtain ⟨rfl, -⟩ := gives_run_nil.1 hr
    rw [Tree.group, Run.group_nil]
    exact .inl ho
  | cons x xs => exact .inr (Tree.binary_group lhs (List.cons_ne_nil x xs))

/-! ## Kinds of operands -/

theorem admits_of_number (h : (number c).Gives t c') : Phrase.number.Admits t := by
  obtain ⟨_, _, -, -, -, rfl⟩ := gives_number.1 h
  exact trivial

theorem admits_of_symbol (h : (symbol c).Gives t c') : Phrase.symbol.Admits t := by
  obtain ⟨_, -, -, rfl⟩ := gives_symbol.1 h
  exact trivial

theorem admits_of_paren (h : (paren c).Gives t c') : Phrase.paren.Admits t := by
  obtain ⟨_, _, _, _, _, -, -, -, -, rfl⟩ := gives_paren.1 h
  exact trivial

/-- The form of its tree tells which alternative an operand was read by. -/
theorem gives_operand_by_form : (operand c).Gives t c' ↔ match t with
    | .number .. => (number c).Gives t c'
    | .symbol .. => (symbol c).Gives t c'
    | .paren .. => (paren c).Gives t c'
    | .binary .. => False := by
  rw [gives_operand, gives_literal]
  cases t with
  | number v s =>
    refine ⟨?_, fun h => .inl (.inl h)⟩
    rintro ((h | h) | h)
    · exact h
    · exact (admits_of_symbol h).elim
    · exact (admits_of_paren h).elim
  | symbol name s =>
    refine ⟨?_, fun h => .inl (.inr h)⟩
    rintro ((h | h) | h)
    · exact (admits_of_number h).elim
    · exact h
    · exact (admits_of_paren h).elim
  | paren inner s =>
    refine ⟨?_, fun h => .inr h⟩
    rintro ((h | h) | h)
    · exact (admits_of_number h).elim
    · exact (admits_of_symbol h).elim
    · exact h
  | binary lhs op rhs s =>
    refine ⟨?_, False.elim⟩
    rintro ((h | h) | h)
    · exact (admits_of_number h).elim
    · exact (admits_of_symbol h).elim
    · exact (admits_of_paren h).elim

theorem gives_number_iff :
    (number c).Gives t c' ↔ (operand c).Gives t c' ∧ Phrase.number.Admits t := by
  rw [gives_operand_by_form]
  cases t with
  | number v s => exact (and_iff_left trivial).symm
  | _ => exact ⟨fun h => (admits_of_number h).elim, fun h => h.2.elim⟩

theorem gives_symbol_iff :
    (symbol c).Gives t c' ↔ (operand c).Gives t c' ∧ Phrase.symbol.Admits t := by
  rw [gives_operand_by_form]
  cases t with
  | symbol name s => exact (and_iff_left trivial).symm
  | _ => exact ⟨fun h => (admits_of_symbol h).elim, fun h => h.2.elim⟩

theorem gives_paren_iff :
    (paren c).Gives t c' ↔ (operand c).Gives t c' ∧ Phrase.paren.Admits t := by
  rw [gives_operand_by_form]
  cases t with
  | paren inner s => exact (and_iff_left trivial).symm
  | _ => exact ⟨fun h => (admits_of_paren h).elim, fun h => h.2.elim⟩

theorem gives_literal_iff :
    (literal c).Gives t c' ↔ (operand c).Gives t c' ∧ Phrase.literal.Admits t := by
  rw [gives_literal, gives_number_iff, gives_symbol_iff, ← and_or_left]
  cases t <;> simp [Phrase.Admits]

/-! ## Phrases to the end of a source -/

theorem gives_operand_iff (hend : c'.tokens = []) :
    (operand c).Gives t c' ↔ (expr c).Gives t c' ∧ Phrase.operand.Admits t := by
  constructor
  · intro h
    refine ⟨expr_of_operand h hend, ?_⟩
    rw [gives_operand_by_form] at h
    cases t with
    | binary lhs op rhs s => exact h
    | _ => exact trivial
  · rintro ⟨h, hadmits⟩
    rcases operand_or_binary_of_expr h with h | hbinary
    · exact h
    · cases t with
      | binary lhs op rhs s => exact hadmits.elim
      | _ => exact hbinary.elim

/-- At the end of a source, an operand of some form is an expression of this form. -/
theorem gives_iff_expr {p : Phrase} {o : Outcome Tree c.size} (hend : c'.tokens = [])
    (ho : o.Gives t c' ↔ (operand c).Gives t c' ∧ p.Admits t)
    (hp : p.Admits t → Phrase.operand.Admits t) :
    o.Gives t c' ↔ (expr c).Gives t c' ∧ p.Admits t := by
  rw [ho, gives_operand_iff hend, and_assoc, and_iff_right_of_imp hp]

end Grammar

namespace Phrase

open Outcome

/-- Every form but that of an operator with its operands is one of an operand. -/
theorem Admits.operand {p : Phrase} {t : Tree} (h : p.Admits t) (hexpr : p ≠ .expr)
    (hbinary : p ≠ .binary) : operand.Admits t := by
  cases t with
  | binary lhs op rhs s =>
    cases p with
    | expr => exact absurd rfl hexpr
    | binary => exact absurd rfl hbinary
    | _ => exact h
  | _ => exact trivial

/-- At the end of a source, a phrase is an expression of its form. -/
theorem gives_read_iff {c c' : Cursor} {p : Phrase} (hp : p ≠ .operator) (hend : c'.tokens = [])
    {x : Item} :
    (p.read c).Gives x c' ↔ ∃ t, ((Grammar.expr c).Gives t c' ∧ p.Admits t) ∧ .tree t = x := by
  cases p with
  | operator => exact absurd rfl hp
  | expr =>
    exact gives_map.trans (exists_congr fun t => and_congr_left' (and_iff_left trivial).symm)
  | operand =>
    exact gives_map.trans (exists_congr fun t => and_congr_left' (Grammar.gives_operand_iff hend))
  | literal =>
    exact gives_map.trans (exists_congr fun t => and_congr_left'
      (Grammar.gives_iff_expr hend Grammar.gives_literal_iff fun h => h.operand nofun nofun))
  | number =>
    exact gives_map.trans (exists_congr fun t => and_congr_left'
      (Grammar.gives_iff_expr hend Grammar.gives_number_iff fun h => h.operand nofun nofun))
  | symbol =>
    exact gives_map.trans (exists_congr fun t => and_congr_left'
      (Grammar.gives_iff_expr hend Grammar.gives_symbol_iff fun h => h.operand nofun nofun))
  | paren =>
    exact gives_map.trans (exists_congr fun t => and_congr_left'
      (Grammar.gives_iff_expr hend Grammar.gives_paren_iff fun h => h.operand nofun nofun))
  | binary =>
    refine gives_map.trans (exists_congr fun t => and_congr_left' ?_)
    rw [Grammar.gives_binary]
    cases t <;> simp [Admits]

/-- Phrases agree with expressions: a source is read as a phrase that is no operator exactly if it
is read as an expression whose tree has the form of the phrase, and then the two trees are the same
with all their regions. -/
theorem readAll_iff_expr (source : String) {p : Phrase} (hp : p ≠ .operator) (x : Item) :
    (p.readAll (.ofSource source)).result = .ok x ↔
      ∃ t, (expr.readAll (.ofSource source)).result = .ok (.tree t) ∧ p.Admits t ∧ x = .tree t := by
  generalize Cursor.ofSource source = c
  constructor
  · intro h
    obtain ⟨c', h⟩ := result_eq_ok.1 h
    obtain ⟨hx, hend⟩ := gives_complete.1 h
    obtain ⟨t, ⟨ht, hadmits⟩, rfl⟩ := (gives_read_iff hp (Cursor.peek?_eq_none.1 hend)).1 hx
    have hexpr : (expr.readAll c).Gives (.tree t) c' :=
      gives_complete.2 ⟨gives_map.2 ⟨t, ht, rfl⟩, hend⟩
    exact ⟨t, result_eq_ok.2 ⟨c', hexpr⟩, hadmits, rfl⟩
  · rintro ⟨t, h, hadmits, rfl⟩
    obtain ⟨c', h⟩ := result_eq_ok.1 h
    obtain ⟨hx, hend⟩ := gives_complete.1 h
    obtain ⟨t', ht, heq⟩ := gives_map.1 hx
    cases heq
    have hread := (gives_read_iff hp (Cursor.peek?_eq_none.1 hend)).2 ⟨t, ⟨ht, hadmits⟩, rfl⟩
    exact result_eq_ok.2 ⟨c', gives_complete.2 ⟨hread, hend⟩⟩

/-- What is in parentheses is a parenthesis and an expression, but no literal. -/
theorem readAll_iff_expr_paren :
    ∃ t, (paren.readAll (.ofSource "(x + 1)")).result = .ok (.tree t) ∧
      (expr.readAll (.ofSource "(x + 1)")).result = .ok (.tree t) ∧
      (literal.readAll (.ofSource "(x + 1)")).result ≠ .ok (.tree t) := by
  have hparen : (paren.readAll (.ofSource "(x + 1)")).result =
      .ok (.tree (.paren (.binary (.symbol "x" ⟨1, 2⟩) ⟨.plus, ⟨3, 4⟩⟩
        (.number ⟨0x3FF0000000000000⟩ ⟨5, 6⟩) ⟨1, 6⟩) ⟨0, 7⟩)) := by
    decide +kernel
  obtain ⟨t, hexpr, -, ht⟩ := (readAll_iff_expr "(x + 1)" (p := paren) nofun _).1 hparen
  cases ht
  refine ⟨_, hparen, hexpr, fun h => ?_⟩
  obtain ⟨t, -, hadmits, ht⟩ := (readAll_iff_expr "(x + 1)" (p := literal) nofun _).1 h
  cases ht
  exact hadmits

end Phrase

end SumProduct
