/-
Expressions that are written and read again. The text of an expression, with its sums and products
in parentheses, is read as the same expression but for the numbers, each of which becomes the one
that is read from its own text.
-/
import SumProduct.Proofs.Number.Shortest
import SumProduct.Proofs.Grammar.Spelling

namespace SumProduct

/-- Symbols are named by what matches the pattern of names. -/
theorem isSymbolName_iff_matches {name : String} :
    isSymbolName name = true ↔ TokenKind.name.Matches name.toList := by
  simp [isSymbolName, TokenKind.Matches]

namespace Expr

open Grammar

/-! ## Numbers of expressions -/

/-- The numbers at the leaves from left to right. -/
def numbers : Expr → List Number
  | number n => [n]
  | symbol _ => []
  | sum l r => l.numbers ++ r.numbers
  | product l r => l.numbers ++ r.numbers

/-- The expression with every number replaced, and nothing else. -/
def mapNumbers (f : Number → Number) : Expr → Expr
  | number n => number (f n)
  | symbol x => symbol x
  | sum l r => sum (l.mapNumbers f) (r.mapNumbers f)
  | product l r => product (l.mapNumbers f) (r.mapNumbers f)

theorem mapNumbers_eq_self_iff {f : Number → Number} {e : Expr} :
    e.mapNumbers f = e ↔ ∀ n ∈ e.numbers, f n = n := by
  induction e with
  | number n => simp [mapNumbers, numbers]
  | symbol x => simp [mapNumbers, numbers]
  | sum l r ihl ihr | product l r ihl ihr =>
    simp only [mapNumbers, numbers, List.forall_mem_append, ← ihl, ← ihr, sum.injEq, product.injEq]

/-! ## Derivations of expressions -/

/-- The derivation of the text of an expression. -/
def derivation : Expr → Derivation .factor
  | number n => .numeral n.sixPlaceNumeral
  | symbol x => .name x.name
  | sum l r => .paren (.sum (.term (.factor l.derivation)) (.factor r.derivation))
  | product l r => .paren (.term (.product (.factor l.derivation) r.derivation))

theorem text_derivation (e : Expr) : e.derivation.text = e.text := by
  induction e with
  | number n => exact Derivation.text_numeral.trans n.text_eq_sixPlaceNumeral.symm
  | symbol x => rfl
  | sum l r ihl ihr | product l r ihl ihr =>
    simp only [derivation, Derivation.text, text, ihl, ihr, String.append_assoc]

theorem isReadable_derivation (e : Expr) : e.derivation.IsReadable := by
  induction e with
  | number n => exact Derivation.isReadable_numeral n.ofDecimal?_sixPlaceNumeral
  | symbol x =>
    intro w hw
    obtain rfl := List.mem_singleton.1 hw
    exact ⟨isSymbolName_iff_matches.1 x.valid, rfl⟩
  | sum l r ihl ihr => exact Derivation.isReadable_paren.2 (Derivation.isReadable_sum.2 ⟨ihl, ihr⟩)
  | product l r ihl ihr =>
    exact Derivation.isReadable_paren.2 (Derivation.isReadable_product.2 ⟨ihl, ihr⟩)

/-- The derivation stands for the expression with the numbers that are read from their texts. -/
theorem expr_shape_derivation (e : Expr) :
    e.derivation.shape.expr = .ok (e.mapNumbers Number.reread) := by
  induction e with
  | number n =>
    rw [derivation, Derivation.shape_numeral n.ofDecimal?_sixPlaceNumeral, Shape.expr, ofDouble,
      Number.ofDouble_toDouble]
    rfl
  | symbol x =>
    show ofName x.name = .ok (symbol x)
    rw [ofName, Symbol.ofName, dif_pos x.valid]
  | sum l r ihl ihr =>
    rw [derivation, Derivation.shape, Shape.expr, Derivation.shape, Shape.expr]
    simp only [Derivation.shape, ihl, ihr]
    rfl
  | product l r ihl ihr =>
    rw [derivation, Derivation.shape, Shape.expr, Derivation.shape, Derivation.shape, Shape.expr]
    simp only [Derivation.shape, ihl, ihr]
    rfl

/-! ## Written and read -/

theorem parse_of_shape {source : String} {t : Tree} {e : Expr} (ht : Tree.parse source = .ok t)
    (he : t.shape.expr = .ok e) : parse source = .ok e := by
  unfold parse
  rw [ht]
  dsimp only
  rw [ofTree_eq_shape, he]

/-- An expression that was read is that of a tree. -/
theorem exists_shape_of_parse {source : String} {e : Expr} (h : parse source = .ok e) :
    ∃ t, Tree.parse source = .ok t ∧ t.shape.expr = .ok e := by
  unfold parse at h
  split at h
  · cases h
  · rename_i t ht
    split at h
    · cases h
    · rename_i e' he
      cases h
      rw [ofTree_eq_shape] at he
      exact ⟨t, ht, he⟩

/-- The text of an expression is read, and its numbers become what is read from theirs. -/
theorem parse_text (e : Expr) : parse e.text = .ok (e.mapNumbers Number.reread) := by
  have hreadable : (Derivation.term (.factor e.derivation)).IsReadable := isReadable_derivation e
  obtain ⟨t, ht, hshape⟩ := Derivation.exists_parse_text hreadable
  have htext : (Derivation.term (.factor e.derivation)).text = e.text := text_derivation e
  rw [htext] at ht
  apply parse_of_shape ht
  rw [hshape]
  exact expr_shape_derivation e

theorem parse_text_eq_self_iff {e : Expr} :
    parse e.text = .ok e ↔ ∀ n ∈ e.numbers, n.reread = n := by
  rw [parse_text, Except.ok.injEq, mapNumbers_eq_self_iff]

/-- The text of an expression is read as the expression with every number replaced by the double
that is read from its own text, so it is read as the same expression exactly if every number of it
is read from its own text. -/
theorem parse_text_round_trip (e : Expr) :
    parse e.text = .ok (e.mapNumbers Number.reread) ∧
      (∀ n : Number, n.reread.toDouble = (Decimal.read n.text).toDouble) ∧
      (parse e.text = .ok e ↔
        ∀ n ∈ e.numbers, Number.ofDecimal? (Decimal.read n.text) = some n) := by
  refine ⟨parse_text e, ?_, ?_⟩
  · intro n
    exact (Number.ofDecimal?_eq_some_iff.1 n.ofDecimal?_read_text).2
  · rw [parse_text_eq_self_iff]
    simp only [Number.ofDecimal?_read_text, Option.some.injEq]

end Expr

end SumProduct
