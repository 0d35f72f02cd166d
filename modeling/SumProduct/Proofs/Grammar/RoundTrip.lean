/-
Trees that are written and read again. A tree is written without any parentheses but its own, so it
is read back only because trees that were read group as the grammar does. Such a tree has a
derivation, and the derivation with the shortest numerals in it is spelt by the text of the tree.
-/
import SumProduct.Proofs.Number.Shortest
import SumProduct.Proofs.Grammar.Spelling

namespace SumProduct

namespace Grammar.Derivation

/-- A numeral that can be read stands for a number, and the shortest numeral of the number can be
read for it. -/
theorem exists_shortest {lexeme : String} (h : (Decimal.read lexeme).toDouble.isFinite = true) :
    ∃ f : Derivation .factor, f.text = (Decimal.read lexeme).toDouble.text ∧
      f.shape = .number (Decimal.read lexeme).toDouble ∧ f.IsReadable := by
  obtain ⟨n, hn⟩ := Number.exists_ofDecimal? h
  have hvalue : n.toDouble = (Decimal.read lexeme).toDouble :=
    (Number.ofDecimal?_eq_some_iff.1 hn).2
  refine ⟨numeral n.shortestNumeral, ?_, ?_, isReadable_numeral n.ofDecimal?_shortestNumeral⟩
  · rw [text_numeral, ← n.text_toDouble, hvalue]
  · rw [shape_numeral n.ofDecimal?_shortestNumeral, hvalue]

/-- The shape of a derivation that can be read is written as the text of a derivation that can be
read and stands for the same shape. -/
theorem exists_spelling {n : Nonterminal} {d : Derivation n} (hd : d.IsReadable) :
    ∃ d' : Derivation n, d'.text = d.shape.text ∧ d'.shape = d.shape ∧ d'.IsReadable := by
  induction d with
  | term t ih =>
    obtain ⟨t', htext, hshape, ht'⟩ := ih hd
    exact ⟨.term t', htext, hshape, ht'⟩
  | factor f ih =>
    obtain ⟨f', htext, hshape, hf'⟩ := ih hd
    exact ⟨.factor f', htext, hshape, hf'⟩
  | sum e t ihe iht =>
    obtain ⟨he, ht⟩ := isReadable_sum.1 hd
    obtain ⟨e', hetext, heshape, he'⟩ := ihe he
    obtain ⟨t', httext, htshape, ht'⟩ := iht ht
    have hsign : " + " = " " ++ OperatorKind.plus.text ++ " " := rfl
    refine ⟨.sum e' t', ?_, ?_, isReadable_sum.2 ⟨he', ht'⟩⟩
    · simp only [text, shape, Shape.text, hetext, httext, hsign, String.append_assoc]
    · rw [shape, shape, heshape, htshape]
  | product t f iht ihf =>
    obtain ⟨ht, hf⟩ := isReadable_product.1 hd
    obtain ⟨t', httext, htshape, ht'⟩ := iht ht
    obtain ⟨f', hftext, hfshape, hf'⟩ := ihf hf
    have hsign : " * " = " " ++ OperatorKind.times.text ++ " " := rfl
    refine ⟨.product t' f', ?_, ?_, isReadable_product.2 ⟨ht', hf'⟩⟩
    · simp only [text, shape, Shape.text, httext, hftext, hsign, String.append_assoc]
    · rw [shape, shape, htshape, hfshape]
  | integer lexeme => exact exists_shortest (hd _ (List.mem_singleton_self _)).2
  | decimal lexeme => exact exists_shortest (hd _ (List.mem_singleton_self _)).2
  | name lexeme => exact ⟨.name lexeme, rfl, rfl, hd⟩
  | paren e ih =>
    obtain ⟨e', htext, hshape, he'⟩ := ih (isReadable_paren.1 hd)
    refine ⟨.paren e', ?_, ?_, isReadable_paren.2 he'⟩
    · rw [text, shape, Shape.text, htext]
    · rw [shape, shape, hshape]

end Grammar.Derivation

namespace Tree

open Grammar

/-- The text of a tree that was read is read as a tree that differs only in the regions of its
parts, so it has the same text and spells the same expression. -/
theorem parse_text_of_parse {source : String} {t : Tree} (h : parse source = .ok t) :
    ∃ t', parse t.text = .ok t' ∧ t'.shape = t.shape ∧ t'.text = t.text ∧
      Expr.ofTree t' = Expr.ofTree t := by
  obtain ⟨d, -, hshape, hd⟩ := Derivation.exists_of_parse h
  obtain ⟨d', htext', hshape', hd'⟩ := Derivation.exists_spelling hd
  obtain ⟨t', ht', hread⟩ := Derivation.exists_parse_text hd'
  have hsame : t'.shape = t.shape := by
    rw [hread, hshape', hshape]
  refine ⟨t', ?_, hsame, ?_, ?_⟩
  · rwa [text_eq_shape, hshape, ← htext']
  · rw [text_eq_shape, text_eq_shape, hsame]
  · rw [Expr.ofTree_eq_shape, Expr.ofTree_eq_shape, hsame]

/-- A product of a sum in parentheses, spelt with blanks in odd places. -/
theorem parse_text_of_parse_spaced :
    ∃ t t', parse "( x+2 )*y\n" = .ok t ∧ parse t.text = .ok t' ∧ t'.shape = t.shape ∧
      t'.text = t.text ∧ Expr.ofTree t' = Expr.ofTree t := by
  have h : parse "( x+2 )*y\n" = .ok (.binary
      (.paren (.binary (.symbol "x" ⟨2, 3⟩) ⟨.plus, ⟨3, 4⟩⟩
        (.number ⟨0x4000000000000000⟩ ⟨4, 5⟩) ⟨2, 5⟩) ⟨0, 7⟩)
      ⟨.times, ⟨7, 8⟩⟩ (.symbol "y" ⟨8, 9⟩) ⟨0, 9⟩) := by
    decide +kernel
  obtain ⟨t', ht'⟩ := parse_text_of_parse h
  exact ⟨_, t', h, ht'⟩

end Tree

end SumProduct
