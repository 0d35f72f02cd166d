/-
What the success of each reader means: which readers succeeded within it, on which tokens, and
what became of their values. The alternatives of an operand start with different kinds of tokens,
so the order in which they are tried does not matter to success.
-/
import SumProduct.Proofs.Cursor.Tokens
import SumProduct.Grammar.Expr

namespace SumProduct.Grammar

open Outcome

/-! ## Literals -/

/-- A numeral, whole or with a point. -/
theorem gives_numeral {c c' : Cursor} {t : Token} :
    (((token .integer c).backTo c).orElse fun _ => (token .decimal c).backTo c).Gives t c' ↔
      (next c).Gives t c' ∧ (t.kind = .integer ∨ t.kind = .decimal) := by
  simp only [gives_orElse, gives_backTo, gives_token]
  constructor
  · rintro (⟨hn, hk⟩ | ⟨-, hn, hk⟩)
    · exact ⟨hn, .inl hk⟩
    · exact ⟨hn, .inr hk⟩
  · rintro ⟨hn, hk | hk⟩
    · exact .inl ⟨hn, hk⟩
    · have hi : t.kind ≠ .integer := by simp [hk]
      obtain ⟨e, s, he, hf⟩ := token_fail_of_kind hn hi
      exact .inr ⟨⟨e, c, by simp [he, backTo], hf⟩, hn, hk⟩

theorem gives_numberBy {value : String → Option Number} {c c' : Cursor} {v : Tree} :
    (numberBy value c).Gives v c' ↔ ∃ t n, (next c).Gives t c' ∧
      (t.kind = .integer ∨ t.kind = .decimal) ∧ value t.lexeme = some n ∧
      v = .number n.toDouble t.span := by
  constructor
  · intro h
    unfold numberBy at h
    split at h
    · simp at h
    · rename_i t d hd ht
      obtain ⟨hn, hk⟩ := gives_numeral.1 ⟨hd, ht⟩
      split at h
      · rename_i n hv
        obtain ⟨rfl, rfl⟩ := gives_ok.1 h
        exact ⟨t, n, hn, hk, hv, rfl⟩
      · simp at h
  · rintro ⟨t, n, hn, hk, hv, rfl⟩
    obtain ⟨hd, ht⟩ := gives_numeral.2 ⟨hn, hk⟩
    simp [numberBy, ht, hv]

/-- A number is read where the next token is a numeral that is not too large. -/
theorem gives_number {c c' : Cursor} {v : Tree} :
    (number c).Gives v c' ↔ ∃ t n, (next c).Gives t c' ∧ (t.kind = .integer ∨ t.kind = .decimal) ∧
      Number.ofDecimal? (Decimal.read t.lexeme) = some n ∧ v = .number n.toDouble t.span :=
  gives_numberBy

theorem gives_symbol {c c' : Cursor} {v : Tree} :
    (symbol c).Gives v c' ↔
      ∃ t, (next c).Gives t c' ∧ t.kind = .name ∧ v = .symbol t.lexeme t.span := by
  simp only [symbol, gives_map, gives_backTo, gives_token]
  constructor
  · rintro ⟨t, ⟨hn, hk⟩, rfl⟩
    exact ⟨t, hn, hk, rfl⟩
  · rintro ⟨t, hn, hk, rfl⟩
    exact ⟨t, ⟨hn, hk⟩, rfl⟩

/-- A token that is no numeral lets alternatives to a number be tried. -/
theorem number_fail_of_kind {c c' : Cursor} {t : Token} (h : (next c).Gives t c')
    (hi : t.kind ≠ .integer) (hd : t.kind ≠ .decimal) :
    ∃ e s, number c = .fail e s ∧ e.fatal = false := by
  obtain ⟨e₁, s₁, h₁, hf₁⟩ := token_fail_of_kind h hi
  obtain ⟨e₂, s₂, h₂, hf₂⟩ := token_fail_of_kind h hd
  refine ⟨e₂, c, ?_, hf₂⟩
  simp [number, numberBy, h₁, h₂, backTo, orElse, hf₁]

theorem gives_literal {c c' : Cursor} {v : Tree} :
    (literal c).Gives v c' ↔ (number c).Gives v c' ∨ (symbol c).Gives v c' := by
  simp only [literal, gives_orElse, gives_backTo]
  constructor
  · rintro (h | ⟨-, h⟩)
    · exact .inl h
    · exact .inr h
  · rintro (h | h)
    · exact .inl h
    · obtain ⟨t, hn, hk, -⟩ := gives_symbol.1 h
      obtain ⟨e, s, he, hf⟩ := number_fail_of_kind hn (by simp [hk]) (by simp [hk])
      exact .inr ⟨⟨e, c, by simp [he, backTo], hf⟩, h⟩

/-- A token that is no literal lets alternatives to a literal be tried. -/
theorem literal_fail_of_kind {c c' : Cursor} {t : Token} (h : (next c).Gives t c')
    (hi : t.kind ≠ .integer) (hd : t.kind ≠ .decimal) (hn : t.kind ≠ .name) :
    ∃ e s, literal c = .fail e s ∧ e.fatal = false := by
  obtain ⟨e₁, s₁, h₁, hf₁⟩ := number_fail_of_kind h hi hd
  obtain ⟨e₂, s₂, h₂, hf₂⟩ := token_fail_of_kind h hn
  refine ⟨e₂, c, ?_, hf₂⟩
  simp [literal, symbol, h₁, h₂, backTo, orElse, hf₁, Outcome.map]

/-! ## Operands and parentheses -/

theorem not_gives_noOperand {c c' : Cursor} {v : Tree} : ¬ (noOperand c).Gives v c' := by
  unfold noOperand
  cases next c with
  | fail e s => simp
  | ok t d h =>
    dsimp only
    split <;> simp

theorem gives_paren {c c' : Cursor} {v : Tree} :
    (paren c).Gives v c' ↔ ∃ opening c₁ inner c₂ closing,
      (token .openParen c).Gives opening c₁ ∧ c₁.sees .closeParen = false ∧
      (expr c₁).Gives inner c₂ ∧ (token .closeParen c₂).Gives closing c' ∧
      v = .paren inner (opening.span.cover closing.span) := by
  constructor
  · intro h
    rw [paren] at h
    -- the four ways to fail are passed by one after the other
    split at h
    · simp at h
    rename_i opening c₁ h₁ ho
    split at h
    · simp at h
    rename_i hs
    split at h
    · simp at h
    rename_i inner c₂ h₂ hi
    split at h
    · simp at h
    rename_i closing c₃ h₃ hc
    obtain ⟨rfl, rfl⟩ := gives_ok.1 h
    exact ⟨opening, c₁, inner, c₂, closing, gives_backTo.1 ⟨h₁, ho⟩, by simpa using hs,
      ⟨h₂, hi⟩, ⟨h₃, hc⟩, rfl⟩
  · rintro ⟨opening, c₁, inner, c₂, closing, ⟨h₁, ho⟩, hs, ⟨h₂, hi⟩, ⟨h₃, hc⟩, rfl⟩
    rw [paren]
    simp [ho, backTo, hs, hi, hc]

theorem gives_operand {c c' : Cursor} {v : Tree} :
    (operand c).Gives v c' ↔ (literal c).Gives v c' ∨ (paren c).Gives v c' := by
  simp only [operand, operandOr, gives_orElse, gives_backTo, not_gives_noOperand, and_false,
    or_false]
  constructor
  · rintro (h | ⟨-, h⟩)
    · exact .inl h
    · exact .inr h
  · rintro (h | h)
    · exact .inl h
    · -- the literal tried first fails at the parenthesis, and not fatally
      obtain ⟨t, c₁, -, -, -, ho, -⟩ := gives_paren.1 h
      obtain ⟨hn, hk⟩ := gives_token.1 ho
      obtain ⟨e, s, he, hf⟩ := literal_fail_of_kind hn (by simp [hk]) (by simp [hk]) (by simp [hk])
      exact .inr ⟨⟨e, c, by simp [he, backTo], hf⟩, h⟩

/-! ## Expressions -/

/-- No operand starts with a closing parenthesis. -/
theorem sees_closeParen_of_operand {c c' : Cursor} {v : Tree} (h : (operand c).Gives v c') :
    c.sees .closeParen = false := by
  have key : ∃ t d, (next c).Gives t d ∧ t.kind ≠ .closeParen := by
    rcases gives_operand.1 h with h | h
    · rcases gives_literal.1 h with h | h
      · obtain ⟨t, -, hn, hk, -⟩ := gives_number.1 h
        exact ⟨t, _, hn, by rcases hk with hk | hk <;> simp [hk]⟩
      · obtain ⟨t, hn, hk, -⟩ := gives_symbol.1 h
        exact ⟨t, _, hn, by simp [hk]⟩
    · obtain ⟨t, c₁, -, -, -, ho, -⟩ := gives_paren.1 h
      obtain ⟨hn, hk⟩ := gives_token.1 ho
      exact ⟨t, _, hn, by simp [hk]⟩
  obtain ⟨t, d, hn, hk⟩ := key
  rw [← Bool.not_eq_true, Cursor.sees_iff]
  rintro ⟨u, us, hu, huk⟩
  rw [tokens_of_next hn] at hu
  cases hu
  exact hk huk

theorem gives_expr {c c' : Cursor} {v : Tree} :
    (expr c).Gives v c' ↔ ∃ lhs c₁, (operand c).Gives lhs c₁ ∧ (chain lhs .any c₁).Gives v c' := by
  constructor
  · intro h
    rw [expr] at h
    split at h
    · simp at h
    · split at h
      · simp at h
      · rename_i lhs c₁ h₁ ho
        exact ⟨lhs, c₁, ⟨h₁, ho⟩, gives_weaken.1 h⟩
  · rintro ⟨lhs, c₁, ho, hc⟩
    have hs := sees_closeParen_of_operand ho
    obtain ⟨h₁, ho⟩ := ho
    rw [operand] at ho
    rw [expr]
    simpa [hs, ho] using hc

end SumProduct.Grammar
