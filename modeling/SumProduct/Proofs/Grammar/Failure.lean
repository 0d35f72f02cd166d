/-
What the failure of each reader means. A reader that declines lets the alternatives to it be tried;
the errors that are told in the end come from numerals without a value, from parentheses, and from
tokens that start no operand.
-/
import SumProduct.Proofs.Grammar.Success

namespace SumProduct

namespace Outcome

variable {α : Type} {n : Nat}

/-- A failure that is not fatal, behind which alternatives are tried. -/
def Declines (o : Outcome α n) : Prop := ∃ e s, o = .fail e s ∧ e.fatal = false

theorem Declines.backTo {o : Outcome α n} (h : o.Declines) (c : Cursor) :
    (o.backTo c).Declines := by
  obtain ⟨e, s, rfl, he⟩ := h
  exact ⟨e, c, rfl, he⟩

theorem Declines.orElse {o : Outcome α n} (h : o.Declines) (f : Unit → Outcome α n) :
    o.orElse f = f () := by
  obtain ⟨e, s, rfl, he⟩ := h
  simp [Outcome.orElse, he]

theorem Declines.map {β : Type} {o : Outcome α n} (h : o.Declines) (f : α → β) :
    (o.map f).Declines := by
  obtain ⟨e, s, rfl, he⟩ := h
  exact ⟨e, s, rfl, he⟩

end Outcome

namespace Grammar

open Outcome

/-! ## Single tokens -/

theorem stop_of_nextOf {stop : Nat} : ∀ {rest : List Token} {t : Token} {c : Cursor},
    (nextOf stop rest).Gives t c → c.stop = stop
  | [], _, _, h => by simp [nextOf] at h
  | u :: rest, t, c, h => by
    unfold nextOf at h
    split at h
    · exact stop_of_nextOf (gives_weaken.1 h)
    · obtain ⟨-, rfl⟩ := gives_ok.1 h
      rfl

/-- Reading does not move the end of the source. -/
theorem endSpan_of_next {c c' : Cursor} {t : Token} (h : (next c).Gives t c') :
    c'.endSpan = c.endSpan := by
  rw [Cursor.endSpan, Cursor.endSpan, stop_of_nextOf h]

theorem nextOf_fail {stop : Nat} : ∀ {rest : List Token} {e : SyntaxError} {s : Cursor},
    nextOf stop rest = .fail e s →
      (⟨rest, stop⟩ : Cursor).tokens = [] ∧ e = .atSpan (.point stop) .unexpectedEnd
  | [], e, s, h => by
    cases h
    exact ⟨rfl, rfl⟩
  | u :: rest, e, s, h => by
    unfold nextOf at h
    split at h
    · rename_i hu
      cases hr : nextOf stop rest with
      | ok t c hc => rw [hr] at h; cases h
      | fail e' s' =>
        rw [hr] at h
        cases h
        simpa [Cursor.tokens, hu] using nextOf_fail hr
    · cases h

/-- There is a next token, or there is none and that is an error at the end of the source. -/
theorem next_cases (c : Cursor) :
    (∃ t c', (next c).Gives t c') ∨
      c.tokens = [] ∧ ∃ s, next c = .fail (.atSpan c.endSpan .unexpectedEnd) s := by
  cases hn : next c with
  | ok t c' h => exact .inl ⟨t, c', gives_ok.2 ⟨rfl, rfl⟩⟩
  | fail e s =>
    obtain ⟨hc, rfl⟩ := nextOf_fail hn
    exact .inr ⟨hc, s, rfl⟩

theorem token_declines {kind : TokenKind} {c : Cursor}
    (h : ∀ t c', (next c).Gives t c' → t.kind ≠ kind) : (token kind c).Declines := by
  rcases next_cases c with ⟨t, c', hn⟩ | ⟨-, s, hn⟩
  · exact token_fail_of_kind hn (h t c' hn)
  · unfold token
    rw [hn]
    exact ⟨_, s, rfl, rfl⟩

/-- Looking ahead for a kind of token sees the next one. -/
theorem sees_of_next {kind : TokenKind} {c c' : Cursor} {t : Token} (h : (next c).Gives t c') :
    c.sees kind = true ↔ t.kind = kind := by
  rw [Cursor.sees_iff, tokens_of_next h]
  constructor
  · rintro ⟨u, us, hu, hk⟩
    cases hu
    exact hk
  · intro hk
    exact ⟨t, c'.tokens, rfl, hk⟩

/-! ## Literals -/

theorem numberBy_declines {value : String → Option Number} {c : Cursor}
    (h : ∀ t c', (next c).Gives t c' → t.kind ≠ .integer ∧ t.kind ≠ .decimal) :
    (numberBy value c).Declines := by
  have hi : (token .integer c).Declines := token_declines fun t c' ht => (h t c' ht).1
  have hd : (token .decimal c).Declines := token_declines fun t c' ht => (h t c' ht).2
  obtain ⟨e, s, he, hf⟩ := hd.backTo c
  refine ⟨e, s, ?_, hf⟩
  rw [numberBy, (hi.backTo c).orElse, he]

/-- A numeral without a value is a fatal error. -/
theorem numberBy_of_none {value : String → Option Number} {c c' : Cursor} {t : Token}
    (hn : (next c).Gives t c') (hk : t.kind = .integer ∨ t.kind = .decimal)
    (hv : value t.lexeme = none) :
    numberBy value c = .fail (.fatalAtSpan t.span (.invalidNumber t.lexeme)) c' := by
  obtain ⟨hd, ht⟩ := gives_numeral.2 ⟨hn, hk⟩
  simp only [numberBy, ht, hv]

theorem literal_declines {c : Cursor} (h : ∀ t c', (next c).Gives t c' →
    t.kind ≠ .integer ∧ t.kind ≠ .decimal ∧ t.kind ≠ .name) : (literal c).Declines := by
  have hnum : (number c).Declines :=
    numberBy_declines fun t c' ht => ⟨(h t c' ht).1, (h t c' ht).2.1⟩
  have hname : (token .name c).Declines := token_declines fun t c' ht => (h t c' ht).2.2
  rw [literal, (hnum.backTo c).orElse]
  exact (hname.backTo c).map _

/-- A numeral that is too large fails fatally, so it is not taken for anything else. -/
theorem literal_of_too_large {c c' : Cursor} {t : Token} (hn : (next c).Gives t c')
    (hk : t.kind = .integer ∨ t.kind = .decimal)
    (hv : Number.ofDecimal? (Decimal.read t.lexeme) = none) :
    ∃ s, literal c = .fail (.fatalAtSpan t.span (.invalidNumber t.lexeme)) s := by
  have hnum : number c = .fail (.fatalAtSpan t.span (.invalidNumber t.lexeme)) c' :=
    numberBy_of_none hn hk hv
  refine ⟨c, ?_⟩
  rw [literal, hnum]
  rfl

/-! ## Operands -/

/-- Where no literal is ahead, an operand is a parenthesis or missing. -/
theorem operand_of_literal_declines {c : Cursor} (h : (literal c).Declines) :
    operand c = ((paren c).backTo c).orElse fun _ => noOperand c := by
  rw [operand, operandOr, (h.backTo c).orElse]

/-- A fatal error in place of a literal is the error of the operand. -/
theorem operand_of_literal_fatal {c s : Cursor} {e : SyntaxError} (h : literal c = .fail e s)
    (he : e.fatal = true) : operand c = .fail e c := by
  simp [operand, operandOr, h, backTo, orElse, he]

theorem paren_declines {c : Cursor} (h : ∀ t c', (next c).Gives t c' → t.kind ≠ .openParen) :
    (paren c).Declines := by
  obtain ⟨e, s, he, hf⟩ := (token_declines h).backTo c
  refine ⟨e, s, ?_, hf⟩
  rw [paren, he]

theorem paren_of_empty {c c₁ : Cursor} {t : Token} (ho : (token .openParen c).Gives t c₁)
    (hs : c₁.sees .closeParen = true) : paren c = .fail (c₁.fatalError .emptyParen) c₁ := by
  obtain ⟨h₁, ho⟩ := ho
  rw [paren, ho]
  simp only [backTo, hs, if_true]

/-- An error within a parenthesis is passed on. -/
theorem paren_of_expr_fail {c c₁ s : Cursor} {t : Token} {e : SyntaxError}
    (ho : (token .openParen c).Gives t c₁) (hs : c₁.sees .closeParen = false)
    (he : expr c₁ = .fail e s) : paren c = .fail e c₁ := by
  obtain ⟨h₁, ho⟩ := ho
  rw [paren, ho]
  simp only [backTo, hs, Bool.false_eq_true, if_false, he]

theorem paren_of_unclosed {c c₁ c₂ : Cursor} {t : Token} {inner : Tree}
    (ho : (token .openParen c).Gives t c₁) (hs : c₁.sees .closeParen = false)
    (hi : (expr c₁).Gives inner c₂)
    (hc : ∀ u d, (next c₂).Gives u d → u.kind ≠ .closeParen) :
    paren c = .fail (.fatalAtSpan t.span (.unclosedParen true)) c₂ := by
  obtain ⟨h₁, ho⟩ := ho
  obtain ⟨h₂, hi⟩ := hi
  obtain ⟨e, s, he, -⟩ := token_declines hc
  rw [paren, ho]
  simp only [backTo, hs, Bool.false_eq_true, if_false, hi, he]

/-- A fatal error in a parenthesis is the error of the operand. -/
theorem operand_of_paren_fatal {c s : Cursor} {e : SyntaxError} (hl : (literal c).Declines)
    (hp : paren c = .fail e s) (he : e.fatal = true) : operand c = .fail e c := by
  rw [operand_of_literal_declines hl, hp]
  simp only [backTo, orElse, he, if_true]

/-- Any other error in a parenthesis is dropped, and the parenthesis itself is unexpected. -/
theorem operand_of_paren_declines {c : Cursor} (hl : (literal c).Declines)
    (hp : (paren c).Declines) : operand c = noOperand c := by
  rw [operand_of_literal_declines hl, (hp.backTo c).orElse]

/-- Where neither a literal nor a parenthesis is ahead, no operand is. -/
theorem operand_eq_noOperand {c : Cursor} (h : ∀ t c', (next c).Gives t c' →
    t.kind ≠ .integer ∧ t.kind ≠ .decimal ∧ t.kind ≠ .name ∧ t.kind ≠ .openParen) :
    operand c = noOperand c := by
  have hl : (literal c).Declines := literal_declines fun t c' ht =>
    ⟨(h t c' ht).1, (h t c' ht).2.1, (h t c' ht).2.2.1⟩
  exact operand_of_paren_declines hl (paren_declines fun t c' ht => (h t c' ht).2.2.2)

theorem noOperand_of_opening {c c' : Cursor} {t : Token} (hn : (next c).Gives t c')
    (hk : t.kind = .openParen) : noOperand c = .fail (.atSpan t.span
      (.unexpectedToken [.integer, .decimal, .name, .openParen] .openParen)) c' := by
  obtain ⟨h, hn⟩ := hn
  unfold noOperand
  rw [hn]
  simp only [hk]

theorem noOperand_of_end {c s : Cursor} {e : SyntaxError} (h : next c = .fail e s) :
    noOperand c = .fail e s := by
  unfold noOperand
  rw [h]

end Grammar

end SumProduct
