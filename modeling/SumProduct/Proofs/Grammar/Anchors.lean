/-
Where errors point to, and what is there. Whatever phrase is asked for and however, an error has one
region: that of a token ahead of the cursor where reading began, of which the cause is true, or the
end of the source. A reader fails with such an error wherever behind that cursor it begins, so it
does not matter which of the readers within a phrase has failed and which errors were dropped for
it.
-/
import SumProduct.Proofs.Grammar.Discipline
import SumProduct.Proofs.Grammar.Pass

namespace SumProduct

/-! ## Causes at their places -/

namespace Cause

/-- Whether a cause keeps alternatives from being tried. -/
def isFatal : Cause → Bool
  | invalidNumber _ | unclosedParen _ | emptyParen => true
  | unsuitable | unexpectedEnd | expectedEnd | unexpectedToken .. | unknownCharacter _ => false

/-- What a cause says of a token, and of the tokens before it, where a phrase was asked for. -/
def Tells (p : Phrase) (before : List Token) (t : Token) : Cause → Prop
  | unsuitable => p = .binary
  | unexpectedEnd => False
  | expectedEnd => t.kind ≠ .closeParen ∧ t.kind ≠ .other
  | unexpectedToken _ found => t.kind = found
  | unknownCharacter text => t.kind = .other ∧ t.lexeme = text
  | invalidNumber lexeme =>
    (t.kind = .integer ∨ t.kind = .decimal) ∧ t.lexeme = lexeme ∧
      (Decimal.read lexeme).toDouble.isFinite = false
  | unclosedParen opening => t.kind = if opening then .openParen else .closeParen
  | emptyParen =>
    t.kind = .closeParen ∧ ∃ opening, before.getLast? = some opening ∧ opening.kind = .openParen

end Cause

namespace Cursor

/-- An error of reading a phrase from a cursor on. It points at the end of the source, which was not
expected, or at a token ahead that is as its cause says, and is fatal exactly for its cause. -/
structure Anchors (start : Cursor) (p : Phrase) (e : SyntaxError) : Prop where
  fatal : e.fatal = e.cause.isFatal
  place : (e.spans = [start.endSpan] ∧ e.cause = .unexpectedEnd) ∨
    ∃ before t after, start.tokens = before ++ t :: after ∧ e.spans = [t.span] ∧
      e.cause.Tells p before t

/-- A cursor behind another one, or the same: the tokens ahead of it are the last ones ahead of the
other. -/
structure Behind (start c : Cursor) : Prop where
  tokens : c.tokens <:+ start.tokens
  stop : c.endSpan = start.endSpan

namespace Behind

variable {start c c' : Cursor} {p : Phrase} {t : Token}

theorem refl (c : Cursor) : Behind c c := ⟨List.suffix_refl _, rfl⟩

theorem trans (h : Behind start c) (h' : Behind c c') : Behind start c' :=
  ⟨h'.tokens.trans h.tokens, h'.stop.trans h.stop⟩

theorem of_next (h : (Grammar.next c).Gives t c') : Behind c c' := by
  refine ⟨?_, Grammar.endSpan_of_next h⟩
  rw [Grammar.tokens_of_next h]
  exact List.suffix_cons t _

theorem of_operand {v : Tree} (h : (Grammar.operand c).Gives v c') : Behind c c' :=
  Grammar.leads_of_operand (fun _ _ _ => of_next) (fun _ _ _ => trans) h

theorem of_read {x : Item} (h : (p.read c).Gives x c') : Behind c c' :=
  Grammar.leads_of_read (fun _ _ _ => of_next) (fun _ _ _ => trans) h

/-- Where nothing is ahead any more. -/
theorem anchors_end (h : Behind start c) : start.Anchors p (.atSpan c.endSpan .unexpectedEnd) := by
  refine ⟨rfl, .inl ⟨?_, rfl⟩⟩
  rw [h.stop]
  rfl

/-- At the next token, whatever is before it. -/
theorem anchors_next {cause : Cause} (h : Behind start c) (hn : (Grammar.next c).Gives t c')
    (hcause : ∀ before, cause.Tells p before t) :
    start.Anchors p ⟨[t.span], cause, cause.isFatal⟩ := by
  obtain ⟨before, hbefore⟩ := h.tokens
  rw [Grammar.tokens_of_next hn] at hbefore
  exact ⟨rfl, .inr ⟨before, t, c'.tokens, hbefore.symm, rfl, hcause before⟩⟩

/-- At the token behind the next one, which is before it. -/
theorem anchors_second {cause : Cause} {u : Token} {d : Cursor} (h : Behind start c)
    (hn : (Grammar.next c).Gives t c') (hu : (Grammar.next c').Gives u d)
    (hcause : ∀ before, cause.Tells p (before ++ [t]) u) :
    start.Anchors p ⟨[u.span], cause, cause.isFatal⟩ := by
  obtain ⟨before, hbefore⟩ := h.tokens
  rw [Grammar.tokens_of_next hn, Grammar.tokens_of_next hu, List.append_cons] at hbefore
  exact ⟨rfl, .inr ⟨before ++ [t], u, d.tokens, hbefore.symm, rfl, hcause before⟩⟩

end Behind

end Cursor

/-! ## Readers that fail with errors of a kind -/

namespace Outcome

variable {α β : Type} {m n : Nat} {P : SyntaxError → Prop}

/-- A failure is one of a kind. -/
def FailsWith (P : SyntaxError → Prop) : Outcome α n → Prop
  | ok .. => True
  | fail e _ => P e

theorem FailsWith.of_result {o : Outcome α n} (h : o.FailsWith P) {e : SyntaxError}
    (he : o.result = .error e) : P e := by
  cases o with
  | ok v c hc => cases he
  | fail e' s =>
    cases he
    exact h

theorem FailsWith.backTo {o : Outcome α n} (h : o.FailsWith P) (c : Cursor) :
    (o.backTo c).FailsWith P := by
  cases o with
  | ok v d hd => exact trivial
  | fail e s => exact h

theorem FailsWith.map {o : Outcome α n} (h : o.FailsWith P) (f : α → β) :
    (o.map f).FailsWith P := by
  cases o with
  | ok v d hd => exact trivial
  | fail e s => exact h

theorem FailsWith.weaken {o : Outcome α m} (h : o.FailsWith P) (hmn : m ≤ n) :
    (o.weaken hmn).FailsWith P := by
  cases o with
  | ok v d hd => exact trivial
  | fail e s => exact h

theorem FailsWith.orElse {o : Outcome α n} {f : Unit → Outcome α n} (h : o.FailsWith P)
    (hf : (f ()).FailsWith P) : (o.orElse f).FailsWith P := by
  cases o with
  | ok v d hd => exact trivial
  | fail e s =>
    unfold Outcome.orElse
    dsimp only
    split
    · exact h
    · exact hf

theorem FailsWith.andThen {o : Outcome α n} {f : α → (c : Cursor) → Outcome β (c.size + 1)}
    (h : o.FailsWith P) (hf : ∀ v c, o.Gives v c → (f v c).FailsWith P) :
    (o.andThen f).FailsWith P := by
  cases o with
  | ok v d hd => exact (hf v d (gives_ok.2 ⟨rfl, rfl⟩)).weaken hd
  | fail e s => exact h

end Outcome

namespace Grammar

open Outcome

section

variable {start c : Cursor} {p : Phrase}

/-! ## Tokens and literals -/

theorem failsWith_next (h : start.Behind c) : (next c).FailsWith (start.Anchors p) := by
  rcases next_cases c with ⟨t, c', hn⟩ | ⟨-, s, hn⟩
  · obtain ⟨_, ho⟩ := hn
    rw [ho]
    exact trivial
  · rw [hn]
    exact h.anchors_end

theorem failsWith_token (kind : TokenKind) (h : start.Behind c) :
    (token kind c).FailsWith (start.Anchors p) := by
  have hnext := failsWith_next (p := p) h
  unfold token
  cases hn : next c with
  | fail e s =>
    rw [hn] at hnext
    exact hnext
  | ok t c' hc =>
    dsimp only
    split
    · exact trivial
    · exact h.anchors_next ⟨hc, hn⟩ fun _ => rfl

theorem failsWith_operator (h : start.Behind c) : (operator c).FailsWith (start.Anchors p) := by
  have hnext := failsWith_next (p := p) h
  unfold operator
  cases hn : next c with
  | fail e s =>
    rw [hn] at hnext
    exact hnext
  | ok t c' hc =>
    dsimp only
    split
    · exact trivial
    · exact h.anchors_next ⟨hc, hn⟩ fun _ => rfl

/-- A number fails at a token that is no numeral, or at a numeral without a value. -/
theorem failsWith_numberBy {value : String → Option Number} (h : start.Behind c)
    (hvalue : ∀ numeral, value numeral = none → (Decimal.read numeral).toDouble.isFinite = false) :
    (numberBy value c).FailsWith (start.Anchors p) := by
  have hnumeral :
      (((token .integer c).backTo c).orElse fun _ => (token .decimal c).backTo c).FailsWith
        (start.Anchors p) :=
    ((failsWith_token .integer h).backTo c).orElse ((failsWith_token .decimal h).backTo c)
  unfold numberBy
  split
  · rename_i e s ho
    rw [ho] at hnumeral
    exact hnumeral
  · rename_i t c' hc ho
    obtain ⟨hn, hk⟩ := gives_numeral.1 ⟨hc, ho⟩
    split
    · exact trivial
    · rename_i hv
      exact h.anchors_next hn fun _ => ⟨hk, rfl, hvalue t.lexeme hv⟩

theorem failsWith_number (h : start.Behind c) : (number c).FailsWith (start.Anchors p) :=
  failsWith_numberBy h fun _ => Number.isFinite_of_ofDecimal?_eq_none

theorem failsWith_symbol (h : start.Behind c) : (symbol c).FailsWith (start.Anchors p) :=
  ((failsWith_token .name h).backTo c).map _

theorem failsWith_literal (h : start.Behind c) : (literal c).FailsWith (start.Anchors p) :=
  ((failsWith_number h).backTo c).orElse (failsWith_symbol h)

/-! ## Operands and expressions -/

theorem failsWith_noOperand (h : start.Behind c) : (noOperand c).FailsWith (start.Anchors p) := by
  have hnext := failsWith_next (p := p) h
  unfold noOperand
  cases hn : next c with
  | fail e s =>
    rw [hn] at hnext
    exact hnext
  | ok t c' hc =>
    dsimp only
    split
    · rename_i hk
      exact h.anchors_next ⟨hc, hn⟩ fun _ => hk
    · rename_i hk
      exact h.anchors_next ⟨hc, hn⟩ fun _ => ⟨hk, rfl⟩
    · exact h.anchors_next ⟨hc, hn⟩ fun _ => rfl

/-- An operand fails as a literal, as a parenthesis or as neither. -/
theorem failsWith_operand (h : start.Behind c) (hp : (paren c).FailsWith (start.Anchors p)) :
    (operand c).FailsWith (start.Anchors p) := by
  unfold operand operandOr
  exact ((failsWith_literal h).backTo c).orElse ((hp.backTo c).orElse (failsWith_noOperand h))

end

mutual

theorem failsWith_paren {start c : Cursor} {p : Phrase} (h : start.Behind c) :
    (paren c).FailsWith (start.Anchors p) := by
  have hopen := (failsWith_token (p := p) .openParen h).backTo c
  rw [paren]
  split
  · rename_i e s ho
    rw [ho] at hopen
    exact hopen
  · rename_i opening c₁ h₁ ho
    obtain ⟨hn, hk⟩ := gives_token.1 (gives_backTo.1 ⟨h₁, ho⟩)
    have hinner := h.trans (.of_next hn)
    split
    · rename_i hs
      obtain ⟨closing, d, hclosing, hkind, hspan⟩ := exists_next_of_sees hs
      rw [Cursor.fatalError, hspan]
      exact h.anchors_second hn hclosing fun before =>
        ⟨hkind, opening, List.getLast?_concat, hk⟩
    · have hexpr := failsWith_expr (p := p) hinner
      split
      · rename_i e s he
        rw [he] at hexpr
        exact hexpr
      · split
        · exact h.anchors_next hn fun _ => hk
        · exact trivial
termination_by 2 * c.size

theorem failsWith_expr {start c : Cursor} {p : Phrase} (h : start.Behind c) :
    (expr c).FailsWith (start.Anchors p) := by
  cases hs : c.sees .closeParen with
  | true =>
    obtain ⟨t, c', hn, hk, hspan⟩ := exists_next_of_sees hs
    rw [expr, if_pos hs, Cursor.fatalError, hspan]
    exact h.anchors_next hn fun _ => hk
  | false =>
    rw [expr_eq_andThen hs]
    refine ((failsWith_operand h (failsWith_paren h)).backTo c).andThen fun lhs c₁ ho => ?_
    have ho := gives_backTo.1 ho
    have hlt := ho.size_lt
    exact (failsWith_run .any (h.trans (.of_operand ho))).map _
termination_by 2 * c.size + 1

theorem failsWith_run {start c : Cursor} {p : Phrase} (least : Precedence) (h : start.Behind c) :
    (run least c).FailsWith (start.Anchors p) := by
  rw [run]
  split
  · exact trivial
  · rename_i op c₁ h₁ ho
    obtain ⟨t, hn, -⟩ := gives_operator.1 (gives_operatorFrom.1 ⟨h₁, ho⟩).1
    have hbehind := h.trans (.of_next hn)
    have hoperand := failsWith_operand hbehind (failsWith_paren (p := p) hbehind)
    split
    · rename_i e s hx
      rw [hx] at hoperand
      exact hoperand
    · rename_i x c₂ h₂ hx
      have hrest := hbehind.trans (.of_operand ⟨h₂, hx⟩)
      exact ((failsWith_run least hrest).map _).weaken _
termination_by 2 * c.size

end

/-! ## Phrases -/

section

variable {start c : Cursor}

/-- Where an operator with its operands was asked for, something else is the wrong answer. -/
theorem failsWith_binary (h : start.Behind c) : (binary c).FailsWith (start.Anchors .binary) := by
  have hexpr := (failsWith_expr (p := .binary) h).backTo c
  unfold binary
  split
  · rename_i e s he
    rw [he] at hexpr
    exact hexpr
  · rename_i v c' hc he
    split
    · exact trivial
    · obtain ⟨t, c₁, hn⟩ : ∃ t c₁, (next c).Gives t c₁ :=
        leads_of_expr (R := fun a _ => ∃ t b, (next a).Gives t b) (fun _ t b hn => ⟨t, b, hn⟩)
          (fun _ _ _ ha _ => ha) (gives_backTo.1 ⟨hc, he⟩)
      rw [Cursor.error, span_of_next hn]
      exact h.anchors_next hn fun _ => rfl

theorem failsWith_read (p : Phrase) (h : start.Behind c) :
    (p.read c).FailsWith (start.Anchors p) := by
  cases p with
  | expr => exact (failsWith_expr h).map _
  | operand => exact (failsWith_operand h (failsWith_paren h)).map _
  | literal => exact (failsWith_literal h).map _
  | number => exact (failsWith_number h).map _
  | symbol => exact (failsWith_symbol h).map _
  | paren => exact (failsWith_paren h).map _
  | binary => exact (failsWith_binary h).map _
  | operator => exact (failsWith_operator h).map _

/-- What is left over behind a phrase is told by its kind. -/
theorem failsWith_readAll (p : Phrase) (h : start.Behind c) :
    (p.readAll c).FailsWith (start.Anchors p) := by
  have hread := failsWith_read p h
  unfold Phrase.readAll complete
  cases hx : p.read c with
  | fail e s =>
    rw [hx] at hread
    exact hread
  | ok x c' hc =>
    have hbehind := h.trans (.of_read ⟨hc, hx⟩)
    dsimp only
    split
    · exact trivial
    · rename_i t ht
      rw [Cursor.peek?_eq_head?, List.head?_eq_some_iff] at ht
      obtain ⟨ts, ht⟩ := ht
      obtain ⟨d, hn, -⟩ := next_of_tokens ht
      unfold trailing
      split
      · rename_i hk
        exact hbehind.anchors_next hn fun _ => hk
      · rename_i hk
        exact hbehind.anchors_next hn fun _ => ⟨hk, rfl⟩
      · rename_i hclose hother
        exact hbehind.anchors_next hn fun _ => ⟨hclose, hother⟩

end

end Grammar

/-! ## All walks -/

namespace Walk

theorem result_of_follow {α : Type} {n : Nat} {w : Walk} {o : Outcome α n} {answer : α → Answer}
    (hanswer : ∀ v e, answer v ≠ .error e) {e : SyntaxError}
    (h : (w.follow o answer).1 = .error e) : o.result = .error e := by
  cases o with
  | ok v c hc => exact absurd h (hanswer v e)
  | fail e' s =>
    cases h
    rfl

/-- Whatever moves were made, an error of reading a phrase, with or without going back and to the
end of the source or not, is anchored in the tokens ahead of the index where the cursor stood. -/
theorem error_anchored {source : String} {ms : List Move} {p : Phrase} {m : Move}
    (hm : m = .read p ∨ m = .tryRead p ∨ m = .readAll p) {e : SyntaxError}
    (he : (((start source).after ms).step m).1 = .error e) :
    ∃ i, ((start source).after ms).cursor.StandsAt source i ∧
      ((start source).after ms).cursor.Anchors p e := by
  obtain ⟨i, hi⟩ := (inside_after source ms).cursor
  refine ⟨i, hi, ?_⟩
  generalize (start source).after ms = w at he
  have hbehind := Cursor.Behind.refl w.cursor
  rcases hm with rfl | rfl | rfl
  · exact (Grammar.failsWith_read p hbehind).of_result (result_of_follow nofun he)
  · exact ((Grammar.failsWith_read p hbehind).backTo _).of_result (result_of_follow nofun he)
  · exact (Grammar.failsWith_readAll p hbehind).of_result (result_of_follow nofun he)

/-- Behind `x` in `x ()` the error of a parenthesis points at the closing one. -/
theorem error_anchored_empty :
    (((start "x ()").after [.read .symbol]).step (.tryRead .paren)).1 =
        .error (.fatalAtSpan ⟨3, 4⟩ .emptyParen) ∧
      ((start "x ()").after [.read .symbol]).cursor.Anchors .paren
        (.fatalAtSpan ⟨3, 4⟩ .emptyParen) := by
  have herror : (((start "x ()").after [.read .symbol]).step (.tryRead .paren)).1 =
      .error (.fatalAtSpan ⟨3, 4⟩ .emptyParen) := by decide +kernel
  obtain ⟨i, -, h⟩ := error_anchored (.inr (.inl rfl)) herror
  exact ⟨herror, h⟩

end Walk

end SumProduct
