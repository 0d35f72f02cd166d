/-
Reading in one pass. A pass goes over the tokens from left to right, keeps the opening parentheses
that are not closed yet, and knows at each token whether an operand or an operator has to come. Its
first failure is the error of reading, whatever alternatives were tried and given up on the way.
-/
import SumProduct.Proofs.Grammar.Run
import SumProduct.Proofs.Grammar.Failure
import SumProduct.Proofs.Number.Numeral
import SumProduct.Parse

namespace SumProduct.Grammar

open Outcome

/-! ## Passes -/

/-- What a pass looks for at the next token. -/
inductive Position where
  | operand
  /-- An operand directly behind an opening parenthesis. -/
  | opened
  | operator
deriving DecidableEq, Repr

/-- A pass under way, with the opening parentheses not closed yet, the innermost first. -/
structure Pass where
  position : Position
  unclosed : List Token
deriving DecidableEq

namespace Pass

def start : Pass := ⟨.operand, []⟩

/-- The kinds of tokens that an operand starts with. -/
def operandKinds : List TokenKind := [.integer, .decimal, .name, .openParen]

/-- An opening parenthesis told to be unexpected. -/
def unexpectedOpening (opening : Token) : SyntaxError :=
  .atSpan opening.span (.unexpectedToken operandKinds .openParen)

/-- The error of a missing operand. Within parentheses the outermost one is blamed instead of the
token where the operand is missing. -/
def missingOperand (unclosed : List Token) (e : SyntaxError) : SyntaxError :=
  (unclosed.getLast?.map unexpectedOpening).getD e

/-- Goes over a token where an operand has to come. -/
def stepOperand (closing : Cause) (unclosed : List Token) (t : Token) : Except SyntaxError Pass :=
  match t.kind with
  | .name => .ok ⟨.operator, unclosed⟩
  | .integer | .decimal =>
    if (Decimal.read t.lexeme).toDouble.isFinite then .ok ⟨.operator, unclosed⟩
    else .error (.fatalAtSpan t.span (.invalidNumber t.lexeme))
  | .openParen => .ok ⟨.opened, t :: unclosed⟩
  | .closeParen => .error (.fatalAtSpan t.span closing)
  | .other => .error (missingOperand unclosed (.atSpan t.span (.unknownCharacter t.lexeme)))
  | .plus | .times | .whitespace =>
    .error (missingOperand unclosed (.atSpan t.span (.unexpectedToken operandKinds t.kind)))

/-- Goes over a token where an operator has to come, or a closing parenthesis. -/
def stepOperator (unclosed : List Token) (t : Token) : Except SyntaxError Pass :=
  match t.kind, unclosed with
  | .plus, _ | .times, _ => .ok ⟨.operand, unclosed⟩
  | .closeParen, _ :: outer => .ok ⟨.operator, outer⟩
  | _, opening :: _ => .error (.fatalAtSpan opening.span (.unclosedParen true))
  | .closeParen, [] => .error (.fatalAtSpan t.span (.unclosedParen false))
  | .other, [] => .error (.atSpan t.span (.unknownCharacter t.lexeme))
  | _, [] => .error (.atSpan t.span .expectedEnd)

def step (p : Pass) (t : Token) : Except SyntaxError Pass :=
  match p.position with
  | .operand => stepOperand (.unclosedParen false) p.unclosed t
  | .opened => stepOperand .emptyParen p.unclosed t
  | .operator => stepOperator p.unclosed t

/-- What is wrong at the end of the source, if anything. -/
def finish (p : Pass) (stop : Span) : Option SyntaxError :=
  match p.position, p.unclosed with
  | .operator, [] => none
  | .operator, opening :: _ => some (.fatalAtSpan opening.span (.unclosedParen true))
  | _, unclosed => some (missingOperand unclosed (.atSpan stop .unexpectedEnd))

/-- Goes over tokens up to the first that fails. -/
def run (p : Pass) (ts : List Token) : Except SyntaxError Pass := ts.foldlM step p

/-- The first failure over all tokens of a source and its end. -/
def firstFailure (p : Pass) (stop : Span) (ts : List Token) : Option SyntaxError :=
  match p.run ts with
  | .ok q => q.finish stop
  | .error e => some e

/-- The first failure over what is ahead of a cursor. -/
def ahead (p : Pass) (c : Cursor) : Option SyntaxError := p.firstFailure c.endSpan c.tokens

@[simp] theorem run_nil (p : Pass) : p.run [] = .ok p := rfl

theorem run_cons (p : Pass) (t : Token) (ts : List Token) :
    p.run (t :: ts) = p.step t >>= fun q => q.run ts := rfl

theorem run_append (p : Pass) (ts us : List Token) :
    p.run (ts ++ us) = p.run ts >>= fun q => q.run us := List.foldlM_append

theorem ahead_of_ok {p q : Pass} {c c' : Cursor} {t : Token} (hn : (next c).Gives t c')
    (h : p.step t = .ok q) : p.ahead c = q.ahead c' := by
  rw [ahead, ahead, firstFailure, tokens_of_next hn, run_cons, h, endSpan_of_next hn]
  rfl

theorem ahead_of_error {p : Pass} {c c' : Cursor} {t : Token} {e : SyntaxError}
    (hn : (next c).Gives t c') (h : p.step t = .error e) : p.ahead c = some e := by
  rw [ahead, firstFailure, tokens_of_next hn, run_cons, h]
  rfl

/-- Passes that take the next token alike agree on everything ahead. -/
theorem ahead_congr {p q : Pass} {c c' : Cursor} {t : Token} (hn : (next c).Gives t c')
    (h : p.step t = q.step t) : p.ahead c = q.ahead c := by
  rw [ahead, ahead, firstFailure, firstFailure, tokens_of_next hn, run_cons, run_cons, h]

theorem ahead_of_end (p : Pass) {c : Cursor} (h : c.tokens = []) :
    p.ahead c = p.finish c.endSpan := by
  rw [ahead, firstFailure, h, run_nil]

/-! ## Errors within parentheses -/

/-- What becomes of an error within parentheses: a fatal one stays, any other gives way to the
outermost parenthesis. -/
def escalate (unclosed : List Token) (e : SyntaxError) : SyntaxError :=
  if e.fatal then e else missingOperand unclosed e

theorem escalate_of_fatal {e : SyntaxError} (h : e.fatal = true) (unclosed : List Token) :
    escalate unclosed e = e := if_pos h

@[simp] theorem escalate_nil (e : SyntaxError) : escalate [] e = e := by
  simp [escalate, missingOperand]

theorem escalate_atSpan (unclosed : List Token) (s : Span) (cause : Cause) :
    escalate unclosed (.atSpan s cause) = missingOperand unclosed (.atSpan s cause) := rfl

/-- An error within one more parenthesis is first told of that one. -/
theorem escalate_cons {e : SyntaxError} (h : e.fatal = false) (opening : Token)
    (unclosed : List Token) :
    escalate (opening :: unclosed) e = escalate unclosed (unexpectedOpening opening) := by
  rw [escalate, if_neg (by simp [h]), unexpectedOpening, escalate_atSpan]
  cases hl : unclosed.getLast? with
  | none => simp [missingOperand, List.getLast?_cons, hl, unexpectedOpening]
  | some o => simp [missingOperand, List.getLast?_cons, hl]

end Pass

/-! ## Readers and passes -/

/-- Reading agrees with a pass: where it succeeds the pass comes to an operator, and where it fails
the pass fails with the error that is told at this depth of parentheses. -/
def Follows {α : Type} {n : Nat} (o : Outcome α n) (p : Pass) (c : Cursor) : Prop :=
  match o with
  | .ok _ c' _ => p.ahead c = (Pass.mk .operator p.unclosed).ahead c'
  | .fail e _ => p.ahead c = some (Pass.escalate p.unclosed e)

theorem follows_ok {α : Type} {n : Nat} {o : Outcome α n} {p : Pass} {c c' : Cursor} {v : α}
    (h : o.Gives v c') : Follows o p c ↔ p.ahead c = (Pass.mk .operator p.unclosed).ahead c' := by
  obtain ⟨hc, rfl⟩ := h
  rfl

/-- A reader that fails at the next token as the pass does. -/
theorem follows_fail {α : Type} {n : Nat} {p : Pass} {c c' s : Cursor} {t : Token} {e : SyntaxError}
    (hn : (next c).Gives t c') (h : p.step t = .error (Pass.escalate p.unclosed e)) :
    Follows (.fail e s : Outcome α n) p c := Pass.ahead_of_error hn h

theorem follows_weaken {α : Type} {m n : Nat} {o : Outcome α m} {h : m ≤ n} {p : Pass}
    {c : Cursor} : Follows (o.weaken h) p c ↔ Follows o p c := by
  cases o <;> rfl

theorem follows_map {α β : Type} {n : Nat} {o : Outcome α n} {f : α → β} {p : Pass} {c : Cursor} :
    Follows (o.map f) p c ↔ Follows o p c := by
  cases o <;> rfl

/-- A pass may be followed from where another one has come to. -/
theorem follows_congr {α : Type} {n : Nat} {o : Outcome α n} {p q : Pass} {c d : Cursor}
    (h : p.ahead c = q.ahead d) (hu : p.unclosed = q.unclosed) :
    Follows o p c ↔ Follows o q d := by
  cases o <;> simp only [Follows, h, hu]

section

variable {c c₁ : Cursor} {t : Token} (us : List Token)

theorem span_of_next (hn : (next c).Gives t c₁) : c.span = t.span := by
  rw [Cursor.span, Cursor.peek?_eq_head?, tokens_of_next hn]
  rfl

/-- Where looking ahead sees a token of a kind, it is the next one. -/
theorem exists_next_of_sees {kind : TokenKind} (h : c.sees kind = true) :
    ∃ t c', (next c).Gives t c' ∧ t.kind = kind ∧ c.span = t.span := by
  obtain ⟨t, ts, ht, hk⟩ := Cursor.sees_iff.1 h
  obtain ⟨c', hn, -⟩ := next_of_tokens ht
  exact ⟨t, c', hn, hk, span_of_next hn⟩

/-! ## Operands -/

theorem follows_symbol (hn : (next c).Gives t c₁) (hk : t.kind = .name) :
    Follows (operand c) ⟨.operand, us⟩ c := by
  have hs := gives_symbol.2 ⟨t, hn, hk, rfl⟩
  rw [follows_ok (gives_operand.2 (.inl (gives_literal.2 (.inr hs))))]
  exact Pass.ahead_of_ok hn (by simp [Pass.step, Pass.stepOperand, hk])

theorem follows_numeral (hn : (next c).Gives t c₁) (hk : t.kind = .integer ∨ t.kind = .decimal) :
    Follows (operand c) ⟨.operand, us⟩ c := by
  cases hv : Number.ofDecimal? (Decimal.read t.lexeme) with
  | some n =>
    have hfin := (Number.ofDecimal?_eq_some_iff.1 hv).1
    have hnum := gives_number.2 ⟨t, n, hn, hk, hv, rfl⟩
    rw [follows_ok (gives_operand.2 (.inl (gives_literal.2 (.inl hnum))))]
    refine Pass.ahead_of_ok hn ?_
    rcases hk with hk | hk <;> simp only [Pass.step, Pass.stepOperand, hk, if_pos hfin]
  | none =>
    have hfin := Bool.eq_false_iff.1 (Number.isFinite_of_ofDecimal?_eq_none hv)
    obtain ⟨s, hs⟩ := literal_of_too_large hn hk hv
    rw [operand_of_literal_fatal hs rfl]
    refine follows_fail hn ?_
    rcases hk with hk | hk <;> simp only [Pass.step, Pass.stepOperand, hk, if_neg hfin] <;> rfl

/-- A token that starts no operand is told as the pass tells it. -/
theorem follows_noOperand (hn : (next c).Gives t c₁) (hk : t.kind ≠ .integer ∧ t.kind ≠ .decimal ∧
    t.kind ≠ .name ∧ t.kind ≠ .openParen) : Follows (operand c) ⟨.operand, us⟩ c := by
  have hop : operand c = noOperand c := operand_eq_noOperand fun u d hu => by
    obtain ⟨rfl, -⟩ := hn.unique hu
    exact hk
  obtain ⟨h₁, ht⟩ := hn
  rw [hop, noOperand, ht]
  cases hkind : t.kind with
  | integer | decimal | name | openParen => simp [hkind] at hk
  | whitespace | plus | times | closeParen | other =>
    simp only [hkind]
    refine follows_fail ⟨h₁, ht⟩ ?_
    simp only [Pass.step, Pass.stepOperand, hkind]
    rfl

theorem follows_noOperand_end {s : Cursor} (hc : c.tokens = [])
    (hn : next c = .fail (.atSpan c.endSpan .unexpectedEnd) s) :
    Follows (operand c) ⟨.operand, us⟩ c := by
  have hop : operand c = noOperand c := operand_eq_noOperand fun u d hu => by
    have := tokens_of_next hu
    rw [hc] at this
    cases this
  rw [hop, noOperand_of_end hn]
  exact Pass.ahead_of_end _ hc

/-! ## Parentheses -/

/-- Directly behind an opening parenthesis a pass goes on as before any operand, unless the
parenthesis is closed at once. -/
theorem ahead_opened (h : c.sees .closeParen = false) :
    (Pass.mk .opened us).ahead c = (Pass.mk .operand us).ahead c := by
  rcases next_cases c with ⟨t, c₁, hn⟩ | ⟨hc, -⟩
  · have hk : t.kind ≠ .closeParen := fun hk => by
      rw [(sees_of_next hn).2 hk] at h
      cases h
    refine Pass.ahead_congr hn ?_
    cases hkind : t.kind <;> simp_all [Pass.step, Pass.stepOperand]
  · rw [Pass.ahead_of_end _ hc, Pass.ahead_of_end _ hc]
    rfl

/-- Behind an expression no operator is left. -/
theorem not_operator_of_expr {c' : Cursor} {v : Tree} (hx : (expr c).Gives v c')
    (hn : (next c').Gives t c₁) : operatorKind? t.kind = none := by
  obtain ⟨lhs, d, -, hr⟩ := gives_expr.1 hx
  rw [chain_eq_run, gives_map] at hr
  obtain ⟨xs, hr, -⟩ := hr
  rcases hk : operatorKind? t.kind with _ | kind
  · rfl
  · have hop : (operator c').Gives ⟨kind, t.span⟩ c₁ := gives_operator.2 ⟨t, hn, hk, rfl⟩
    exact absurd (gives_operatorFrom.2 ⟨hop, Nat.zero_le _⟩) (run_stops hr _ _)

/-- Behind an expression within a parenthesis, anything but the closing one leaves it unclosed. -/
theorem ahead_unclosed {c' : Cursor} {v : Tree} (hx : (expr c).Gives v c')
    (h : ∀ u d, (next c').Gives u d → u.kind ≠ .closeParen) :
    (Pass.mk .operator (t :: us)).ahead c' = some (.fatalAtSpan t.span (.unclosedParen true)) := by
  rcases next_cases c' with ⟨u, d, hn⟩ | ⟨hc, -⟩
  · have hop := not_operator_of_expr hx hn
    have hclose := h u d hn
    refine Pass.ahead_of_error hn ?_
    cases hkind : u.kind <;> simp_all [Pass.step, Pass.stepOperator, operatorKind?]
  · rw [Pass.ahead_of_end _ hc]
    rfl

/-- A parenthesis is read as the pass goes over it, if the expression in it is. -/
theorem follows_paren (hn : (next c).Gives t c₁) (hk : t.kind = .openParen)
    (hx : Follows (expr c₁) ⟨.operand, t :: us⟩ c₁) : Follows (operand c) ⟨.operand, us⟩ c := by
  have hl : (literal c).Declines := literal_declines fun u d hu => by
    obtain ⟨rfl, -⟩ := hn.unique hu
    simp [hk]
  have hopen : (Pass.mk .operand us).ahead c = (Pass.mk .opened (t :: us)).ahead c₁ :=
    Pass.ahead_of_ok hn (by simp [Pass.step, Pass.stepOperand, hk])
  have ho : (token .openParen c).Gives t c₁ := gives_token.2 ⟨hn, hk⟩
  cases hs : c₁.sees .closeParen with
  | true =>
    -- an empty parenthesis is fatal at its closing token
    obtain ⟨u, d, hnu, huk, hspan⟩ := exists_next_of_sees hs
    rw [operand_of_paren_fatal hl (paren_of_empty ho hs) rfl]
    refine hopen.trans (Pass.ahead_of_error hnu ?_)
    rw [Cursor.fatalError, hspan]
    simp only [Pass.step, Pass.stepOperand, huk]
    rfl
  | false =>
    rw [ahead_opened _ hs] at hopen
    cases he : expr c₁ with
    | fail e s =>
      rw [he] at hx
      have hp : paren c = .fail e c₁ := paren_of_expr_fail ho hs he
      cases hf : e.fatal with
      | true =>
        rw [operand_of_paren_fatal hl hp hf]
        refine hopen.trans (hx.trans ?_)
        rw [Pass.escalate_of_fatal hf, Pass.escalate_of_fatal hf]
      | false =>
        -- the error within gives way to this parenthesis, as it does further out
        rw [operand_of_paren_declines hl ⟨e, c₁, hp, hf⟩, noOperand_of_opening hn hk]
        exact hopen.trans (hx.trans (congrArg some (Pass.escalate_cons hf t us)))
    | ok inner c₂ h₂ =>
      have hi : (expr c₁).Gives inner c₂ := ⟨h₂, he⟩
      replace hopen := hopen.trans ((follows_ok hi).1 hx)
      by_cases hc : ∃ u d, (next c₂).Gives u d ∧ u.kind = .closeParen
      · obtain ⟨u, d, hnu, huk⟩ := hc
        have hp := gives_paren.2 ⟨t, c₁, inner, c₂, u, ho, hs, hi, gives_token.2 ⟨hnu, huk⟩, rfl⟩
        rw [follows_ok (gives_operand.2 (.inr hp))]
        exact hopen.trans (Pass.ahead_of_ok hnu (by simp [Pass.step, Pass.stepOperator, huk]))
      · have hc : ∀ u d, (next c₂).Gives u d → u.kind ≠ .closeParen :=
          fun u d hnu huk => hc ⟨u, d, hnu, huk⟩
        rw [operand_of_paren_fatal hl (paren_of_unclosed ho hs hi hc) rfl]
        exact hopen.trans (ahead_unclosed us hi hc)

end

/-! ## Expressions -/

/-- Where a closing parenthesis comes first, reading and the pass stop alike. -/
theorem follows_closeParen {c : Cursor} (us : List Token) (hs : c.sees .closeParen = true) :
    Follows (expr c) ⟨.operand, us⟩ c := by
  obtain ⟨t, d, hn, hk, hspan⟩ := exists_next_of_sees hs
  rw [expr, if_pos hs, Cursor.fatalError, hspan]
  refine follows_fail hn ?_
  simp only [Pass.step, Pass.stepOperand, hk]
  rfl

/-- Reading an expression is reading an operand and the run behind it. -/
theorem expr_eq_andThen {c : Cursor} (hs : c.sees .closeParen = false) :
    expr c = ((operand c).backTo c).andThen fun lhs c₁ => (run .any c₁).map lhs.group := by
  rw [expr, if_neg (by simp [hs]), ← operand]
  cases operand c with
  | fail e s => rfl
  | ok lhs c₁ h₁ =>
    rw [backTo, andThen_ok, ← chain_eq_run]

mutual

theorem follows_operand (us : List Token) (c : Cursor) : Follows (operand c) ⟨.operand, us⟩ c := by
  rcases next_cases c with ⟨t, c₁, hn⟩ | ⟨hc, s, hn⟩
  · have hlt := hn.size_lt
    cases hk : t.kind with
    | name => exact follows_symbol us hn hk
    | integer => exact follows_numeral us hn (.inl hk)
    | decimal => exact follows_numeral us hn (.inr hk)
    | openParen => exact follows_paren us hn hk (follows_expr (t :: us) c₁)
    | whitespace | plus | times | closeParen | other =>
      exact follows_noOperand us hn (by simp [hk])
  · exact follows_noOperand_end us hc hn
termination_by 2 * c.size

theorem follows_expr (us : List Token) (c : Cursor) : Follows (expr c) ⟨.operand, us⟩ c := by
  cases hs : c.sees .closeParen with
  | true => exact follows_closeParen us hs
  | false =>
    have ho := follows_operand us c
    rw [expr_eq_andThen hs]
    cases hc : operand c with
    | fail e s =>
      rw [hc] at ho
      exact ho
    | ok lhs c₁ h₁ =>
      rw [hc] at ho
      rw [backTo, andThen_ok, follows_weaken, follows_map]
      exact (follows_congr ho rfl).2 (follows_run us c₁)
termination_by 2 * c.size + 1

theorem follows_run (us : List Token) (c : Cursor) : Follows (run .any c) ⟨.operator, us⟩ c := by
  rw [run]
  cases hop : operatorFrom .any c with
  | fail e s => rfl
  | ok op c₁ h₁ =>
    have hnext : (Pass.mk .operator us).ahead c = (Pass.mk .operand us).ahead c₁ := by
      obtain ⟨t, hn, hk, -⟩ := gives_operator.1 (gives_operatorFrom.1 ⟨h₁, hop⟩).1
      refine Pass.ahead_of_ok hn ?_
      cases hkind : t.kind <;> simp_all [Pass.step, Pass.stepOperator, operatorKind?]
    have ho := follows_operand us c₁
    dsimp only
    cases hx : operand c₁ with
    | fail e s =>
      rw [hx] at ho
      exact hnext.trans ho
    | ok x c₂ h₂ =>
      rw [hx] at ho
      rw [follows_weaken, follows_map]
      exact (follows_congr (hnext.trans ho) rfl).2 (follows_run us c₂)
termination_by 2 * c.size + 1

end

/-! ## Whole sources -/

namespace Pass

/-- What stands behind a complete expression is told by the pass as by reading. -/
theorem step_trailing {t : Token} (h : operatorKind? t.kind = none) :
    (Pass.mk .operator []).step t = .error (trailing t) := by
  cases hk : t.kind <;> simp_all [step, stepOperator, trailing, operatorKind?]

/-- Over all that is ahead of a cursor a pass fails as reading an expression to the end does. -/
theorem ahead_start (c : Cursor) :
    start.ahead c = match (expr c).complete.result with
      | .ok _ => none
      | .error e => some e := by
  have hx := follows_expr [] c
  cases he : expr c with
  | fail e s =>
    rw [he] at hx
    exact hx.trans (congrArg some (escalate_nil e))
  | ok v c' h' =>
    rw [he] at hx
    refine hx.trans ?_
    cases hp : c'.peek? with
    | none =>
      rw [ahead_of_end _ (Cursor.peek?_eq_none.1 hp)]
      simp only [complete, hp]
      rfl
    | some t =>
      rw [Cursor.peek?_eq_head?, List.head?_eq_some_iff] at hp
      obtain ⟨ts, hp⟩ := hp
      obtain ⟨d, hn, -⟩ := next_of_tokens hp
      have hop : operatorKind? t.kind = none := not_operator_of_expr ⟨h', he⟩ hn
      rw [ahead_of_error hn (step_trailing hop)]
      simp only [complete, Cursor.peek?_eq_head?, hp, List.head?_cons]
      rfl

/-- The first failure of a pass over the tokens of a source, whitespace left out. -/
def failure? (source : String) : Option SyntaxError :=
  start.firstFailure (.point source.utf8ByteSize) ((Token.scan source).filter fun t => !t.isBlank)

theorem failure?_eq (source : String) :
    failure? source = match Tree.parse source with
      | .ok _ => none
      | .error e => some e := ahead_start (.ofSource source)

end Pass

/-- A source is read unless a pass over its tokens fails, and the error of reading is the first
failure of the pass. -/
theorem parse_error_iff_first_failure (source : String) :
    (∀ e, Tree.parse source = .error e ↔ Pass.failure? source = some e) ∧
      ((∃ t, Tree.parse source = .ok t) ↔ Pass.failure? source = none) := by
  have hfailure := Pass.failure?_eq source
  cases hp : Tree.parse source with
  | ok t =>
    rw [hp] at hfailure
    simp [hfailure]
  | error e =>
    rw [hp] at hfailure
    simp [hfailure]

end SumProduct.Grammar
