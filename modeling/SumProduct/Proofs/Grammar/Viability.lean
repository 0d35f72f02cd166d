/-
Where a source stops being the beginning of an expression. The pass gets over a list of tokens
exactly if some expression begins with them, so its first failure is at the first token that no
expression goes on with. An error that is not fatal points there, unless a parenthesis is open:
then it points at the outermost one, which an expression may well go on with.
-/
import SumProduct.Proofs.Grammar.Acceptance
import SumProduct.Proofs.Grammar.Pass

namespace SumProduct.Grammar

open Outcome

/-! ## Beginnings of expressions -/

/-- Whether some expression with finite numerals begins with the terminals. -/
def Viable (ws : List Terminal) : Prop :=
  ∃ d : Derivation .expr, (∀ w ∈ d.yield, w.isFinite = true) ∧ ws <+: d.yield

theorem Viable.of_prefix {ws vs : List Terminal} (h : Viable vs) (hp : ws <+: vs) : Viable ws := by
  obtain ⟨d, hfin, hd⟩ := h
  exact ⟨d, hfin, hp.trans hd⟩

/-- A token for a terminal. -/
def Terminal.toToken : Terminal → Token
  | integer lexeme => ⟨.integer, .point 0, lexeme⟩
  | decimal lexeme => ⟨.decimal, .point 0, lexeme⟩
  | name lexeme => ⟨.name, .point 0, lexeme⟩
  | plus => ⟨.plus, .point 0, "+"⟩
  | times => ⟨.times, .point 0, "*"⟩
  | openParen => ⟨.openParen, .point 0, "("⟩
  | closeParen => ⟨.closeParen, .point 0, ")"⟩
  | other lexeme => ⟨.other, .point 0, lexeme⟩

@[simp] theorem Terminal.ofToken_toToken (w : Terminal) : ofToken w.toToken = w := by
  cases w <;> rfl

@[simp] theorem Terminal.isBlank_toToken (w : Terminal) : w.toToken.isBlank = false := by
  cases w <;> rfl

theorem Terminal.map_ofToken_toToken (ws : List Terminal) : (ws.map toToken).map ofToken = ws := by
  simp [Function.comp_def]

/-- The place before some tokens and tokens for some terminals behind them. -/
def before (ts : List Token) (ws : List Terminal) : Cursor := ⟨ts ++ ws.map Terminal.toToken, 0⟩

theorem tokens_before {ts : List Token} (hts : ∀ t ∈ ts, t.isBlank = false) (ws : List Terminal) :
    (before ts ws).tokens = ts ++ ws.map Terminal.toToken := by
  refine List.filter_eq_self.2 fun t ht => ?_
  rcases List.mem_append.1 ht with ht | ht
  · simp [hts t ht]
  · obtain ⟨w, -, rfl⟩ := List.mem_map.1 ht
    simp

theorem terminals_before {ts : List Token} (hts : ∀ t ∈ ts, t.isBlank = false)
    (ws : List Terminal) : (before ts ws).terminals = ts.map .ofToken ++ ws := by
  rw [Cursor.terminals, tokens_before hts, List.map_append, Terminal.map_ofToken_toToken]

/-! ## Passes over beginnings -/

namespace Pass

/-- A pass over all that is ahead fails nowhere exactly if an expression with finite numerals is
ahead. -/
theorem ahead_start_eq_none_iff (c : Cursor) :
    start.ahead c = none ↔
      ∃ d : Derivation .expr, (∀ w ∈ d.yield, w.isFinite = true) ∧ d.yield = c.terminals := by
  have hread : start.ahead c = none ↔ ∃ v c', (expr c).Gives v c' ∧ c'.terminals = [] := by
    rw [ahead_start]
    cases hr : (expr c).complete.result with
    | ok v =>
      simp only [result_eq_ok, gives_complete, ← Cursor.terminals_eq_nil] at hr
      simpa using ⟨v, hr⟩
    | error e =>
      simp only [reduceCtorEq, false_iff]
      rintro ⟨v, hv⟩
      simp only [Cursor.terminals_eq_nil, ← gives_complete, ← result_eq_ok] at hv
      rw [hr] at hv
      cases hv
  rw [hread]
  constructor
  · rintro ⟨v, c', hv, hc'⟩
    obtain ⟨d, hd⟩ := spelt_of_expr hv
    exact ⟨d, hd.finite, by rw [hd.terminals, hc', List.append_nil]⟩
  · rintro ⟨d, hfin, hd⟩
    exact expr_of_terminals d hfin c [] endsRun_nil (by rw [hd, List.append_nil])

/-- Whatever parentheses are open behind an operand can be closed. -/
theorem run_closeParens (us : List Token) :
    (Pass.mk .operator us).run (us.map fun _ => Terminal.closeParen.toToken) =
      .ok ⟨.operator, []⟩ := by
  induction us with
  | nil => rfl
  | cons u us ih => exact ih

/-- Every pass under way can be brought to a good end. -/
theorem exists_completion (q : Pass) : ∃ ws : List Terminal,
    q.run (ws.map Terminal.toToken) = .ok ⟨.operator, []⟩ := by
  obtain ⟨position, us⟩ := q
  have hclose : (us.map fun _ => Terminal.closeParen.toToken) =
      (us.map fun _ => Terminal.closeParen).map Terminal.toToken := by simp
  have hend := run_closeParens us
  rw [hclose] at hend
  cases position with
  | operator => exact ⟨_, hend⟩
  | operand | opened => exact ⟨.name "x" :: us.map fun _ => .closeParen, hend⟩

theorem viable_of_run {ts : List Token} {q : Pass} (hts : ∀ t ∈ ts, t.isBlank = false)
    (h : start.run ts = .ok q) : Viable (ts.map .ofToken) := by
  obtain ⟨ws, hws⟩ := exists_completion q
  have hrun : start.run (ts ++ ws.map Terminal.toToken) = .ok ⟨.operator, []⟩ := by
    rw [run_append, h]
    exact hws
  have hahead : start.ahead (before ts ws) = none := by
    rw [ahead, firstFailure, tokens_before hts, hrun]
    rfl
  obtain ⟨d, hfin, hd⟩ := (ahead_start_eq_none_iff _).1 hahead
  refine ⟨d, hfin, ?_⟩
  rw [hd, terminals_before hts]
  exact List.prefix_append _ _

theorem run_of_viable {ts : List Token} (hts : ∀ t ∈ ts, t.isBlank = false)
    (h : Viable (ts.map .ofToken)) : ∃ q, start.run ts = .ok q := by
  obtain ⟨d, hfin, ws, hd⟩ := h
  have hahead : start.ahead (before ts ws) = none :=
    (ahead_start_eq_none_iff _).2 ⟨d, hfin, by rw [terminals_before hts, hd]⟩
  rw [ahead, firstFailure, tokens_before hts, run_append] at hahead
  cases hr : start.run ts with
  | ok q => exact ⟨q, rfl⟩
  | error e =>
    rw [hr] at hahead
    cases hahead

/-- The pass gets over exactly the beginnings of expressions. -/
theorem viable_iff_run {ts : List Token} (hts : ∀ t ∈ ts, t.isBlank = false) :
    Viable (ts.map .ofToken) ↔ ∃ q, start.run ts = .ok q :=
  ⟨run_of_viable hts, fun ⟨_, h⟩ => viable_of_run hts h⟩

theorem run_singleton (p : Pass) (t : Token) : p.run [t] = p.step t := by
  rw [run_cons]
  cases p.step t <;> rfl

theorem run_concat (p : Pass) (ts : List Token) (t : Token) :
    p.run (ts ++ [t]) = p.run ts >>= fun q => q.step t := by
  simp only [run_append, run_singleton]

/-- A pass that fails over tokens gets over some of them and fails at the next. -/
theorem exists_step_of_run_error {p : Pass} {ts : List Token} {e : SyntaxError}
    (h : p.run ts = .error e) :
    ∃ us t vs q, ts = us ++ t :: vs ∧ p.run us = .ok q ∧ q.step t = .error e := by
  induction ts generalizing p with
  | nil => cases h
  | cons t ts ih =>
    rw [run_cons] at h
    cases ht : p.step t with
    | error e' =>
      rw [ht] at h
      cases h
      exact ⟨[], t, ts, p, rfl, rfl, ht⟩
    | ok p' =>
      rw [ht] at h
      obtain ⟨us, u, vs, q, rfl, hus, hu⟩ := ih h
      exact ⟨t :: us, u, vs, q, rfl, by rw [run_cons, ht]; exact hus, hu⟩

end Pass

/-! ## Open parentheses -/

/-- The opening parentheses that are left open behind a token. -/
def openBehind (opened : List Token) (t : Token) : List Token :=
  match t.kind with
  | .openParen => t :: opened
  | .closeParen => opened.tail
  | _ => opened

/-- The opening parentheses among some tokens that are not closed there, the innermost first. -/
def openParens (ts : List Token) : List Token := ts.foldl openBehind []

/-- What an error that is not fatal tells of a place with parentheses open before it: the place
itself and nothing contradictory, or else the outermost of the parentheses. -/
def Blames (e : SyntaxError) (unclosed : List Token) (place : Span) : Prop :=
  match unclosed.getLast? with
  | none => e.spans = [place] ∧
      ∀ expected found, e.cause = .unexpectedToken expected found → found ∉ expected
  | some opening => e = Pass.unexpectedOpening opening

theorem blames_nil {place : Span} {cause : Cause}
    (h : ∀ expected found, cause = .unexpectedToken expected found → found ∉ expected) :
    Blames (.atSpan place cause) [] place := ⟨rfl, h⟩

namespace Pass

theorem blames_missingOperand {e : SyntaxError} {place : Span} (us : List Token)
    (h : Blames e [] place) : Blames (missingOperand us e) us place := by
  unfold missingOperand Blames
  cases us.getLast? with
  | none => exact h
  | some o => rfl

/-- What going over a token with some parentheses open may come to. -/
def Accounts (us : List Token) (t : Token) : Except SyntaxError Pass → Prop
  | .ok q => q.unclosed = openBehind us t
  | .error e => e.fatal = false → Blames e us t.span

theorem accounts_stepOperand (closing : Cause) (us : List Token) (t : Token) :
    Accounts us t (stepOperand closing us t) := by
  unfold stepOperand
  cases hk : t.kind with
  | name | openParen => simp only [Accounts, openBehind, hk]
  | integer | decimal =>
    dsimp only
    split
    · simp only [Accounts, openBehind, hk]
    · exact fun hf => by cases hf
  | closeParen => exact fun hf => by cases hf
  | other => exact fun _ => blames_missingOperand us (blames_nil fun _ _ hc => by cases hc)
  | plus | times | whitespace =>
    refine fun _ => blames_missingOperand us (blames_nil fun _ _ hc => ?_)
    cases hc
    decide

theorem accounts_stepOperator (us : List Token) (t : Token) :
    Accounts us t (stepOperator us t) := by
  unfold stepOperator
  cases us with
  | nil =>
    cases hk : t.kind with
    | plus | times => simp only [Accounts, openBehind, hk]
    | closeParen => exact fun hf => by cases hf
    | name | integer | decimal | openParen | other | whitespace =>
      exact fun _ => blames_nil fun _ _ hc => by cases hc
  | cons o outer =>
    cases hk : t.kind with
    | plus | times | closeParen => simp only [Accounts, openBehind, hk, List.tail_cons]
    | name | integer | decimal | openParen | other | whitespace =>
      -- an operator missing within parentheses is always fatal
      exact fun hf => by cases hf

theorem accounts_step (p : Pass) (t : Token) : Accounts p.unclosed t (p.step t) := by
  obtain ⟨position, us⟩ := p
  cases position with
  | operand | opened => exact accounts_stepOperand _ us t
  | operator => exact accounts_stepOperator us t

theorem unclosed_of_step {p q : Pass} {t : Token} (h : p.step t = .ok q) :
    q.unclosed = openBehind p.unclosed t := by
  have := accounts_step p t
  rwa [h] at this

theorem blames_of_step {p : Pass} {t : Token} {e : SyntaxError} (h : p.step t = .error e)
    (hf : e.fatal = false) : Blames e p.unclosed t.span := by
  have := accounts_step p t
  rw [h] at this
  exact this hf

theorem unclosed_of_run {p q : Pass} {ts : List Token} (h : p.run ts = .ok q) :
    q.unclosed = ts.foldl openBehind p.unclosed := by
  induction ts generalizing p with
  | nil =>
    cases h
    rfl
  | cons t ts ih =>
    rw [run_cons] at h
    cases ht : p.step t with
    | error e =>
      rw [ht] at h
      cases h
    | ok p' =>
      rw [ht] at h
      rw [ih h, unclosed_of_step ht, List.foldl_cons]

theorem blames_of_finish {p : Pass} {stop : Span} {e : SyntaxError} (h : p.finish stop = some e)
    (hf : e.fatal = false) : Blames e p.unclosed stop := by
  obtain ⟨position, us⟩ := p
  cases position with
  | operand | opened =>
    cases h
    exact blames_missingOperand us (blames_nil fun _ _ hc => by cases hc)
  | operator =>
    cases us with
    | nil => cases h
    | cons o outer =>
      cases h
      cases hf

end Pass

/-! ## Where errors point -/

/-- The tokens of a source parted at the first that no expression goes on with. -/
structure BreaksAt (source : String) (ts rest : List Token) : Prop where
  tokens_eq : (Cursor.ofSource source).tokens = ts ++ rest
  viable : Viable (ts.map .ofToken)
  not_viable : ∀ t ∈ rest.head?, ¬ Viable ((ts ++ [t]).map .ofToken)

theorem BreaksAt.length_le {source : String} {ts rest us more : List Token}
    (h : BreaksAt source ts rest) (h' : BreaksAt source us more) : ts.length ≤ us.length := by
  refine Nat.le_of_not_lt fun hlt => ?_
  obtain ⟨t, vs, rfl, rfl⟩ : ∃ t vs, ts = us ++ t :: vs ∧ more = t :: vs ++ rest := by
    rcases List.append_eq_append_iff.1 (h.tokens_eq.symm.trans h'.tokens_eq) with
      ⟨vs, rfl, -⟩ | ⟨vs, rfl, rfl⟩
    · rw [List.length_append] at hlt
      omega
    · cases vs with
      | nil => simp at hlt
      | cons t vs => exact ⟨t, vs, rfl, rfl⟩
  refine h'.not_viable t rfl (h.viable.of_prefix ?_)
  rw [List.append_cons us t vs]
  exact (List.prefix_append _ _).map _

/-- A source breaks at one place only. -/
theorem BreaksAt.unique {source : String} {ts rest us more : List Token}
    (h : BreaksAt source ts rest) (h' : BreaksAt source us more) : ts = us ∧ rest = more :=
  List.append_inj (h.tokens_eq.symm.trans h'.tokens_eq)
    (Nat.le_antisymm (h.length_le h') (h'.length_le h))

/-- The region of the first of some tokens, or the end of the source. -/
def placeOf (source : String) (rest : List Token) : Span :=
  (rest.head?.map Token.span).getD (.point source.utf8ByteSize)

/-- An error that is not fatal points at the first token that no expression goes on with, or at
the end of the source, and expects nothing that it finds there. But with parentheses open before
that place, it points at the outermost one and tells that an opening parenthesis is expected. -/
theorem error_points_at_break (source : String) (e : SyntaxError)
    (h : Tree.parse source = .error e) (hf : e.fatal = false) :
    ∃ ts rest, BreaksAt source ts rest ∧ Blames e (openParens ts) (placeOf source rest) := by
  have hfail : Pass.start.ahead (.ofSource source) = some e := by
    have := Pass.failure?_eq source
    rwa [h] at this
  have hblank : ∀ t ∈ (Cursor.ofSource source).tokens, t.isBlank = false := fun t ht => by
    simpa using (List.mem_filter.1 ht).2
  rw [Pass.ahead, Pass.firstFailure] at hfail
  cases hr : Pass.start.run (Cursor.ofSource source).tokens with
  | ok q =>
    -- all tokens begin an expression, so it is the end of the source that is told
    rw [hr] at hfail
    refine ⟨_, [], ⟨(List.append_nil _).symm, (Pass.viable_iff_run hblank).2 ⟨q, hr⟩, by simp⟩, ?_⟩
    have hb := Pass.blames_of_finish hfail hf
    rw [Pass.unclosed_of_run hr] at hb
    exact hb
  | error e' =>
    rw [hr] at hfail
    cases hfail
    obtain ⟨ts, t, vs, q, hts, hrun, hstep⟩ := Pass.exists_step_of_run_error hr
    rw [hts] at hblank
    have hbefore : ∀ u ∈ ts, u.isBlank = false := fun u hu => hblank u (by simp [hu])
    have hupto : ∀ u ∈ ts ++ [t], u.isBlank = false := fun u hu => hblank u (by
      rw [List.append_cons]
      exact List.mem_append_left _ hu)
    refine ⟨ts, t :: vs, ⟨hts, (Pass.viable_iff_run hbefore).2 ⟨q, hrun⟩, ?_⟩, ?_⟩
    · rintro u hu hviable
      cases hu
      obtain ⟨q', hq'⟩ := (Pass.viable_iff_run hupto).1 hviable
      rw [Pass.run_concat, hrun] at hq'
      cases hstep.symm.trans hq'
    · have hb := Pass.blames_of_step hstep hf
      rw [Pass.unclosed_of_run hrun] at hb
      exact hb

/-- The character that is no operand is told as the outermost of the parentheses around it. -/
theorem error_points_at_break_within :
    Tree.parse "2 + (x * $" = .error (Pass.unexpectedOpening ⟨.openParen, ⟨4, 5⟩, "("⟩) ∧
      ∃ ts rest, BreaksAt "2 + (x * $" ts rest ∧
        Blames (Pass.unexpectedOpening ⟨.openParen, ⟨4, 5⟩, "("⟩) (openParens ts)
          (placeOf "2 + (x * $" rest) := by
  have h : Tree.parse "2 + (x * $" =
      .error (Pass.unexpectedOpening ⟨.openParen, ⟨4, 5⟩, "("⟩) := by decide +kernel
  exact ⟨h, error_points_at_break _ _ h rfl⟩

/-- It is not so that every error that is not fatal points at the place where its source breaks:
an operator directly behind an opening parenthesis is told as the parenthesis, which is among the
tokens expected. -/
theorem error_not_always_at_break :
    ¬ ∀ source e, Tree.parse source = .error e → e.fatal = false →
      ∃ ts rest, BreaksAt source ts rest ∧ e.spans = [placeOf source rest] ∧
        ∀ expected found, e.cause = .unexpectedToken expected found → found ∉ expected := by
  intro hall
  have h : Tree.parse "(+" =
      .error (Pass.unexpectedOpening ⟨.openParen, ⟨0, 1⟩, "("⟩) := by decide +kernel
  have hbreak : BreaksAt "(+" [⟨.openParen, ⟨0, 1⟩, "("⟩] [⟨.plus, ⟨1, 2⟩, "+"⟩] := by
    refine ⟨by decide +kernel, Pass.viable_of_run (by decide) rfl, ?_⟩
    rintro t ht hviable
    cases ht
    obtain ⟨q, hq⟩ := Pass.run_of_viable (by decide) hviable
    cases hq
  obtain ⟨ts, rest, hbreak', hspans, -⟩ := hall _ _ h rfl
  obtain ⟨-, rfl⟩ := hbreak.unique hbreak'
  exact absurd hspans (by decide)

end SumProduct.Grammar
