/-
Which sources are read as an expression, and as which one: exactly those whose terminals the
grammar derives and whose numerals are finite, and as the tree of the one derivation.

Soundness takes a success apart into a derivation of the terminals it passed; completeness shows
that reading goes through wherever a derivation says it can. The tree is then the derivation's,
the grammar being unambiguous.
-/
import SumProduct.Proofs.Grammar.Run
import SumProduct.Proofs.Grammar.Derivation
import SumProduct.Parse
import Mathlib.Data.List.TakeWhile

namespace SumProduct

/-! ## Terminals ahead -/

/-- The terminals ahead of a cursor. -/
def Cursor.terminals (c : Cursor) : List Grammar.Terminal := c.tokens.map .ofToken

theorem Cursor.terminals_eq_nil {c : Cursor} : c.terminals = [] ↔ c.peek? = none := by
  rw [terminals, List.map_eq_nil_iff, peek?_eq_none]

namespace Grammar

open Outcome

theorem terminals_of_next {c c' : Cursor} {t : Token} {w : Terminal} (h : (next c).Gives t c')
    (hw : w.Of t) : c.terminals = w :: c'.terminals := by
  rw [Cursor.terminals, tokens_of_next h, List.map_cons, Terminal.ofToken_eq_iff.2 hw]
  rfl

theorem next_of_terminals {c : Cursor} {w : Terminal} {ws : List Terminal}
    (h : c.terminals = w :: ws) :
    ∃ t c', (next c).Gives t c' ∧ w.Of t ∧ c'.terminals = ws := by
  obtain ⟨t, ts, ht, hw, rfl⟩ := List.map_eq_cons_iff.1 h
  obtain ⟨c', hn, hc⟩ := next_of_tokens ht
  exact ⟨t, c', hn, Terminal.ofToken_eq_iff.1 hw, by rw [Cursor.terminals, hc]⟩

theorem of_operatorKind? {t : Token} {kind : OperatorKind}
    (h : operatorKind? t.kind = some kind) : (Terminal.ofOperator kind).Of t := by
  rcases operatorKind?_eq_some.1 h with ⟨hk, rfl⟩ | ⟨hk, rfl⟩
  · exact hk
  · exact hk

theorem terminals_of_operator {c c' : Cursor} {op : Operator} (h : (operator c).Gives op c') :
    c.terminals = .ofOperator op.kind :: c'.terminals := by
  obtain ⟨t, hn, hk, -⟩ := gives_operator.1 h
  exact terminals_of_next hn (of_operatorKind? hk)

theorem operator_of_terminals {c : Cursor} {kind : OperatorKind} {ws : List Terminal}
    (h : c.terminals = .ofOperator kind :: ws) :
    ∃ op c', (operatorFrom .any c).Gives op c' ∧ op.kind = kind ∧ c'.terminals = ws := by
  obtain ⟨t, c', hn, ht, hc⟩ := next_of_terminals h
  refine ⟨⟨kind, t.span⟩, c',
    gives_operatorFrom.2 ⟨gives_operator.2 ⟨t, hn, ?_, rfl⟩, Nat.zero_le _⟩, rfl, hc⟩
  cases kind <;> rw [show t.kind = _ from ht] <;> rfl

/-! ## Soundness -/

/-- The terminals of an operator and the derivation of the operand behind it. -/
def segment (s : OperatorKind × Derivation .factor) : List Terminal :=
  .ofOperator s.1 :: s.2.yield

/-- A tree read between two cursors is one that a derivation of the terminals between them stands
for, with finite numerals. -/
structure Spelt {n : Nonterminal} (d : Derivation n) (t : Tree) (c c' : Cursor) : Prop where
  terminals : c.terminals = d.yield ++ c'.terminals
  shape : t.shape = d.shape
  finite : ∀ w ∈ d.yield, w.isFinite = true

theorem spelt_of_literal {c c' : Cursor} {t : Tree} (h : (literal c).Gives t c') :
    ∃ f : Derivation .factor, Spelt f t c c' := by
  rcases gives_literal.1 h with h | h
  · obtain ⟨u, n, hn, hk, hv, rfl⟩ := gives_number.1 h
    obtain ⟨hfin, hval⟩ := Number.ofDecimal?_eq_some_iff.1 hv
    rcases hk with hk | hk
    · exact ⟨.integer u.lexeme, terminals_of_next hn ⟨hk, rfl⟩, by simp [hval],
        by simpa [Terminal.isFinite] using hfin⟩
    · exact ⟨.decimal u.lexeme, terminals_of_next hn ⟨hk, rfl⟩, by simp [hval],
        by simpa [Terminal.isFinite] using hfin⟩
  · obtain ⟨u, hn, hk, rfl⟩ := gives_symbol.1 h
    exact ⟨.name u.lexeme, terminals_of_next hn ⟨hk, rfl⟩, rfl, by simp [Terminal.isFinite]⟩

/-- The factors behind a term extend it to a term. -/
theorem exists_term (t : Derivation .term) (ss : List (OperatorKind × Derivation .factor))
    (h : ∀ s ∈ ss, s.1 = .times) :
    ∃ t' : Derivation .term, t'.yield = t.yield ++ ss.flatMap segment ∧
      t'.shape = Run.joinLeft Shape.binary t.shape (ss.map (Prod.map id Derivation.shape)) := by
  induction ss generalizing t with
  | nil => exact ⟨t, by simp, rfl⟩
  | cons s ss ih =>
    obtain ⟨op, f⟩ := s
    obtain rfl : op = .times := h _ (List.mem_cons_self ..)
    obtain ⟨t', hy, hs⟩ := ih (.product t f) fun s hs => h s (List.mem_cons_of_mem _ hs)
    exact ⟨t', by simp [hy, segment, Terminal.ofOperator], by simp [hs]⟩

/-- Whether a segment goes on with the term before it. -/
def inTerm {α : Type} (s : OperatorKind × α) : Bool := s.1 = .times

/-- The factors at the front of a run extend an operand to a term. -/
theorem exists_front (f : Derivation .factor) (ss : List (OperatorKind × Derivation .factor)) :
    ∃ t : Derivation .term, t.yield = f.yield ++ (ss.takeWhile inTerm).flatMap segment ∧
      t.shape = Run.joinLeft Shape.binary f.shape
        ((ss.map (Prod.map id Derivation.shape)).takeWhile inTerm) := by
  have htimes : ∀ s ∈ ss.takeWhile inTerm, s.1 = .times := fun s hs => by
    simpa [inTerm] using List.mem_takeWhile_imp hs
  obtain ⟨t, hy, hs⟩ := exists_term (.factor f) _ htimes
  exact ⟨t, hy, by rw [hs, List.takeWhile_map]; rfl⟩

theorem head?_dropWhile_inTerm {α : Type} (ss : List (OperatorKind × α)) :
    ∀ s ∈ (ss.dropWhile inTerm).head?, s.1 ≠ .times := by
  intro s hs
  have := List.head?_dropWhile_not inTerm ss
  rw [Option.mem_def.1 hs] at this
  simpa [inTerm] using this

theorem flatMap_segment_eq (ss : List (OperatorKind × Derivation .factor)) :
    ss.flatMap segment =
      (ss.takeWhile inTerm).flatMap segment ++ (ss.dropWhile inTerm).flatMap segment := by
  rw [← List.flatMap_append, List.takeWhile_append_dropWhile]

/-- The terms behind an expression extend it to an expression. -/
theorem exists_sum (e : Derivation .expr) (ss : List (OperatorKind × Derivation .factor))
    (h : ∀ s ∈ ss.head?, s.1 ≠ .times) :
    ∃ e' : Derivation .expr, e'.yield = e.yield ++ ss.flatMap segment ∧
      e'.shape = Run.joinLeft Shape.binary e.shape
        (Run.gather Shape.binary (· = .times) (ss.map (Prod.map id Derivation.shape))) := by
  match ss with
  | [] => exact ⟨e, by simp, by simp [Run.gather]⟩
  | (op, f) :: ss =>
    -- what does not go on with the term before it is a plus
    have hop : op = .plus := by
      have := h (op, f) rfl
      cases op <;> simp_all
    subst hop
    obtain ⟨t, hty, hts⟩ := exists_front f ss
    obtain ⟨e', hy, hs⟩ := exists_sum (.sum e t) (ss.dropWhile inTerm) (head?_dropWhile_inTerm ss)
    refine ⟨e', ?_, ?_⟩
    · rw [hy, List.flatMap_cons, flatMap_segment_eq ss]
      simp [hty, segment, Terminal.ofOperator]
    · rw [hs, List.map_cons, Prod.map_apply, Run.gather, Run.joinLeft_cons, Derivation.shape, hts,
        List.dropWhile_map]
      rfl
termination_by ss.length
decreasing_by exact Nat.lt_succ_of_le (List.dropWhile_sublist _).length_le

/-- An operand and the run behind it are an expression, grouped on two levels. -/
theorem exists_expr (f : Derivation .factor) (ss : List (OperatorKind × Derivation .factor)) :
    ∃ e : Derivation .expr, e.yield = f.yield ++ ss.flatMap segment ∧
      e.shape = Run.group Shape.binary (· = .times) f.shape
        (ss.map (Prod.map id Derivation.shape)) := by
  obtain ⟨t, hty, hts⟩ := exists_front f ss
  obtain ⟨e, hy, hs⟩ := exists_sum (.term t) (ss.dropWhile inTerm) (head?_dropWhile_inTerm ss)
  refine ⟨e, ?_, ?_⟩
  · rw [hy, flatMap_segment_eq ss, Derivation.yield, hty, List.append_assoc]
  · rw [hs, Run.group, Derivation.shape, hts, List.dropWhile_map]
    rfl

theorem shape_group (lhs : Tree) (xs : List (Operator × Tree)) :
    (lhs.group xs).shape = Run.group Shape.binary (· = .times) lhs.shape
      (xs.map (Prod.map Operator.kind Tree.shape)) := by
  rw [Tree.group]
  refine Run.map_group ?_ ?_ lhs xs
  · intro l op r
    rfl
  · intro op
    rfl

mutual

theorem spelt_of_operand {c c' : Cursor} {t : Tree} (h : (operand c).Gives t c') :
    ∃ f : Derivation .factor, Spelt f t c c' := by
  rcases gives_operand.1 h with h | h
  · exact spelt_of_literal h
  · -- the inner expression starts behind the parenthesis, so the recursion is on fewer tokens
    obtain ⟨opening, c₁, inner, c₂, closing, ho, -, hi, hc, rfl⟩ := gives_paren.1 h
    have hlt := ho.size_lt
    obtain ⟨e, he⟩ := spelt_of_expr hi
    obtain ⟨hon, hok⟩ := gives_token.1 ho
    obtain ⟨hcn, hck⟩ := gives_token.1 hc
    refine ⟨.paren e, ?_, by simp [he.shape], ?_⟩
    · have hopen : c.terminals = .openParen :: c₁.terminals := terminals_of_next hon hok
      have hclose : c₂.terminals = .closeParen :: c'.terminals := terminals_of_next hcn hck
      simp [hopen, he.terminals, hclose]
    · simpa [Terminal.isFinite, or_imp, forall_and] using he.finite
termination_by 2 * c.size

theorem spelt_of_expr {c c' : Cursor} {t : Tree} (h : (expr c).Gives t c') :
    ∃ e : Derivation .expr, Spelt e t c c' := by
  obtain ⟨lhs, c₁, ho, hc⟩ := gives_expr.1 h
  have hlt := ho.size_lt
  rw [chain_eq_run, gives_map] at hc
  obtain ⟨xs, hr, rfl⟩ := hc
  obtain ⟨f, hf⟩ := spelt_of_operand ho
  obtain ⟨ss, hs, hss, hfin⟩ := spelt_of_run hr
  obtain ⟨e, hy, he⟩ := exists_expr f ss
  refine ⟨e, ?_, ?_, ?_⟩
  · rw [hf.terminals, hs, hy, List.append_assoc]
  · rw [shape_group, he, hf.shape, hss]
  · intro w hw
    rw [hy, List.mem_append] at hw
    exact hw.elim (hf.finite w) (hfin w)
termination_by 2 * c.size + 1

theorem spelt_of_run {least : Precedence} {c c' : Cursor} {xs : List (Operator × Tree)}
    (h : (run least c).Gives xs c') :
    ∃ ss : List (OperatorKind × Derivation .factor),
      c.terminals = ss.flatMap segment ++ c'.terminals ∧
      xs.map (Prod.map Operator.kind Tree.shape) = ss.map (Prod.map id Derivation.shape) ∧
      ∀ w ∈ ss.flatMap segment, w.isFinite = true := by
  match xs with
  | [] =>
    obtain ⟨rfl, -⟩ := gives_run_nil.1 h
    exact ⟨[], by simp, rfl, by simp⟩
  | (op, x) :: xs =>
    obtain ⟨c₁, c₂, ho, hx, hr⟩ := gives_run_cons.1 h
    have h₁ := ho.size_lt
    have h₂ := hx.size_lt
    obtain ⟨f, hf⟩ := spelt_of_operand hx
    obtain ⟨ss, hs, hss, hfin⟩ := spelt_of_run hr
    refine ⟨(op.kind, f) :: ss, ?_, by simp [hss, hf.shape], ?_⟩
    · rw [terminals_of_operator (gives_operatorFrom.1 ho).1, hf.terminals, hs]
      simp [segment]
    · intro w hw
      rw [List.flatMap_cons, segment, List.mem_append, List.mem_cons] at hw
      rcases hw with (rfl | hw) | hw
      · cases op.kind <;> rfl
      · exact hf.finite w hw
      · exact hfin w hw
termination_by 2 * c.size + 1

end

/-! ## Completeness -/

namespace Derivation

/-- The first operand of a derivation. -/
def first : {n : Nonterminal} → Derivation n → Derivation .factor
  | _, term t => t.first
  | _, sum e _ => e.first
  | _, factor f => f
  | _, product t _ => t.first
  | .factor, f => f

/-- The operators of a derivation outside of parentheses, each with its operand. -/
def more : {n : Nonterminal} → Derivation n → List (OperatorKind × Derivation .factor)
  | _, term t => t.more
  | _, sum e t => e.more ++ (.plus, t.first) :: t.more
  | _, factor _ => []
  | _, product t f => t.more ++ [(.times, f)]
  | .factor, _ => []

theorem yield_eq {n : Nonterminal} (d : Derivation n) :
    d.yield = d.first.yield ++ d.more.flatMap segment := by
  induction d with
  | term t ih => simpa [first, more] using ih
  | sum e t ihe iht => simp [first, more, ihe, iht, segment, Terminal.ofOperator]
  | factor f ih => simp [first, more]
  | product t f iht ihf => simp [first, more, iht, segment, Terminal.ofOperator]
  | integer _ | decimal _ | name _ | paren _ _ => simp [first, more]

/-- The operands within a derivation are shorter than it. -/
theorem length_yield_of_mem_more {n : Nonterminal} {d : Derivation n}
    {s : OperatorKind × Derivation .factor} (h : s ∈ d.more) :
    s.2.yield.length < d.yield.length := by
  obtain ⟨as, bs, hs⟩ := List.append_of_mem h
  rw [yield_eq d, hs, List.flatMap_append, List.flatMap_cons, segment]
  simp only [List.length_append, List.length_cons]
  omega

end Derivation

/-- The terminals where an expression may end: none of the operators is next. -/
def EndsRun (ws : List Terminal) : Prop := ∀ k : OperatorKind, ws.head? ≠ some (.ofOperator k)

theorem endsRun_nil : EndsRun [] := by
  simp [EndsRun]

theorem endsRun_closeParen (ws : List Terminal) : EndsRun (.closeParen :: ws) := by
  intro k
  cases k <;> simp [Terminal.ofOperator]

theorem run_of_terminals {ss : List (OperatorKind × Derivation .factor)} {ws : List Terminal}
    (hop : ∀ s ∈ ss, ∀ c ws, c.terminals = s.2.yield ++ ws →
      ∃ t c', (operand c).Gives t c' ∧ c'.terminals = ws) (hws : EndsRun ws) :
    ∀ c, c.terminals = ss.flatMap segment ++ ws →
      ∃ xs c', (run .any c).Gives xs c' ∧ c'.terminals = ws := by
  induction ss with
  | nil =>
    intro c hc
    refine ⟨[], c, gives_run_nil.2 ⟨rfl, fun op d ho => ?_⟩, hc⟩
    have := terminals_of_operator (gives_operatorFrom.1 ho).1
    exact hws op.kind (by simpa [this] using congrArg List.head? hc.symm)
  | cons s ss ih =>
    intro c hc
    have hs : c.terminals = .ofOperator s.1 :: (s.2.yield ++ (ss.flatMap segment ++ ws)) := by
      simpa [segment] using hc
    obtain ⟨op, c₁, ho, -, hc₁⟩ := operator_of_terminals hs
    obtain ⟨x, c₂, hx, hc₂⟩ := hop s (List.mem_cons_self ..) c₁ _ hc₁
    obtain ⟨xs, c₃, hr, hc₃⟩ := ih (fun s hs => hop s (List.mem_cons_of_mem _ hs)) c₂ hc₂
    exact ⟨(op, x) :: xs, c₃, gives_run_cons.2 ⟨c₁, c₂, ho, hx, hr⟩, hc₃⟩

theorem numeral_of_next {c c' : Cursor} {t : Token} (hn : (next c).Gives t c')
    (hk : t.kind = .integer ∨ t.kind = .decimal)
    (hf : (Decimal.read t.lexeme).toDouble.isFinite = true) : ∃ v, (operand c).Gives v c' := by
  obtain ⟨n, hv⟩ := Number.exists_ofDecimal? hf
  have hnum := gives_number.2 ⟨t, n, hn, hk, hv, rfl⟩
  exact ⟨_, gives_operand.2 (.inl (gives_literal.2 (.inl hnum)))⟩

mutual

/-- An operand is read wherever one is spelt. -/
theorem operand_of_terminals (f : Derivation .factor) (hf : ∀ w ∈ f.yield, w.isFinite = true)
    (c : Cursor) (ws : List Terminal) (hc : c.terminals = f.yield ++ ws) :
    ∃ t c', (operand c).Gives t c' ∧ c'.terminals = ws := by
  match f with
  | .integer l =>
    obtain ⟨t, c', hn, ⟨hk, rfl⟩, hc'⟩ := next_of_terminals hc
    have hfin : (Terminal.integer t.lexeme).isFinite = true := hf _ (List.mem_singleton_self _)
    rw [Terminal.isFinite] at hfin
    obtain ⟨v, hv⟩ := numeral_of_next hn (.inl hk) hfin
    exact ⟨v, c', hv, hc'⟩
  | .decimal l =>
    obtain ⟨t, c', hn, ⟨hk, rfl⟩, hc'⟩ := next_of_terminals hc
    have hfin : (Terminal.decimal t.lexeme).isFinite = true := hf _ (List.mem_singleton_self _)
    rw [Terminal.isFinite] at hfin
    obtain ⟨v, hv⟩ := numeral_of_next hn (.inr hk) hfin
    exact ⟨v, c', hv, hc'⟩
  | .name l =>
    obtain ⟨t, c', hn, ⟨hk, rfl⟩, hc'⟩ := next_of_terminals hc
    have hs := gives_symbol.2 ⟨t, hn, hk, rfl⟩
    exact ⟨_, c', gives_operand.2 (.inl (gives_literal.2 (.inr hs))), hc'⟩
  | .paren e =>
    rw [Derivation.yield, List.cons_append, List.append_assoc] at hc
    obtain ⟨opening, c₁, ho, hok, hc₁⟩ := next_of_terminals hc
    obtain ⟨inner, c₂, hi, hc₂⟩ := expr_of_terminals e (fun w hw => hf w (by simp [hw])) c₁ _
      (endsRun_closeParen ws) hc₁
    obtain ⟨closing, c', hcl, hck, hc'⟩ := next_of_terminals hc₂
    -- the inner expression starts with an operand, so the parentheses are not taken for empty
    obtain ⟨lhs, d, hl, -⟩ := gives_expr.1 hi
    have hp := gives_paren.2 ⟨opening, c₁, inner, c₂, closing, gives_token.2 ⟨ho, hok⟩,
      sees_closeParen_of_operand hl, hi, gives_token.2 ⟨hcl, hck⟩, rfl⟩
    exact ⟨_, c', gives_operand.2 (.inr hp), hc'⟩
termination_by 2 * f.yield.length
decreasing_by
  rw [Derivation.yield, List.length_cons, List.length_append]
  omega

/-- An expression is read wherever one is spelt that no operator continues. -/
theorem expr_of_terminals (e : Derivation .expr) (he : ∀ w ∈ e.yield, w.isFinite = true)
    (c : Cursor) (ws : List Terminal) (hws : EndsRun ws) (hc : c.terminals = e.yield ++ ws) :
    ∃ t c', (expr c).Gives t c' ∧ c'.terminals = ws := by
  rw [e.yield_eq, List.append_assoc] at hc
  rw [e.yield_eq] at he
  obtain ⟨lhs, c₁, hl, hc₁⟩ := operand_of_terminals e.first
    (fun w hw => he w (List.mem_append_left _ hw)) c _ hc
  have hmore : ∀ s ∈ e.more, ∀ c ws, c.terminals = s.2.yield ++ ws →
      ∃ t c', (operand c).Gives t c' ∧ c'.terminals = ws := fun s hs =>
    operand_of_terminals s.2 fun w hw => he w <| List.mem_append_right _ <|
      List.mem_flatMap.2 ⟨s, hs, List.mem_cons_of_mem _ hw⟩
  obtain ⟨xs, c', hr, hc'⟩ := run_of_terminals hmore hws c₁ hc₁
  refine ⟨lhs.group xs, c', gives_expr.2 ⟨lhs, c₁, hl, ?_⟩, hc'⟩
  rw [chain_eq_run]
  exact gives_map.2 ⟨xs, hr, rfl⟩
termination_by 2 * e.yield.length + 1
decreasing_by
  · have := congrArg List.length e.yield_eq
    rw [List.length_append] at this
    omega
  · have := Derivation.length_yield_of_mem_more hs
    omega

end

/-! ## Whole sources -/

theorem parse_eq_ok {source : String} {t : Tree} :
    Tree.parse source = .ok t ↔
      ∃ c', (expr (.ofSource source)).Gives t c' ∧ c'.terminals = [] := by
  simp only [Tree.parse, result_eq_ok, gives_complete, Cursor.terminals_eq_nil]

/-- A source is read as an expression exactly if its terminals are derivable and its numerals
finite. The tree is then, but for regions, the one that the one derivation stands for. -/
theorem parse_ok_iff_derivable (source : String) :
    ((∃ t, Tree.parse source = .ok t) ↔
      (∃ d : Derivation .expr, d.yield = Terminal.ofSource source) ∧
        ∀ w ∈ Terminal.ofSource source, w.isFinite = true) ∧
    ∀ t, Tree.parse source = .ok t →
      ∃ d : Derivation .expr, d.yield = Terminal.ofSource source ∧ t.shape = d.shape ∧
        ∀ d' : Derivation .expr, d'.yield = Terminal.ofSource source → d' = d := by
  have hsource : (Cursor.ofSource source).terminals = Terminal.ofSource source := rfl
  have hsound : ∀ t, Tree.parse source = .ok t →
      ∃ d : Derivation .expr, d.yield = Terminal.ofSource source ∧ t.shape = d.shape ∧
        ∀ w ∈ d.yield, w.isFinite = true := by
    intro t ht
    obtain ⟨c', he, hc'⟩ := parse_eq_ok.1 ht
    obtain ⟨d, hd⟩ := spelt_of_expr he
    refine ⟨d, ?_, hd.shape, hd.finite⟩
    rw [← hsource, hd.terminals, hc', List.append_nil]
  refine ⟨⟨?_, ?_⟩, ?_⟩
  · rintro ⟨t, ht⟩
    obtain ⟨d, hy, -, hfin⟩ := hsound t ht
    exact ⟨⟨d, hy⟩, hy ▸ hfin⟩
  · rintro ⟨⟨d, hy⟩, hfin⟩
    obtain ⟨t, c', he, hc'⟩ := expr_of_terminals d (hy ▸ hfin) (.ofSource source) [] endsRun_nil
      (by rw [hsource, hy, List.append_nil])
    exact ⟨t, parse_eq_ok.2 ⟨c', he, hc'⟩⟩
  · intro t ht
    -- soundness gives one derivation, and there is no other with the same terminals
    obtain ⟨d, hy, hs, -⟩ := hsound t ht
    exact ⟨d, hy, hs, fun d' hy' => Derivation.eq_of_yield_eq (hy'.trans hy.symm)⟩

end Grammar

end SumProduct
