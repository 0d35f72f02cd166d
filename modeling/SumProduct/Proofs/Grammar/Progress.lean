/-
What is consumed by reading. Whatever relates two cursors when the next token leads from one to the
other, and goes on from there, relates the cursors before and behind everything that is read. So a
phrase ends behind a token that is no whitespace, and its region reaches from the first token ahead
to that one.
-/
import SumProduct.Proofs.Grammar.Bounds
import SumProduct.Proofs.Grammar.Failure
import SumProduct.Proofs.Grammar.Regions

namespace SumProduct

namespace Item

/-- The region of an item. -/
def span : Item → Span
  | tree t => t.span
  | operator op => op.span

/-- The parts of an item have the regions of tokens. -/
def Covers : Item → List Token → Prop
  | tree t, ts => t.Covers ts
  | operator op, ts => ∃ t, ts = [t] ∧ op.span = t.span

theorem Covers.exists_span_eq {x : Item} {ts : List Token} (h : x.Covers ts) :
    ∃ first last, ts.head? = some first ∧ ts.getLast? = some last ∧
      x.span = first.span.cover last.span := by
  cases x with
  | tree t => exact Tree.Covers.exists_span_eq h
  | operator op =>
    obtain ⟨t, rfl, hspan⟩ := h
    exact ⟨t, t, rfl, rfl, hspan⟩

end Item

namespace Grammar

open Outcome

theorem gives_binary {c c' : Cursor} {v : Tree} :
    (binary c).Gives v c' ↔
      (expr c).Gives v c' ∧ ∃ lhs op rhs s, v = .binary lhs op rhs s := by
  unfold binary
  cases expr c with
  | fail e s => simp [backTo]
  | ok t d h =>
    cases t with
    | binary lhs op rhs s =>
      simp only [backTo, gives_ok]
      constructor
      · rintro ⟨rfl, rfl⟩
        exact ⟨⟨rfl, rfl⟩, lhs, op, rhs, s, rfl⟩
      · exact And.left
    | number _ _ | symbol _ _ | paren _ _ =>
      simp only [backTo, not_gives_fail, gives_ok, false_iff]
      rintro ⟨⟨rfl, -⟩, _, _, _, _, hv⟩
      cases hv

/-! ## From one cursor to the next -/

section

variable {R : Cursor → Cursor → Prop}
  (hnext : ∀ c t c', (next c).Gives t c' → R c c') (htrans : ∀ a b c, R a b → R b c → R a c)

include hnext

theorem leads_of_token {kind : TokenKind} {c c' : Cursor} {t : Token}
    (h : (token kind c).Gives t c') : R c c' :=
  hnext c t c' (gives_token.1 h).1

theorem leads_of_operator {c c' : Cursor} {op : Operator} (h : (operator c).Gives op c') :
    R c c' := by
  obtain ⟨t, hn, -⟩ := gives_operator.1 h
  exact hnext c t c' hn

theorem leads_of_number {c c' : Cursor} {v : Tree} (h : (number c).Gives v c') : R c c' := by
  obtain ⟨t, _, hn, -⟩ := gives_number.1 h
  exact hnext c t c' hn

theorem leads_of_symbol {c c' : Cursor} {v : Tree} (h : (symbol c).Gives v c') : R c c' := by
  obtain ⟨t, hn, -⟩ := gives_symbol.1 h
  exact hnext c t c' hn

theorem leads_of_literal {c c' : Cursor} {v : Tree} (h : (literal c).Gives v c') : R c c' := by
  rcases gives_literal.1 h with h | h
  · exact leads_of_number hnext h
  · exact leads_of_symbol hnext h

include htrans

mutual

theorem leads_of_paren {c c' : Cursor} {v : Tree} (h : (paren c).Gives v c') : R c c' := by
  obtain ⟨opening, c₁, inner, c₂, closing, ho, -, hi, hc, -⟩ := gives_paren.1 h
  have hlt := ho.size_lt
  have hopen : R c c₁ := leads_of_token hnext ho
  have hinner : R c₁ c₂ := leads_of_expr hi
  have hclose : R c₂ c' := leads_of_token hnext hc
  exact htrans c c₁ c' hopen (htrans c₁ c₂ c' hinner hclose)
termination_by 2 * c.size

theorem leads_of_expr {c c' : Cursor} {v : Tree} (h : (expr c).Gives v c') : R c c' := by
  obtain ⟨lhs, c₁, ho, hc⟩ := gives_expr.1 h
  have hlt := ho.size_lt
  rw [chain_eq_run, gives_map] at hc
  obtain ⟨xs, hr, -⟩ := hc
  have hlhs : R c c₁ := by
    rcases gives_operand.1 ho with ho | ho
    · exact leads_of_literal hnext ho
    · exact leads_of_paren ho
  rcases leads_of_run hr with rfl | hrun
  · exact hlhs
  · exact htrans c c₁ c' hlhs hrun
termination_by 2 * c.size + 1

/-- A run may be empty, and the cursor stays then. -/
theorem leads_of_run {least : Precedence} {c c' : Cursor} {xs : List (Operator × Tree)}
    (h : (run least c).Gives xs c') : c = c' ∨ R c c' := by
  match xs with
  | [] => exact .inl (gives_run_nil.1 h).1
  | (op, x) :: xs =>
    obtain ⟨c₁, c₂, ho, hx, hr⟩ := gives_run_cons.1 h
    have h₁ := ho.size_lt
    have h₂ := hx.size_lt
    have hop : R c c₁ := leads_of_operator hnext (gives_operatorFrom.1 ho).1
    have hoperand : R c₁ c₂ := by
      rcases gives_operand.1 hx with hx | hx
      · exact leads_of_literal hnext hx
      · exact leads_of_paren hx
    have hfront : R c c₂ := htrans c c₁ c₂ hop hoperand
    rcases leads_of_run hr with rfl | hrun
    · exact .inr hfront
    · exact .inr (htrans c c₂ c' hfront hrun)
termination_by 2 * c.size

end

theorem leads_of_operand {c c' : Cursor} {v : Tree} (h : (operand c).Gives v c') : R c c' := by
  rcases gives_operand.1 h with h | h
  · exact leads_of_literal hnext h
  · exact leads_of_paren hnext htrans h

/-- A relation that the next token establishes, and that goes on, is established by every phrase. -/
theorem leads_of_read {p : Phrase} {c c' : Cursor} {x : Item} (h : (p.read c).Gives x c') :
    R c c' := by
  cases p with
  | expr =>
    obtain ⟨v, hv, -⟩ := gives_map.1 h
    exact leads_of_expr hnext htrans hv
  | operand =>
    obtain ⟨v, hv, -⟩ := gives_map.1 h
    exact leads_of_operand hnext htrans hv
  | literal =>
    obtain ⟨v, hv, -⟩ := gives_map.1 h
    exact leads_of_literal hnext hv
  | number =>
    obtain ⟨v, hv, -⟩ := gives_map.1 h
    exact leads_of_number hnext hv
  | symbol =>
    obtain ⟨v, hv, -⟩ := gives_map.1 h
    exact leads_of_symbol hnext hv
  | paren =>
    obtain ⟨v, hv, -⟩ := gives_map.1 h
    exact leads_of_paren hnext htrans hv
  | binary =>
    obtain ⟨v, hv, -⟩ := gives_map.1 h
    exact leads_of_expr hnext htrans (gives_binary.1 hv).1
  | operator =>
    obtain ⟨v, hv, -⟩ := gives_map.1 h
    exact leads_of_operator hnext hv

end

end Grammar

/-! ## The tokens passed -/

/-- The second cursor stands behind a token that was ahead of the first and is no whitespace. -/
def Cursor.Past (c c' : Cursor) : Prop :=
  ∃ us last, c.rest = us ++ last :: c'.rest ∧ last.isBlank = false ∧ c'.stop = c.stop

theorem Cursor.Past.trans {a b c : Cursor} (hab : a.Past b) (hbc : b.Past c) : a.Past c := by
  obtain ⟨us, t, ha, -, hstop⟩ := hab
  obtain ⟨vs, last, hb, hlast, hstop'⟩ := hbc
  refine ⟨us ++ t :: vs, last, ?_, hlast, hstop'.trans hstop⟩
  rw [ha, hb, List.append_assoc, List.cons_append]

namespace Grammar

open Outcome

theorem past_of_next {c c' : Cursor} {t : Token} (h : (next c).Gives t c') : c.Past c' := by
  have htokens := tokens_of_next h
  have hmem : t ∈ c.tokens := htokens ▸ List.mem_cons_self
  have hblank : t.isBlank = false := by simpa using (List.mem_filter.1 hmem).2
  rcases nextOf_cases c.stop c.rest with ⟨k, u, hu, hn⟩ | ⟨e, he⟩
  · obtain ⟨rfl, rfl⟩ := h.unique hn
    obtain ⟨hlt, hget⟩ := List.getElem?_eq_some_iff.1 hu
    refine ⟨c.rest.take k, t, ?_, hblank, rfl⟩
    rw [← hget, ← List.drop_eq_getElem_cons hlt, List.take_append_drop]
  · obtain ⟨_, h⟩ := h
    rw [next, he] at h
    cases h

/-- A phrase that is read covers the tokens between the cursors before and behind it. -/
theorem covers_of_read {p : Phrase} {c c' : Cursor} {x : Item} (h : (p.read c).Gives x c') :
    ∃ ts, c.tokens = ts ++ c'.tokens ∧ x.Covers ts := by
  have hliteral : ∀ {v : Tree}, (literal c).Gives v c' →
      ∃ ts, c.tokens = ts ++ c'.tokens ∧ v.Covers ts := by
    intro v hv
    obtain ⟨u, hu, hcovers⟩ := covers_of_literal hv
    exact ⟨[u], hu, hcovers⟩
  cases p with
  | expr =>
    obtain ⟨v, hv, rfl⟩ := gives_map.1 h
    exact covers_of_expr hv
  | operand =>
    obtain ⟨v, hv, rfl⟩ := gives_map.1 h
    exact covers_of_operand hv
  | literal =>
    obtain ⟨v, hv, rfl⟩ := gives_map.1 h
    exact hliteral hv
  | number =>
    obtain ⟨v, hv, rfl⟩ := gives_map.1 h
    exact hliteral (gives_literal.2 (.inl hv))
  | symbol =>
    obtain ⟨v, hv, rfl⟩ := gives_map.1 h
    exact hliteral (gives_literal.2 (.inr hv))
  | paren =>
    obtain ⟨v, hv, rfl⟩ := gives_map.1 h
    exact covers_of_operand (gives_operand.2 (.inr hv))
  | binary =>
    obtain ⟨v, hv, rfl⟩ := gives_map.1 h
    exact covers_of_expr (gives_binary.1 hv).1
  | operator =>
    obtain ⟨op, hop, rfl⟩ := gives_map.1 h
    obtain ⟨t, hn, -, hspan⟩ := gives_operator.1 hop
    exact ⟨[t], tokens_of_next hn, t, rfl, hspan⟩

/-- The cursor ends up behind a token, and the region of what was read reaches from the first token
ahead to that one. -/
theorem span_of_read {p : Phrase} {c c' : Cursor} {x : Item} (h : (p.read c).Gives x c') :
    ∃ first us last, c.peek? = some first ∧ c.rest = us ++ last :: c'.rest ∧
      last.isBlank = false ∧ c'.stop = c.stop ∧ x.span = first.span.cover last.span := by
  obtain ⟨us, last, hrest, hlast, hstop⟩ : c.Past c' :=
    leads_of_read (fun _ _ _ => past_of_next) (fun _ _ _ => Cursor.Past.trans) h
  obtain ⟨ts, hts, hcovers⟩ := covers_of_read h
  obtain ⟨first, t, hfirst, ht, hspan⟩ := hcovers.exists_span_eq
  -- what was covered are the tokens passed but for whitespace, and the last one is none
  have hpassed : ts = us.filter (fun t => !t.isBlank) ++ [last] := by
    have htokens : c.tokens = us.filter (fun t => !t.isBlank) ++ [last] ++ c'.tokens := by
      rw [Cursor.tokens, hrest, List.filter_append, List.filter_cons_of_pos (by simp [hlast]),
        Cursor.tokens, List.append_assoc, List.singleton_append]
    exact List.append_cancel_right (hts.symm.trans htokens)
  obtain rfl : t = last := by
    rw [hpassed, List.getLast?_concat] at ht
    exact (Option.some.inj ht).symm
  refine ⟨first, us, t, ?_, hrest, hlast, hstop, hspan⟩
  rw [Cursor.peek?_eq_head?, hts, List.head?_append, hfirst, Option.some_or]

end Grammar

end SumProduct
