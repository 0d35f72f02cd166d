/-
Where reading can come to. A cursor moves by taking the next token, or goes back to a place where it
was, and nothing else: every reader that starts at an index of the tokens of a source ends at an
index of them, with success or without. Looking ahead and taking the next token there are look-ups
of tokens by index, and all of them are in range.
-/
import SumProduct.Proofs.Cursor.Tokens
import SumProduct.Grammar.Phrase

namespace SumProduct

/-! ## Indices -/

/-- A cursor with all tokens of a source from an index on ahead of it. The index is at most the
number of tokens, where nothing is ahead. -/
structure Cursor.StandsAt (source : String) (i : Nat) (c : Cursor) : Prop where
  le_length : i ≤ (Token.scan source).length
  rest : c.rest = (Token.scan source).drop i
  stop : c.stop = source.utf8ByteSize

/-- The cursors that reading a source can come to. -/
inductive Cursor.Reached (source : String) : Cursor → Prop where
  | start : Reached source (.ofSource source)
  | next {c : Cursor} : Reached source c → Reached source (Grammar.next c).cursor

namespace Grammar

open Outcome

/-- The next token is found behind whitespace, or there is none and everything is passed. -/
theorem nextOf_cases (stop : Nat) (ts : List Token) :
    (∃ k t, ts[k]? = some t ∧ (nextOf stop ts).Gives t ⟨ts.drop (k + 1), stop⟩) ∨
      ∃ e, nextOf stop ts = .fail e ⟨[], stop⟩ := by
  induction ts with
  | nil => exact .inr ⟨_, rfl⟩
  | cons u ts ih =>
    unfold nextOf
    split
    · rcases ih with ⟨k, t, ht, hn⟩ | ⟨e, he⟩
      · exact .inl ⟨k + 1, t, ht, gives_weaken.2 hn⟩
      · exact .inr ⟨e, by rw [he, weaken_fail]⟩
    · exact .inl ⟨0, u, rfl, gives_ok.2 ⟨rfl, rfl⟩⟩

/-- Taking the next token passes some of the tokens ahead, whether there is one or not. -/
theorem exists_cursor_next (c : Cursor) :
    ∃ k ≤ c.size, (next c).cursor = ⟨c.rest.drop k, c.stop⟩ := by
  rcases nextOf_cases c.stop c.rest with ⟨k, t, ht, _, hn⟩ | ⟨e, he⟩
  · obtain ⟨hlt, -⟩ := List.getElem?_eq_some_iff.1 ht
    exact ⟨k + 1, hlt, congrArg Outcome.cursor hn⟩
  · refine ⟨c.size, Nat.le_refl _, (congrArg Outcome.cursor he).trans ?_⟩
    rw [Cursor.size, List.drop_length]
    rfl

end Grammar

namespace Cursor

variable {source : String} {i : Nat} {c : Cursor}

theorem StandsAt.size_eq (h : c.StandsAt source i) : c.size = (Token.scan source).length - i := by
  rw [size, h.rest, List.length_drop]

theorem StandsAt.index_eq (h : c.StandsAt source i) : i = (Token.scan source).length - c.size := by
  rw [h.size_eq, Nat.sub_sub_self h.le_length]

/-- From an index, the cursor behind the next token stands at one that is no less. -/
theorem StandsAt.exists_next (h : c.StandsAt source i) :
    ∃ j, i ≤ j ∧ (Grammar.next c).cursor.StandsAt source j := by
  obtain ⟨k, hk, hcursor⟩ := Grammar.exists_cursor_next c
  rw [h.size_eq] at hk
  have hle := h.le_length
  refine ⟨i + k, Nat.le_add_right i k, ?_⟩
  rw [hcursor, h.rest, List.drop_drop]
  exact ⟨by omega, rfl, h.stop⟩

/-- Reading never leaves the tokens of its source. -/
theorem Reached.exists_standsAt (h : Reached source c) : ∃ i, c.StandsAt source i := by
  induction h with
  | start => exact ⟨0, Nat.zero_le _, rfl, rfl⟩
  | next _ ih =>
    obtain ⟨i, hi⟩ := ih
    obtain ⟨j, -, hj⟩ := hi.exists_next
    exact ⟨j, hj⟩

end Cursor

/-! ## Look-ups -/

namespace Token

/-- The tokens from an index on, if the index is in range. -/
def slice? (ts : List Token) (i : Nat) : Option (List Token) :=
  if i ≤ ts.length then some (ts.drop i) else none

/-- The first token from an index on that is not whitespace. There is no answer if an index is out
of range. -/
def peekAt? (ts : List Token) (i : Nat) : Option (Option Token) :=
  (slice? ts i).map fun rest => rest.find? fun t => !t.isBlank

/-- The same token, looked for one index after the other, and the index behind it. There is no
answer if an index is out of range. -/
def nextAt? (ts : List Token) (i : Nat) : Option (Option Token × Nat) :=
  if i < ts.length then
    match ts[i]? with
    | none => none
    | some t => if t.isBlank then nextAt? ts (i + 1) else some (some t, i + 1)
  else some (none, i)
termination_by ts.length - i

/-- From an index up to the number of tokens on, every token that is looked up is there. -/
theorem nextAt?_eq (stop : Nat) {ts : List Token} {i : Nat} (hi : i ≤ ts.length) :
    nextAt? ts i = some ((Grammar.nextOf stop (ts.drop i)).result.toOption,
      ts.length - (Grammar.nextOf stop (ts.drop i)).cursor.size) := by
  rw [nextAt?]
  split
  · rename_i hlt
    rw [List.getElem?_eq_getElem hlt, List.drop_eq_getElem_cons hlt, Grammar.nextOf]
    dsimp only
    split
    · rw [Outcome.result_weaken, Outcome.cursor_weaken]
      exact nextAt?_eq stop hlt
    · have hindex : ts.length - (ts.drop (i + 1)).length = i + 1 := by
        rw [List.length_drop, Nat.sub_sub_self hlt]
      exact congrArg (fun k => some (some ts[i], k)) hindex.symm
  · rename_i hge
    obtain rfl : i = ts.length := Nat.le_antisymm hi (Nat.not_lt.1 hge)
    rw [List.drop_length]
    rfl
termination_by ts.length - i

end Token

/-- Looking ahead of a cursor and taking the next token, as look-ups in the tokens of its source:
none of them is out of range. -/
structure Cursor.LooksUp (source : String) (i : Nat) (c : Cursor) : Prop where
  peek : Token.peekAt? (Token.scan source) i = some c.peek?
  next : ∃ j, (Grammar.next c).cursor.StandsAt source j ∧
    Token.nextAt? (Token.scan source) i = some ((Grammar.next c).result.toOption, j)

theorem Cursor.StandsAt.looksUp {source : String} {i : Nat} {c : Cursor}
    (h : c.StandsAt source i) : c.LooksUp source i := by
  obtain ⟨j, -, hj⟩ := h.exists_next
  constructor
  · rw [Token.peekAt?, Token.slice?, if_pos h.le_length, ← h.rest]
    rfl
  · refine ⟨j, hj, ?_⟩
    rw [Token.nextAt?_eq c.stop h.le_length, ← h.rest, hj.index_eq]
    rfl

-- Behind the last token there is nothing to look at, and further on no look-up is in range.
example : Token.peekAt? (Token.scan "x ") 2 = some none ∧
    Token.peekAt? (Token.scan "x ") 3 = none := by
  decide +kernel

/-! ## Readers -/

namespace Outcome

variable {α β : Type} {m n : Nat} {P : Cursor → Prop}

/-- The cursor afterwards is at a place of a kind, whatever came of reading. -/
def Within (P : Cursor → Prop) (o : Outcome α n) : Prop := P o.cursor

theorem within_weaken {o : Outcome α m} {h : m ≤ n} : (o.weaken h).Within P ↔ o.Within P := by
  rw [Within, cursor_weaken, Within]

theorem within_map {o : Outcome α n} {f : α → β} : (o.map f).Within P ↔ o.Within P := by
  rw [Within, cursor_map, Within]

theorem Within.backTo {o : Outcome α n} {c : Cursor} (h : o.Within P) (hc : P c) :
    (o.backTo c).Within P := by
  cases o with
  | ok v d hd => exact h
  | fail e s => exact hc

theorem Within.orElse {o : Outcome α n} {f : Unit → Outcome α n} (h : o.Within P)
    (hf : (f ()).Within P) : (o.orElse f).Within P := by
  cases o with
  | ok v d hd => exact h
  | fail e s =>
    unfold Outcome.orElse
    dsimp only
    split
    · exact h
    · exact hf

end Outcome

namespace Grammar

open Outcome

section

variable {P : Cursor → Prop} (hnext : ∀ c, P c → P (next c).cursor)

include hnext

theorem within_token (kind : TokenKind) {c : Cursor} (hc : P c) : (token kind c).Within P := by
  have h : (next c).Within P := hnext c hc
  unfold token
  generalize next c = o at h
  cases o with
  | fail e s => exact h
  | ok t c' hlt =>
    dsimp only
    split
    · exact h
    · exact h

theorem within_operator {c : Cursor} (hc : P c) : (operator c).Within P := by
  have h : (next c).Within P := hnext c hc
  unfold operator
  generalize next c = o at h
  cases o with
  | fail e s => exact h
  | ok t c' hlt =>
    dsimp only
    split
    · exact h
    · exact h

theorem within_operatorIf (accept : Operator → Bool) {c : Cursor} (hc : P c) :
    (operatorIf accept c).Within P := by
  have h := within_operator hnext hc
  unfold operatorIf
  generalize operator c = o at h
  cases o with
  | fail e s => exact hc
  | ok op c' hlt =>
    dsimp only
    split
    · exact h
    · exact hc

theorem within_numberBy (value : String → Option Number) {c : Cursor} (hc : P c) :
    (numberBy value c).Within P := by
  have h : (((token .integer c).backTo c).orElse fun _ => (token .decimal c).backTo c).Within P :=
    ((within_token hnext .integer hc).backTo hc).orElse ((within_token hnext .decimal hc).backTo hc)
  unfold numberBy
  generalize ((token .integer c).backTo c).orElse (fun _ => (token .decimal c).backTo c) = o at h
  cases o with
  | fail e s => exact h
  | ok t c' hlt =>
    dsimp only
    split
    · exact h
    · exact h

theorem within_symbol {c : Cursor} (hc : P c) : (symbol c).Within P :=
  within_map.2 ((within_token hnext .name hc).backTo hc)

theorem within_literal {c : Cursor} (hc : P c) : (literal c).Within P :=
  ((within_numberBy hnext _ hc).backTo hc).orElse (within_symbol hnext hc)

theorem within_noOperand {c : Cursor} (hc : P c) : (noOperand c).Within P := by
  have h : (next c).Within P := hnext c hc
  unfold noOperand
  generalize next c = o at h
  cases o with
  | fail e s => exact h
  | ok t c' hlt =>
    dsimp only
    split
    · exact h
    · exact h
    · exact h

theorem within_operandOr {c : Cursor} {paren : Outcome Tree c.size} (hc : P c)
    (hp : paren.Within P) : (operandOr c paren).Within P :=
  ((within_literal hnext hc).backTo hc).orElse ((hp.backTo hc).orElse (within_noOperand hnext hc))

mutual

theorem within_paren {c : Cursor} (hc : P c) : (paren c).Within P := by
  have ho : ((token .openParen c).backTo c).Within P := (within_token hnext .openParen hc).backTo hc
  rw [paren]
  split
  · rename_i e s heq
    rwa [heq] at ho
  · rename_i opening c₁ h₁ heq
    have hc₁ : P c₁ := by rwa [heq] at ho
    split
    · exact hc₁
    · have he := within_expr hc₁
      split
      · exact hc₁
      · rename_i inner c₂ h₂ heq₂
        have hc₂ : P c₂ := by rwa [heq₂] at he
        have hclose := within_token hnext .closeParen hc₂
        split
        · exact hc₂
        · rename_i closing c₃ h₃ heq₃
          rwa [heq₃] at hclose
termination_by 3 * c.size

theorem within_expr {c : Cursor} (hc : P c) : (expr c).Within P := by
  rw [expr]
  split
  · exact hc
  · have ho := within_operandOr hnext hc (within_paren hc)
    split
    · exact hc
    · rename_i lhs c₁ h₁ heq
      have hc₁ : P c₁ := by rwa [heq] at ho
      exact within_weaken.2 (within_chain lhs .any hc₁)
termination_by 3 * c.size + 1

theorem within_chain (lhs : Tree) (least : Precedence) {c : Cursor} (hc : P c) :
    (chain lhs least c).Within P := by
  have ho : (operatorFrom least c).Within P := within_operatorIf hnext _ hc
  rw [chain]
  split
  · exact hc
  · rename_i op c₁ h₁ heq
    have hc₁ : P c₁ := by rwa [heq] at ho
    exact within_weaken.2 (within_chainFrom lhs op least hc₁)
termination_by 3 * c.size + 2

theorem within_chainFrom (lhs : Tree) (op : Operator) (least : Precedence) {c : Cursor}
    (hc : P c) : (chainFrom lhs op least c).Within P := by
  have ho := within_operandOr hnext hc (within_paren hc)
  rw [chainFrom]
  split
  · exact hc
  · rename_i rhs c₁ h₁ heq
    have hc₁ : P c₁ := by rwa [heq] at ho
    have hr := within_completeRhs op.precedence rhs hc₁
    split
    · rename_i e s heq₂
      rwa [heq₂] at hr
    · rename_i rhs' c₂ h₂ heq₂
      have hc₂ : P c₂ := by rwa [heq₂] at hr
      exact within_weaken.2 (within_chain _ least hc₂)
termination_by 3 * c.size + 1

theorem within_completeRhs (p : Precedence) (rhs : Tree) {c : Cursor} (hc : P c) :
    (completeRhs p rhs c).Within P := by
  have ho : (operatorAbove p c).Within P := within_operatorIf hnext _ hc
  rw [completeRhs]
  split
  · exact hc
  · rename_i op c₁ h₁ heq
    have hc₁ : P c₁ := by rwa [heq] at ho
    have hf := within_chainFrom rhs op op.precedence hc₁
    split
    · rename_i e s heq₂
      rwa [heq₂] at hf
    · rename_i rhs' c₂ h₂ heq₂
      have hc₂ : P c₂ := by rwa [heq₂] at hf
      exact within_weaken.2 (within_completeRhs p rhs' hc₂)
termination_by 3 * c.size + 2

end

theorem within_binary {c : Cursor} (hc : P c) : (binary c).Within P := by
  have h : ((expr c).backTo c).Within P := (within_expr hnext hc).backTo hc
  unfold binary
  generalize (expr c).backTo c = o at h
  cases o with
  | fail e s => exact h
  | ok t c' hlt =>
    dsimp only
    split
    · exact h
    · exact h

/-- A place that the next token does not lead away from is not left by any phrase. -/
theorem within_read (p : Phrase) {c : Cursor} (hc : P c) : (p.read c).Within P := by
  cases p with
  | expr => exact within_map.2 (within_expr hnext hc)
  | operand => exact within_map.2 (within_operandOr hnext hc (within_paren hnext hc))
  | literal => exact within_map.2 (within_literal hnext hc)
  | number => exact within_map.2 (within_numberBy hnext _ hc)
  | symbol => exact within_map.2 (within_symbol hnext hc)
  | paren => exact within_map.2 (within_paren hnext hc)
  | binary => exact within_map.2 (within_binary hnext hc)
  | operator => exact within_map.2 (within_operator hnext hc)

end

end Grammar

end SumProduct
