/-
The regions of a tree and the tokens that it was read from. A leaf has the region of its token, and
any other node reaches from the start of its first token to the end of its last. Grouping puts
operands together that lie side by side, so this holds whichever way operators were grouped.
-/
import SumProduct.Proofs.Grammar.Run
import SumProduct.Proofs.Grammar.Derivation
import SumProduct.Proofs.Token.Boundary

namespace SumProduct

/-! ## Trees over tokens -/

/-- How many tokens a tree of a shape is read from. -/
def Shape.width : Shape → Nat
  | number _ | symbol _ => 1
  | paren inner => inner.width + 2
  | binary lhs _ rhs => lhs.width + rhs.width + 1

namespace Tree

/-- The tree that lies a number of bytes further behind, operators included. -/
def shift (k : Nat) : Tree → Tree
  | number value s => number value (s.shift k)
  | symbol name s => symbol name (s.shift k)
  | paren inner s => paren (inner.shift k) (s.shift k)
  | binary lhs op rhs s => binary (lhs.shift k) ⟨op.kind, op.span.shift k⟩ (rhs.shift k) (s.shift k)

/-- The parts of a tree have the regions of tokens: a leaf and an operator each that of one token,
parentheses from the first token to the last, operands the tokens on both sides of the operator. -/
def Covers : Tree → List Token → Prop
  | number _ s, ts => ∃ t, ts = [t] ∧ s = t.span
  | symbol _ s, ts => ∃ t, ts = [t] ∧ s = t.span
  | paren inner s, ts => ∃ opening us closing, ts = opening :: (us ++ [closing]) ∧
      inner.Covers us ∧ s = opening.span.cover closing.span
  | binary lhs op rhs s, ts => ∃ us t vs, ts = us ++ t :: vs ∧ lhs.Covers us ∧ op.span = t.span ∧
      rhs.Covers vs ∧ s = lhs.span.cover rhs.span

@[simp] theorem shape_shift (k : Nat) (t : Tree) : (t.shift k).shape = t.shape := by
  induction t with
  | number _ _ | symbol _ _ => rfl
  | paren inner _ ih => rw [shift, shape, ih, shape]
  | binary lhs op rhs _ ihl ihr => rw [shift, shape, ihl, ihr, shape]

theorem span_shift (k : Nat) (t : Tree) : (t.shift k).span = t.span.shift k := by
  cases t <;> rfl

namespace Covers

/-- Tokens that are moved move the tree. -/
theorem shift (k : Nat) {t : Tree} {ts : List Token} (h : t.Covers ts) :
    (t.shift k).Covers (ts.map (Token.shift k)) := by
  induction t generalizing ts with
  | number _ _ | symbol _ _ =>
    obtain ⟨u, rfl, rfl⟩ := h
    exact ⟨u.shift k, rfl, rfl⟩
  | paren inner _ ih =>
    obtain ⟨opening, us, closing, rfl, hinner, rfl⟩ := h
    exact ⟨opening.shift k, us.map (Token.shift k), closing.shift k, by simp, ih hinner, rfl⟩
  | binary lhs op rhs _ ihl ihr =>
    obtain ⟨us, u, vs, rfl, hl, hop, hr, rfl⟩ := h
    refine ⟨us.map (Token.shift k), u.shift k, vs.map (Token.shift k), by simp, ihl hl, ?_, ihr hr,
      ?_⟩
    · show op.span.shift k = u.span.shift k
      rw [hop]
    · rw [span_shift, span_shift, Span.cover_shift]

theorem length_eq {t : Tree} {ts : List Token} (h : t.Covers ts) :
    ts.length = t.shape.width := by
  induction t generalizing ts with
  | number _ _ | symbol _ _ =>
    obtain ⟨u, rfl, -⟩ := h
    rfl
  | paren inner _ ih =>
    obtain ⟨opening, us, closing, rfl, hinner, -⟩ := h
    simp [Shape.width, ih hinner]
  | binary lhs op rhs _ ihl ihr =>
    obtain ⟨us, u, vs, rfl, hl, -, hr, -⟩ := h
    simp [Shape.width, ihl hl, ihr hr, Nat.add_assoc]

/-- The region of a tree reaches from its first token to its last. -/
theorem exists_span_eq {t : Tree} {ts : List Token} (h : t.Covers ts) :
    ∃ first last, ts.head? = some first ∧ ts.getLast? = some last ∧
      t.span = first.span.cover last.span := by
  induction t generalizing ts with
  | number _ _ | symbol _ _ =>
    obtain ⟨u, rfl, rfl⟩ := h
    exact ⟨u, u, rfl, rfl, rfl⟩
  | paren inner _ ih =>
    obtain ⟨opening, us, closing, rfl, -, rfl⟩ := h
    exact ⟨opening, closing, rfl, by simp [List.getLast?_cons], rfl⟩
  | binary lhs op rhs _ ihl ihr =>
    obtain ⟨us, u, vs, rfl, hl, -, hr, rfl⟩ := h
    obtain ⟨first, _, hfirst, -, hls⟩ := ihl hl
    obtain ⟨_, last, -, hlast, hrs⟩ := ihr hr
    refine ⟨first, last, ?_, ?_, ?_⟩
    · rw [List.head?_append, hfirst, Option.some_or]
    · rw [List.getLast?_append, List.getLast?_cons, hlast]
      rfl
    · rw [span, hls, hrs]
      rfl

theorem ne_nil {t : Tree} {ts : List Token} (h : t.Covers ts) : ts ≠ [] := by
  obtain ⟨first, _, hfirst, -⟩ := h.exists_span_eq
  rintro rfl
  cases hfirst

/-- The shape of a tree and its tokens leave no choice for the regions. -/
theorem unique {t t' : Tree} {ts : List Token} (h : t.Covers ts) (h' : t'.Covers ts)
    (hshape : t.shape = t'.shape) : t = t' := by
  induction t generalizing t' ts with
  | number v _ =>
    cases t' <;> cases hshape
    obtain ⟨u, rfl, rfl⟩ := h
    obtain ⟨u', hu, rfl⟩ := h'
    cases hu
    rfl
  | symbol x _ =>
    cases t' <;> cases hshape
    obtain ⟨u, rfl, rfl⟩ := h
    obtain ⟨u', hu, rfl⟩ := h'
    cases hu
    rfl
  | paren inner _ ih =>
    cases t' with
    | number _ _ | symbol _ _ | binary _ _ _ _ => cases hshape
    | paren inner' s' =>
      obtain ⟨opening, us, closing, rfl, hinner, rfl⟩ := h
      obtain ⟨opening', us', closing', hts, hinner', rfl⟩ := h'
      obtain ⟨rfl, htail⟩ := List.cons.inj hts
      obtain ⟨rfl, rfl⟩ := List.append_singleton_inj.1 htail
      rw [ih hinner hinner' (Shape.paren.inj hshape)]
  | binary lhs op rhs _ ihl ihr =>
    cases t' with
    | number _ _ | symbol _ _ | paren _ _ => cases hshape
    | binary lhs' op' rhs' s' =>
      obtain ⟨us, u, vs, rfl, hl, hop, hr, rfl⟩ := h
      obtain ⟨us', u', vs', hts, hl', hop', hr', rfl⟩ := h'
      obtain ⟨hls, hkind, hrs⟩ := Shape.binary.inj hshape
      -- the left operands are of one shape, so they take equally many tokens
      have hlength : us.length = us'.length := by
        rw [hl.length_eq, hl'.length_eq, hls]
      obtain ⟨rfl, htail⟩ := List.append_inj hts hlength
      obtain ⟨rfl, rfl⟩ := List.cons.inj htail
      obtain ⟨kind, s⟩ := op
      obtain ⟨kind', s'⟩ := op'
      obtain rfl : s = u.span := hop
      obtain rfl : s' = u.span := hop'
      obtain rfl : kind = kind' := hkind
      rw [ihl hl hl' hls, ihr hr hr' hrs]

end Covers

/-! ## Runs over tokens -/

/-- The parts of a run have the regions of tokens, one operator and its operand after the other. -/
def RunCovers : List (Operator × Tree) → List Token → Prop
  | [], ts => ts = []
  | (op, x) :: xs, ts => ∃ t us vs, ts = t :: (us ++ vs) ∧ op.span = t.span ∧ x.Covers us ∧
      RunCovers xs vs

theorem runCovers_append {xs ys : List (Operator × Tree)} {ts : List Token} :
    RunCovers (xs ++ ys) ts ↔ ∃ us vs, ts = us ++ vs ∧ RunCovers xs us ∧ RunCovers ys vs := by
  induction xs generalizing ts with
  | nil => simp [RunCovers]
  | cons x xs ih =>
    obtain ⟨op, x⟩ := x
    constructor
    · rintro ⟨t, us, vs, rfl, hop, hx, h⟩
      obtain ⟨vs₁, vs₂, rfl, h₁, h₂⟩ := ih.1 h
      exact ⟨t :: (us ++ vs₁), vs₂, by simp, ⟨t, us, vs₁, rfl, hop, hx, h₁⟩, h₂⟩
    · rintro ⟨_, vs₂, rfl, ⟨t, us, vs₁, rfl, hop, hx, h₁⟩, h₂⟩
      exact ⟨t, us, vs₁ ++ vs₂, by simp, hop, hx, ih.2 ⟨vs₁, vs₂, rfl, h₁, h₂⟩⟩

theorem covers_joinLeft {lhs : Tree} {xs : List (Operator × Tree)} {us vs : List Token}
    (hl : lhs.Covers us) (hxs : RunCovers xs vs) :
    (Run.joinLeft join lhs xs).Covers (us ++ vs) := by
  induction xs generalizing lhs us vs with
  | nil =>
    obtain rfl : vs = [] := hxs
    rwa [List.append_nil]
  | cons x xs ih =>
    obtain ⟨op, x⟩ := x
    obtain ⟨t, ws, vs, rfl, hop, hx, hxs⟩ := hxs
    have hjoin : (lhs.join op x).Covers (us ++ t :: ws) := ⟨us, t, ws, rfl, hl, hop, hx, rfl⟩
    have := ih hjoin hxs
    rwa [List.append_assoc, List.cons_append] at this

/-- Operands that are joined to the operand before them leave a run over the same tokens. -/
theorem runCovers_gather (tight : Operator → Bool) {xs : List (Operator × Tree)} {ts : List Token}
    (h : RunCovers xs ts) : RunCovers (Run.gather join tight xs) ts := by
  fun_induction Run.gather join tight xs generalizing ts with
  | case1 => exact h
  | case2 op x xs ih =>
    obtain ⟨t, us, vs, rfl, hop, hx, h⟩ := h
    rw [← List.takeWhile_append_dropWhile (p := fun y : Operator × Tree => tight y.1)
      (l := xs)] at h
    obtain ⟨vs₁, vs₂, rfl, h₁, h₂⟩ := runCovers_append.1 h
    exact ⟨t, us ++ vs₁, vs₂, by simp, hop, covers_joinLeft hx h₁, ih h₂⟩

/-- Grouping keeps the order of the parts. -/
theorem covers_group {lhs : Tree} {xs : List (Operator × Tree)} {us vs : List Token}
    (hl : lhs.Covers us) (hxs : RunCovers xs vs) : (lhs.group xs).Covers (us ++ vs) := by
  rw [← List.takeWhile_append_dropWhile
    (p := fun y : Operator × Tree => decide (y.1.kind = .times)) (l := xs)] at hxs
  obtain ⟨vs₁, vs₂, rfl, h₁, h₂⟩ := runCovers_append.1 hxs
  rw [← List.append_assoc]
  exact covers_joinLeft (covers_joinLeft hl h₁) (runCovers_gather _ h₂)

end Tree

/-! ## Trees that were read -/

namespace Grammar

open Outcome

theorem covers_of_literal {c c' : Cursor} {t : Tree} (h : (literal c).Gives t c') :
    ∃ u, c.tokens = u :: c'.tokens ∧ t.Covers [u] := by
  rcases gives_literal.1 h with h | h
  · obtain ⟨u, n, hn, -, -, rfl⟩ := gives_number.1 h
    exact ⟨u, tokens_of_next hn, u, rfl, rfl⟩
  · obtain ⟨u, hn, -, rfl⟩ := gives_symbol.1 h
    exact ⟨u, tokens_of_next hn, u, rfl, rfl⟩

mutual

theorem covers_of_operand {c c' : Cursor} {t : Tree} (h : (operand c).Gives t c') :
    ∃ ts, c.tokens = ts ++ c'.tokens ∧ t.Covers ts := by
  rcases gives_operand.1 h with h | h
  · obtain ⟨u, hu, ht⟩ := covers_of_literal h
    exact ⟨[u], hu, ht⟩
  · obtain ⟨opening, c₁, inner, c₂, closing, ho, -, hi, hc, rfl⟩ := gives_paren.1 h
    have hlt := ho.size_lt
    obtain ⟨us, hus, hinner⟩ := covers_of_expr hi
    have hopen := tokens_of_next (gives_token.1 ho).1
    have hclose := tokens_of_next (gives_token.1 hc).1
    refine ⟨opening :: (us ++ [closing]), ?_, opening, us, closing, rfl, hinner, rfl⟩
    rw [hopen, hus, hclose]
    simp
termination_by 2 * c.size

theorem covers_of_expr {c c' : Cursor} {t : Tree} (h : (expr c).Gives t c') :
    ∃ ts, c.tokens = ts ++ c'.tokens ∧ t.Covers ts := by
  obtain ⟨lhs, c₁, ho, hc⟩ := gives_expr.1 h
  have hlt := ho.size_lt
  rw [chain_eq_run, gives_map] at hc
  obtain ⟨xs, hr, rfl⟩ := hc
  obtain ⟨us, hus, hl⟩ := covers_of_operand ho
  obtain ⟨vs, hvs, hxs⟩ := covers_of_run hr
  refine ⟨us ++ vs, ?_, Tree.covers_group hl hxs⟩
  rw [hus, hvs, List.append_assoc]
termination_by 2 * c.size + 1

theorem covers_of_run {least : Precedence} {c c' : Cursor} {xs : List (Operator × Tree)}
    (h : (run least c).Gives xs c') :
    ∃ ts, c.tokens = ts ++ c'.tokens ∧ Tree.RunCovers xs ts := by
  match xs with
  | [] =>
    obtain ⟨rfl, -⟩ := gives_run_nil.1 h
    exact ⟨[], rfl, rfl⟩
  | (op, x) :: xs =>
    obtain ⟨c₁, c₂, ho, hx, hr⟩ := gives_run_cons.1 h
    have h₁ := ho.size_lt
    have h₂ := hx.size_lt
    obtain ⟨t, hn, -, hspan⟩ := gives_operator.1 (gives_operatorFrom.1 ho).1
    obtain ⟨us, hus, hxc⟩ := covers_of_operand hx
    obtain ⟨vs, hvs, hxs⟩ := covers_of_run hr
    refine ⟨t :: (us ++ vs), ?_, t, us, vs, rfl, hspan, hxc, hxs⟩
    rw [tokens_of_next hn, hus, hvs]
    simp
termination_by 2 * c.size + 1

end

end Grammar

end SumProduct
