/-
Reading of sources that differ in whitespace only. Two cursors are alike when the tokens ahead of
them, whitespace left out, agree in everything but their regions. From there every reader takes the
same steps on both sides, so the values are alike, and so are the errors: each region that one of
them points at belongs to the same token, or to the end of the source, as in the other.
-/
import SumProduct.Proofs.Grammar.Acceptance
import SumProduct.Proofs.Grammar.Bounds
import SumProduct.Proofs.Grammar.Pass
import SumProduct.Proofs.Token.Spacing
import Mathlib.Data.List.Forall2

namespace SumProduct

/-! ## Alike up to regions -/

/-- Two tokens that differ in their regions at most, and these are related. -/
structure Token.Alike (R : Span → Span → Prop) (t u : Token) : Prop where
  kind : t.kind = u.kind
  lexeme : t.lexeme = u.lexeme
  span : R t.span u.span

/-- Two places with the same ahead, whitespace left out, in related regions. -/
structure Cursor.Alike (R : Span → Span → Prop) (c d : Cursor) : Prop where
  tokens : List.Forall₂ (Token.Alike R) c.tokens d.tokens
  endSpan : R c.endSpan d.endSpan

/-- Two errors that differ in their regions at most, and these are related. -/
structure SyntaxError.Alike (R : Span → Span → Prop) (e f : SyntaxError) : Prop where
  spans : List.Forall₂ R e.spans f.spans
  cause : e.cause = f.cause
  fatal : e.fatal = f.fatal

/-- Two operators that differ in their regions at most. -/
def Operator.Alike (a b : Operator) : Prop := a.kind = b.kind

/-- Two trees that differ in their regions at most. -/
def Tree.Alike (t u : Tree) : Prop := t.shape = u.shape

/-- Two items that differ in their regions at most. -/
def Item.Alike : Item → Item → Prop
  | .tree t, .tree u => t.Alike u
  | .operator a, .operator b => a.Alike b
  | _, _ => False

/-- Two outcomes at alike places: both with related values, or both with alike errors. -/
inductive Outcome.Alike {α β : Type} {m n : Nat} (R : Span → Span → Prop) (V : α → β → Prop) :
    Outcome α m → Outcome β n → Prop where
  | ok {v : α} {w : β} {c d : Cursor} {hc : c.size < m} {hd : d.size < n} :
    V v w → c.Alike R d → Alike R V (.ok v c hc) (.ok w d hd)
  | fail {e f : SyntaxError} {c d : Cursor} :
    e.Alike R f → c.Alike R d → Alike R V (.fail e c) (.fail f d)

variable {R : Span → Span → Prop}

/-! ## Places -/

namespace Cursor.Alike

variable {c d : Cursor}

/-- Both sides are at the end, or the first tokens ahead are alike. -/
theorem cases (h : c.Alike R d) :
    (c.tokens = [] ∧ d.tokens = []) ∨
      ∃ t u ts us, c.tokens = t :: ts ∧ d.tokens = u :: us ∧ t.Alike R u ∧
        List.Forall₂ (Token.Alike R) ts us := by
  have htokens := h.tokens
  cases hc : c.tokens with
  | nil =>
    rw [hc] at htokens
    exact .inl ⟨rfl, List.forall₂_nil_left_iff.1 htokens⟩
  | cons t ts =>
    rw [hc] at htokens
    obtain ⟨u, us, htu, hts, hd⟩ := List.forall₂_cons_left_iff.1 htokens
    exact .inr ⟨t, u, ts, us, rfl, hd, htu, hts⟩

theorem sees_eq (h : c.Alike R d) (kind : TokenKind) : c.sees kind = d.sees kind := by
  rw [sees, sees, peek?_eq_head?, peek?_eq_head?]
  rcases h.cases with ⟨hc, hd⟩ | ⟨t, u, ts, us, hc, hd, htu, -⟩
  · rw [hc, hd]
  · rw [hc, hd, List.head?_cons, List.head?_cons, Option.any_some, Option.any_some, htu.kind]

theorem span (h : c.Alike R d) : R c.span d.span := by
  rw [Cursor.span, Cursor.span, peek?_eq_head?, peek?_eq_head?]
  rcases h.cases with ⟨hc, hd⟩ | ⟨t, u, ts, us, hc, hd, htu, -⟩
  · rw [hc, hd]
    exact h.endSpan
  · rw [hc, hd]
    exact htu.span

end Cursor.Alike

namespace SyntaxError

theorem alike_atSpan {s s' : Span} (h : R s s') (cause : Cause) :
    (atSpan s cause).Alike R (atSpan s' cause) :=
  ⟨.cons h .nil, rfl, rfl⟩

theorem alike_fatalAtSpan {s s' : Span} (h : R s s') (cause : Cause) :
    (fatalAtSpan s cause).Alike R (fatalAtSpan s' cause) :=
  ⟨.cons h .nil, rfl, rfl⟩

theorem alike_trailing {t u : Token} (h : t.Alike R u) :
    (Outcome.trailing t).Alike R (Outcome.trailing u) := by
  unfold Outcome.trailing
  rw [← h.kind, ← h.lexeme]
  split
  · exact alike_fatalAtSpan h.span _
  · exact alike_atSpan h.span _
  · exact alike_atSpan h.span _

end SyntaxError

/-! ## Outcomes -/

namespace Outcome.Alike

variable {α β γ δ : Type} {m n m' n' : Nat} {V : α → β → Prop} {o : Outcome α m} {p : Outcome β n}

theorem weaken (h : o.Alike R V p) {hm : m ≤ m'} {hn : n ≤ n'} :
    (o.weaken hm).Alike R V (p.weaken hn) := by
  cases h with
  | ok hv hc => exact .ok hv hc
  | fail he hc => exact .fail he hc

theorem map {W : γ → δ → Prop} {f : α → γ} {g : β → δ} (h : o.Alike R V p)
    (hfg : ∀ v w, V v w → W (f v) (g w)) : (o.map f).Alike R W (p.map g) := by
  cases h with
  | ok hv hc => exact .ok (hfg _ _ hv) hc
  | fail he hc => exact .fail he hc

theorem backTo (h : o.Alike R V p) {c d : Cursor} (hcd : c.Alike R d) :
    (o.backTo c).Alike R V (p.backTo d) := by
  cases h with
  | ok hv hc => exact .ok hv hc
  | fail he _ => exact .fail he hcd

/-- The alternatives are tried on both sides or on none. -/
theorem orElse {f : Unit → Outcome α m} {g : Unit → Outcome β n} (h : o.Alike R V p)
    (hfg : (f ()).Alike R V (g ())) : (o.orElse f).Alike R V (p.orElse g) := by
  cases h with
  | ok hv hc => exact .ok hv hc
  | fail he hc =>
    unfold Outcome.orElse
    dsimp only
    rw [← he.fatal]
    split
    · exact .fail he hc
    · exact hfg

theorem complete (h : o.Alike R V p) : o.complete.Alike R V p.complete := by
  cases h with
  | fail he hc => exact .fail he hc
  | @ok v w c d hcm hdn hv hc =>
    unfold Outcome.complete
    dsimp only
    rw [Cursor.peek?_eq_head?, Cursor.peek?_eq_head?]
    rcases hc.cases with ⟨hcn, hdn⟩ | ⟨t, u, ts, us, hct, hdu, htu, -⟩
    · rw [hcn, hdn]
      exact .ok hv hc
    · rw [hct, hdu]
      exact .fail (SyntaxError.alike_trailing htu) hc

end Outcome.Alike

namespace Grammar

open Outcome SyntaxError

/-! ## Single tokens -/

theorem next_of_tokens_nil {c : Cursor} (h : c.tokens = []) :
    next c = .fail (.atSpan c.endSpan .unexpectedEnd) ⟨[], c.stop⟩ := by
  rcases nextOf_cases c.stop c.rest with ⟨k, t, -, hn⟩ | ⟨e, he⟩
  · have htokens := tokens_of_next hn
    rw [h] at htokens
    cases htokens
  · obtain ⟨-, rfl⟩ := nextOf_fail he
    exact he

variable {c d : Cursor}

theorem alike_next (h : c.Alike R d) : (next c).Alike R (Token.Alike R) (next d) := by
  rcases h.cases with ⟨hc, hd⟩ | ⟨t, u, ts, us, hc, hd, htu, hts⟩
  · rw [next_of_tokens_nil hc, next_of_tokens_nil hd]
    exact .fail (alike_atSpan h.endSpan _) ⟨.nil, h.endSpan⟩
  · obtain ⟨c', hn, rfl⟩ := next_of_tokens hc
    obtain ⟨d', hm, rfl⟩ := next_of_tokens hd
    have hend : R c'.endSpan d'.endSpan := by
      rw [endSpan_of_next hn, endSpan_of_next hm]
      exact h.endSpan
    obtain ⟨_, hn⟩ := hn
    obtain ⟨_, hm⟩ := hm
    rw [hn, hm]
    exact .ok htu ⟨hts, hend⟩

theorem alike_token (kind : TokenKind) (h : c.Alike R d) :
    (token kind c).Alike R (Token.Alike R) (token kind d) := by
  have hn := alike_next h
  unfold token
  generalize next c = o, next d = p at hn
  cases hn with
  | fail he hc => exact .fail he hc
  | ok ht hc =>
    dsimp only
    rw [← ht.kind]
    split
    · exact .ok ht hc
    · exact .fail (alike_atSpan ht.span _) hc

theorem alike_operator (h : c.Alike R d) :
    (operator c).Alike R Operator.Alike (operator d) := by
  have hn := alike_next h
  unfold operator
  generalize next c = o, next d = p at hn
  cases hn with
  | fail he hc => exact .fail he hc
  | ok ht hc =>
    dsimp only
    rw [← ht.kind]
    split
    · exact .ok rfl hc
    · exact .fail (alike_atSpan ht.span _) hc

/-- A condition on the kind of an operator holds on both sides or on none. -/
theorem alike_operatorIf {accept : Operator → Bool}
    (haccept : ∀ a b : Operator, a.Alike b → accept a = accept b) (h : c.Alike R d) :
    (operatorIf accept c).Alike R Operator.Alike (operatorIf accept d) := by
  have ho := alike_operator h
  unfold operatorIf
  generalize operator c = o, operator d = p at ho
  cases ho with
  | fail he _ => exact .fail he h
  | ok hop hc =>
    dsimp only
    rw [← haccept _ _ hop]
    split
    · exact .ok hop hc
    · exact .fail (alike_atSpan hc.span _) h

theorem alike_operatorFrom (least : Precedence) (h : c.Alike R d) :
    (operatorFrom least c).Alike R Operator.Alike (operatorFrom least d) := by
  refine alike_operatorIf (fun a b hab => ?_) h
  rw [Operator.precedence, Operator.precedence, hab]

/-! ## Operands -/

theorem alike_numberBy (value : String → Option Number) (h : c.Alike R d) :
    (numberBy value c).Alike R Tree.Alike (numberBy value d) := by
  have ho := ((alike_token .integer h).backTo h).orElse (f := fun _ => (token .decimal c).backTo c)
    (g := fun _ => (token .decimal d).backTo d) ((alike_token .decimal h).backTo h)
  unfold numberBy
  generalize ((token .integer c).backTo c).orElse (fun _ => (token .decimal c).backTo c) = o,
    ((token .integer d).backTo d).orElse (fun _ => (token .decimal d).backTo d) = p at ho
  cases ho with
  | fail he hc => exact .fail he hc
  | ok ht hc =>
    dsimp only
    rw [← ht.lexeme]
    split
    · exact .ok rfl hc
    · exact .fail (alike_fatalAtSpan ht.span _) hc

theorem alike_symbol (h : c.Alike R d) : (symbol c).Alike R Tree.Alike (symbol d) :=
  ((alike_token .name h).backTo h).map fun _ _ ht => congrArg Shape.symbol ht.lexeme

theorem alike_literal (h : c.Alike R d) : (literal c).Alike R Tree.Alike (literal d) :=
  ((alike_numberBy _ h).backTo h).orElse (alike_symbol h)

theorem alike_noOperand (h : c.Alike R d) :
    (noOperand c).Alike R Tree.Alike (noOperand d) := by
  have hn := alike_next h
  unfold noOperand
  generalize next c = o, next d = p at hn
  cases hn with
  | fail he hc => exact .fail he hc
  | ok ht hc =>
    dsimp only
    rw [← ht.kind, ← ht.lexeme]
    split
    · exact .fail (alike_fatalAtSpan ht.span _) hc
    · exact .fail (alike_atSpan ht.span _) hc
    · exact .fail (alike_atSpan ht.span _) hc

theorem alike_operandOr {x : Outcome Tree c.size} {y : Outcome Tree d.size} (h : c.Alike R d)
    (hxy : x.Alike R Tree.Alike y) : (operandOr c x).Alike R Tree.Alike (operandOr d y) :=
  ((alike_literal h).backTo h).orElse ((hxy.backTo h).orElse (alike_noOperand h))

/-! ## Expressions -/

/-- Two runs that differ in their regions at most. -/
def RunAlike (xs ys : List (Operator × Tree)) : Prop :=
  xs.map (Prod.map Operator.kind Tree.shape) = ys.map (Prod.map Operator.kind Tree.shape)

theorem alike_group {lhs lhs' : Tree} {xs ys : List (Operator × Tree)} (h : lhs.Alike lhs')
    (hxs : RunAlike xs ys) : (lhs.group xs).Alike (lhs'.group ys) := by
  unfold Tree.Alike
  rw [shape_group, shape_group, h, hxs]

mutual

theorem alike_paren {c d : Cursor} (h : c.Alike R d) :
    (paren c).Alike R Tree.Alike (paren d) := by
  have ho := (alike_token .openParen h).backTo h
  rw [paren, paren]
  generalize (token .openParen c).backTo c = o, (token .openParen d).backTo d = p at ho
  cases ho with
  | fail he hc => exact .fail he hc
  | @ok opening opening' c₁ d₁ h₁ _ hopening hc₁ =>
    dsimp only
    rw [← hc₁.sees_eq]
    split
    · exact .fail (alike_fatalAtSpan hc₁.span _) hc₁
    · have he := alike_expr hc₁
      generalize expr c₁ = o, expr d₁ = p at he
      cases he with
      | fail he _ => exact .fail he hc₁
      | @ok inner inner' c₂ d₂ _ _ hinner hc₂ =>
        have hclose := alike_token .closeParen hc₂
        dsimp only
        generalize token .closeParen c₂ = o, token .closeParen d₂ = p at hclose
        cases hclose with
        | fail _ _ => exact .fail (alike_fatalAtSpan hopening.span _) hc₂
        | ok _ hc₃ => exact .ok (congrArg Shape.paren hinner) hc₃
termination_by 2 * c.size

theorem alike_expr {c d : Cursor} (h : c.Alike R d) : (expr c).Alike R Tree.Alike (expr d) := by
  cases hs : c.sees .closeParen with
  | true =>
    rw [expr, if_pos hs, expr, if_pos (by rw [← h.sees_eq, hs])]
    exact .fail (alike_fatalAtSpan h.span _) h
  | false =>
    have ho := (alike_operandOr h (alike_paren h)).backTo h
    rw [expr_eq_andThen hs, expr_eq_andThen (by rw [← h.sees_eq, hs]), operand, operand]
    generalize (operandOr c (paren c)).backTo c = o, (operandOr d (paren d)).backTo d = p at ho
    cases ho with
    | fail he hc => exact .fail he hc
    | @ok lhs lhs' c₁ d₁ h₁ _ hlhs hc₁ =>
      have hr := alike_run .any hc₁
      rw [andThen_ok, andThen_ok]
      exact (hr.map fun _ _ hxs => alike_group hlhs hxs).weaken
termination_by 2 * c.size + 1

theorem alike_run (least : Precedence) {c d : Cursor} (h : c.Alike R d) :
    (run least c).Alike R RunAlike (run least d) := by
  have hop := alike_operatorFrom least h
  rw [run, run]
  generalize operatorFrom least c = o, operatorFrom least d = p at hop
  cases hop with
  | fail _ _ => exact .ok rfl h
  | @ok op op' c₁ d₁ h₁ _ hop hc₁ =>
    have ho := alike_operandOr hc₁ (alike_paren hc₁)
    dsimp only
    rw [operand, operand]
    generalize operandOr c₁ (paren c₁) = o, operandOr d₁ (paren d₁) = p at ho
    cases ho with
    | fail he _ => exact .fail he hc₁
    | @ok x y c₂ d₂ h₂ _ hx hc₂ =>
      have hr := alike_run least hc₂
      refine (hr.map fun xs ys hxs => ?_).weaken
      exact congrArg₂ List.cons (congrArg₂ Prod.mk hop hx) hxs
termination_by 2 * c.size + 1

end

theorem alike_binary (h : c.Alike R d) : (binary c).Alike R Tree.Alike (binary d) := by
  have he := (alike_expr h).backTo h
  unfold binary
  generalize (expr c).backTo c = o, (expr d).backTo d = p at he
  cases he with
  | fail he hc => exact .fail he hc
  | @ok t u _ _ _ _ htu hc =>
    have herror := alike_atSpan h.span .unsuitable
    cases t with
    | binary _ _ _ _ =>
      cases u with
      | binary _ _ _ _ => exact .ok htu hc
      | number _ _ | symbol _ _ | paren _ _ => cases htu
    | number _ _ | symbol _ _ | paren _ _ =>
      cases u with
      | binary _ _ _ _ => cases htu
      | number _ _ | symbol _ _ | paren _ _ => exact .fail herror hc

/-- Phrases are read alike at alike places. -/
theorem alike_read (p : Phrase) (h : c.Alike R d) : (p.read c).Alike R Item.Alike (p.read d) := by
  cases p with
  | expr => exact (alike_expr h).map fun _ _ hv => hv
  | operand => exact (alike_operandOr h (alike_paren h)).map fun _ _ hv => hv
  | literal => exact (alike_literal h).map fun _ _ hv => hv
  | number => exact (alike_numberBy _ h).map fun _ _ hv => hv
  | symbol => exact (alike_symbol h).map fun _ _ hv => hv
  | paren => exact (alike_paren h).map fun _ _ hv => hv
  | binary => exact (alike_binary h).map fun _ _ hv => hv
  | operator => exact (alike_operator h).map fun _ _ hv => hv

end Grammar

/-! ## Whole sources -/

/-- Two regions that belong to the same token of two sources, whitespace not counted, or to the ends
of both. -/
def SamePlace (source source' : String) (s s' : Span) : Prop :=
  (∃ (k : Nat) (t t' : Token), (Cursor.ofSource source).tokens[k]? = some t ∧
      (Cursor.ofSource source').tokens[k]? = some t' ∧ s = t.span ∧ s' = t'.span) ∨
    s = .point source.utf8ByteSize ∧ s' = .point source'.utf8ByteSize

theorem Cursor.alike_ofSource {source source' : String}
    (h : Token.signs (Token.scan source') = Token.signs (Token.scan source)) :
    (ofSource source).Alike (SamePlace source source') (ofSource source') := by
  have hsigns :
      (ofSource source').tokens.map Token.sign = (ofSource source).tokens.map Token.sign := h
  refine ⟨List.forall₂_iff_get.2 ⟨?_, fun k hk hk' => ?_⟩, .inr ⟨rfl, rfl⟩⟩
  · simpa using (congrArg List.length hsigns).symm
  · have hsign := congrArg (·[k]?) hsigns
    simp only [List.getElem?_map, List.getElem?_eq_getElem hk, List.getElem?_eq_getElem hk',
      Option.map_some, Option.some.injEq] at hsign
    obtain ⟨hkind, hlexeme⟩ := Prod.mk.inj hsign
    exact ⟨hkind.symm, hlexeme.symm, .inl ⟨k, _, _, List.getElem?_eq_getElem hk,
      List.getElem?_eq_getElem hk', rfl, rfl⟩⟩

namespace Phrase

/-- Whitespace put between the tokens of a source changes nothing but regions. The other tokens stay
the same, and a phrase that is read to the end gives alike items on both sides, or alike errors that
point at the same tokens. -/
theorem readAll_of_spaced {source source' : String}
    (h : Token.Spaced (Token.scan source) source'.toList) :
    Token.signs (Token.scan source') = Token.signs (Token.scan source) ∧
      ∀ p : Phrase,
        (∃ i j, (p.readAll (.ofSource source)).result = .ok i ∧
          (p.readAll (.ofSource source')).result = .ok j ∧ i.Alike j) ∨
        ∃ e f, (p.readAll (.ofSource source)).result = .error e ∧
          (p.readAll (.ofSource source')).result = .error f ∧
          e.Alike (SamePlace source source') f := by
  have hsigns := Token.signs_scan_of_spaced h
  refine ⟨hsigns, fun p => ?_⟩
  have hread := (Grammar.alike_read p (Cursor.alike_ofSource hsigns)).complete
  unfold readAll
  generalize (p.read (.ofSource source)).complete = o, (p.read (.ofSource source')).complete = o'
    at hread
  cases hread with
  | ok hij _ => exact .inl ⟨_, _, rfl, rfl, hij⟩
  | fail hef _ => exact .inr ⟨_, _, rfl, rfl, hef⟩

/-- The parenthesis that is not closed in `2*(x` is told as well when blanks stand around it. -/
theorem readAll_of_spaced_unclosed :
    ∃ e f, (expr.readAll (.ofSource "2*(x")).result = .error e ∧
      (expr.readAll (.ofSource " 2 *( \tx\r\n")).result = .error f ∧
      e.spans = [⟨2, 3⟩] ∧ f.spans = [⟨4, 5⟩] ∧
      e.Alike (SamePlace "2*(x" " 2 *( \tx\r\n") f := by
  have hscan : Token.scan "2*(x" = [⟨.integer, ⟨0, 1⟩, "2"⟩, ⟨.times, ⟨1, 2⟩, "*"⟩,
      ⟨.openParen, ⟨2, 3⟩, "("⟩, ⟨.name, ⟨3, 4⟩, "x"⟩] := by decide +kernel
  have hspaced : Token.Spaced (Token.scan "2*(x") " 2 *( \tx\r\n".toList := by
    rw [hscan]
    exact .blank rfl (.token _ (.blank rfl (.token _ (.token _ (.blank rfl (.blank rfl
      (.token _ (.blank rfl (.blank rfl .nil)))))))))
  have he : (expr.readAll (.ofSource "2*(x")).result =
      .error (.fatalAtSpan ⟨2, 3⟩ (.unclosedParen true)) := by decide +kernel
  have hf : (expr.readAll (.ofSource " 2 *( \tx\r\n")).result =
      .error (.fatalAtSpan ⟨4, 5⟩ (.unclosedParen true)) := by decide +kernel
  refine ⟨_, _, he, hf, rfl, rfl, ?_⟩
  rcases (readAll_of_spaced hspaced).2 expr with ⟨i, _, hi, -, -⟩ | ⟨e, f, he', hf', hef⟩
  · cases he.symm.trans hi
  · cases he.symm.trans he'
    cases hf.symm.trans hf'
    exact hef

end Phrase

end SumProduct
