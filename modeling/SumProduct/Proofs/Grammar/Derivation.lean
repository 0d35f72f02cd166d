/-
The grammar of expressions, apart from any way of reading:

    E -> T | E + T        T -> F | T * F        F -> integer | decimal | name | ( E )

A derivation spells a list of terminals and stands for one shape of tree. The grammar is
unambiguous: a list of terminals is spelt by one derivation at most.
-/
import SumProduct.Proofs.Number.Numeral
import SumProduct.Tree
import SumProduct.Token.Scan

namespace SumProduct

/-! ## Shapes -/

/-- A tree without the regions of its parts. -/
inductive Shape where
  | number (value : Double)
  | symbol (name : String)
  | paren (inner : Shape)
  | binary (lhs : Shape) (op : OperatorKind) (rhs : Shape)
deriving DecidableEq, Repr

@[simp] def Tree.shape : Tree → Shape
  | number value _ => .number value
  | symbol name _ => .symbol name
  | paren inner _ => .paren inner.shape
  | binary lhs op rhs _ => .binary lhs.shape op.kind rhs.shape

namespace Grammar

/-! ## Terminals -/

/-- A token as the grammar knows it, without its place. -/
inductive Terminal where
  | integer (lexeme : String)
  | decimal (lexeme : String)
  | name (lexeme : String)
  | plus
  | times
  | openParen
  | closeParen
  /-- A token with no place in an expression. -/
  | other (lexeme : String)
deriving DecidableEq, Repr

namespace Terminal

def ofToken (t : Token) : Terminal :=
  match t.kind with
  | .integer => integer t.lexeme
  | .decimal => decimal t.lexeme
  | .name => name t.lexeme
  | .plus => plus
  | .times => times
  | .openParen => openParen
  | .closeParen => closeParen
  | .whitespace | .other => other t.lexeme

/-- What a terminal tells of its token. -/
def Of (t : Token) : Terminal → Prop
  | integer lexeme => t.kind = .integer ∧ t.lexeme = lexeme
  | decimal lexeme => t.kind = .decimal ∧ t.lexeme = lexeme
  | name lexeme => t.kind = .name ∧ t.lexeme = lexeme
  | plus => t.kind = .plus
  | times => t.kind = .times
  | openParen => t.kind = .openParen
  | closeParen => t.kind = .closeParen
  | other lexeme => (t.kind = .whitespace ∨ t.kind = .other) ∧ t.lexeme = lexeme

theorem ofToken_eq_iff {t : Token} {w : Terminal} : ofToken t = w ↔ w.Of t := by
  unfold ofToken
  cases hk : t.kind <;> cases w <;> simp [Of, hk]

/-- The terminals of a source: its tokens but for whitespace. -/
def ofSource (source : String) : List Terminal :=
  ((Token.scan source).filter fun t => !t.isBlank).map ofToken

/-- Whether a numeral has a finite double for its value. Other terminals have none to spoil. -/
def isFinite : Terminal → Bool
  | integer lexeme | decimal lexeme => (Decimal.read lexeme).toDouble.isFinite
  | _ => true

def ofOperator : OperatorKind → Terminal
  | .plus => plus
  | .times => times

end Terminal

/-! ## Derivations -/

inductive Nonterminal where
  | expr
  | term
  | factor

/-- The derivation trees of the grammar, one constructor for each production. -/
inductive Derivation : Nonterminal → Type where
  | term (t : Derivation .term) : Derivation .expr
  | sum (e : Derivation .expr) (t : Derivation .term) : Derivation .expr
  | factor (f : Derivation .factor) : Derivation .term
  | product (t : Derivation .term) (f : Derivation .factor) : Derivation .term
  | integer (lexeme : String) : Derivation .factor
  | decimal (lexeme : String) : Derivation .factor
  | name (lexeme : String) : Derivation .factor
  | paren (e : Derivation .expr) : Derivation .factor

namespace Derivation

/-- The terminals that a derivation spells. -/
@[simp] def yield : {n : Nonterminal} → Derivation n → List Terminal
  | _, term t => t.yield
  | _, sum e t => e.yield ++ .plus :: t.yield
  | _, factor f => f.yield
  | _, product t f => t.yield ++ .times :: f.yield
  | _, integer lexeme => [.integer lexeme]
  | _, decimal lexeme => [.decimal lexeme]
  | _, name lexeme => [.name lexeme]
  | _, paren e => .openParen :: (e.yield ++ [.closeParen])

/-- The shape that a derivation stands for: parentheses are kept, sums and products are binary,
and numerals have their values. -/
@[simp] def shape : {n : Nonterminal} → Derivation n → Shape
  | _, term t => t.shape
  | _, sum e t => .binary e.shape .plus t.shape
  | _, factor f => f.shape
  | _, product t f => .binary t.shape .times f.shape
  | _, integer lexeme => .number (Decimal.read lexeme).toDouble
  | _, decimal lexeme => .number (Decimal.read lexeme).toDouble
  | _, name lexeme => .symbol lexeme
  | _, paren e => .paren e.shape

/-! ## Unambiguity -/

/-- No operator that a derivation could go on from ends the terminals before it. -/
def Detached (before : List Terminal) : Nonterminal → Prop
  | .factor => True
  | .term => before.getLast? ≠ some .times
  | .expr => before.getLast? ≠ some .times ∧ before.getLast? ≠ some .plus

theorem detached_nil (n : Nonterminal) : Detached [] n := by
  cases n <;> simp [Detached]

theorem append_yield_paren (p : List Terminal) (e : Derivation .expr) :
    p ++ (paren e).yield = (p ++ [.openParen] ++ e.yield) ++ [.closeParen] := by
  simp

/-- A derivation is known from its end: the terminals before it and the derivation are determined
by all terminals up to its last. The grammar recurs on the left, so its derivations come apart from
the right. -/
theorem eq_of_append_yield_eq {n : Nonterminal} (d : Derivation n) :
    ∀ (d' : Derivation n) (p p' : List Terminal), Detached p n → Detached p' n →
      p ++ d.yield = p' ++ d'.yield → p = p' ∧ d = d' := by
  induction d with
  | term t iht =>
    intro d' p p' hp hp' h
    cases d' with
    | term t' =>
      obtain ⟨rfl, rfl⟩ := iht t' p p' hp.1 hp'.1 h
      exact ⟨rfl, rfl⟩
    | sum e' t' =>
      obtain ⟨rfl, -⟩ := iht t' p (p' ++ e'.yield ++ [.plus]) hp.1 (by simp [Detached])
        (by simpa using h)
      simp [Detached] at hp
  | sum e t ihe iht =>
    intro d' p p' hp hp' h
    cases d' with
    | term t' =>
      obtain ⟨rfl, -⟩ := iht t' (p ++ e.yield ++ [.plus]) p' (by simp [Detached]) hp'.1
        (by simpa using h)
      simp [Detached] at hp'
    | sum e' t' =>
      obtain ⟨hpe, rfl⟩ := iht t' (p ++ e.yield ++ [.plus]) (p' ++ e'.yield ++ [.plus])
        (by simp [Detached]) (by simp [Detached]) (by simpa using h)
      obtain ⟨rfl, rfl⟩ := ihe e' p p' hp hp' (List.append_singleton_inj.1 hpe).1
      exact ⟨rfl, rfl⟩
  | factor f ihf =>
    intro d' p p' hp hp' h
    cases d' with
    | factor f' =>
      obtain ⟨rfl, rfl⟩ := ihf f' p p' trivial trivial h
      exact ⟨rfl, rfl⟩
    | product t' f' =>
      obtain ⟨rfl, -⟩ := ihf f' p (p' ++ t'.yield ++ [.times]) trivial trivial
        (by simpa using h)
      simp [Detached] at hp
  | product t f iht ihf =>
    intro d' p p' hp hp' h
    cases d' with
    | factor f' =>
      obtain ⟨rfl, -⟩ := ihf f' (p ++ t.yield ++ [.times]) p' trivial trivial
        (by simpa using h)
      simp [Detached] at hp'
    | product t' f' =>
      obtain ⟨hpt, rfl⟩ := ihf f' (p ++ t.yield ++ [.times]) (p' ++ t'.yield ++ [.times])
        trivial trivial (by simpa using h)
      obtain ⟨rfl, rfl⟩ := iht t' p p' hp hp' (List.append_singleton_inj.1 hpt).1
      exact ⟨rfl, rfl⟩
  | paren e ihe =>
    intro d' p p' _ _ h
    rw [append_yield_paren] at h
    cases d' with
    | paren e' =>
      rw [append_yield_paren] at h
      obtain ⟨hpe, rfl⟩ := ihe e' (p ++ [.openParen]) (p' ++ [.openParen]) (by simp [Detached])
        (by simp [Detached]) (List.append_singleton_inj.1 h).1
      exact ⟨(List.append_singleton_inj.1 hpe).1, rfl⟩
    | _ => cases (List.append_singleton_inj.1 h).2
  | integer lexeme | decimal lexeme | name lexeme =>
    intro d' p p' _ _ h
    cases d' with
    | paren e' =>
      rw [append_yield_paren] at h
      cases (List.append_singleton_inj.1 h).2
    | _ =>
      obtain ⟨rfl, hl⟩ := List.append_singleton_inj.1 h
      cases hl <;> exact ⟨rfl, rfl⟩

/-- The grammar is unambiguous. -/
theorem eq_of_yield_eq {n : Nonterminal} {d d' : Derivation n} (h : d.yield = d'.yield) : d = d' :=
  (eq_of_append_yield_eq d d' [] [] (detached_nil n) (detached_nil n) h).2

end Derivation

end Grammar

end SumProduct
