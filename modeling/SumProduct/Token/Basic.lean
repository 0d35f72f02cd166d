/-
Tokens of a source text and the regions of it that they cover. Regions are counted in bytes of
UTF-8.
-/

namespace SumProduct

/-- The bytes from `start` up to, and not including, `stop`. -/
structure Span where
  start : Nat
  stop : Nat
deriving DecidableEq, Repr

namespace Span

/-- The empty region at a byte. -/
def point (i : Nat) : Span := ⟨i, i⟩

/-- From the start of one region to the end of another. -/
def cover (a b : Span) : Span := ⟨a.start, b.stop⟩

end Span

inductive TokenKind where
  /-- A run of blanks, tabs and line ends. -/
  | whitespace
  | plus
  | times
  | openParen
  | closeParen
  /-- A run of letters. -/
  | name
  /-- A run of digits. -/
  | integer
  /-- Digits with a point among, before or after them. -/
  | decimal
  /-- Any other character. -/
  | other
deriving DecidableEq, Repr

/-- The name of a kind in messages. -/
def TokenKind.label : TokenKind → String
  | whitespace => "Whitespace"
  | plus => "Add"
  | times => "Mul"
  | openParen => "OpenParen"
  | closeParen => "CloseParen"
  | name => "Name"
  | integer => "Int"
  | decimal => "Float"
  | other => "Symbol"

/-- A token with its place and its text. -/
structure Token where
  kind : TokenKind
  span : Span
  lexeme : String
deriving DecidableEq, Repr

def Token.isBlank (t : Token) : Bool := t.kind = .whitespace

end SumProduct
