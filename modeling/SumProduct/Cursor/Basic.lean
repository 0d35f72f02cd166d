/-
A place between the tokens of a source: what lies behind it is read, what lies ahead is not.
Whitespace ahead is passed over when the next token is looked at.
-/
import SumProduct.Token.Scan
import SumProduct.SyntaxError

namespace SumProduct

/-- The tokens ahead, whitespace included, and the byte where the source ends. -/
structure Cursor where
  rest : List Token
  stop : Nat
deriving DecidableEq

namespace Cursor

/-- The place before the first token of a source. -/
def ofSource (source : String) : Cursor := ⟨Token.scan source, source.utf8ByteSize⟩

/-- The number of tokens ahead. -/
def size (c : Cursor) : Nat := c.rest.length

/-- The first token ahead that is not whitespace. -/
def peek? (c : Cursor) : Option Token := c.rest.find? fun t => !t.isBlank

/-- Whether the first token ahead is of a kind. -/
def sees (c : Cursor) (kind : TokenKind) : Bool := c.peek?.any fun t => t.kind = kind

/-- The empty region at the end of the source. -/
def endSpan (c : Cursor) : Span := .point c.stop

/-- The region of the first token ahead, or the end of the source. -/
def span (c : Cursor) : Span := (c.peek?.map Token.span).getD c.endSpan

/-- An error at the first token ahead. -/
def error (c : Cursor) (cause : Cause) : SyntaxError := .atSpan c.span cause

/-- A fatal error at the first token ahead. -/
def fatalError (c : Cursor) (cause : Cause) : SyntaxError := .fatalAtSpan c.span cause

end Cursor

end SumProduct
