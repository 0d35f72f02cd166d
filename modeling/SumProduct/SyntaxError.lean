/-
Why a text could not be read, where, and how that is told: a one-line message, and a report with
a label at the place and advice. The parts of a report that name pieces of expressions are marked
by `<expr>` tags.
-/
import SumProduct.Token.Basic

namespace SumProduct

/-! ## Causes -/

inductive Cause where
  /-- The value read was not of the kind asked for. -/
  | unsuitable
  | unexpectedEnd
  /-- Something follows a complete expression. -/
  | expectedEnd
  | unexpectedToken (expected : List TokenKind) (found : TokenKind)
  | unknownCharacter (text : String)
  /-- A number too large for a finite double. -/
  | invalidNumber (lexeme : String)
  /-- A parenthesis without its partner; `opening` tells which of the two is there. -/
  | unclosedParen (opening : Bool)
  | emptyParen
deriving DecidableEq, Repr

namespace Cause

def message : Cause → String
  | unsuitable => "an internal non-fatal error occurred while parsing"
  | unexpectedEnd => "unexpected end of input"
  | expectedEnd => "expected end of input"
  | unexpectedToken .. => "unexpected token"
  | unknownCharacter text => "unknown character `" ++ text ++ "`"
  | invalidNumber lexeme => "invalid number literal `" ++ lexeme ++ "`"
  | unclosedParen _ => "unclosed parenthesis"
  | emptyParen => "missing expression inside parenthesis"

/-- What is written at the place of the error. -/
def label : Cause → String
  | unsuitable => "here"
  | unexpectedEnd => "you might need to add another <expr>operand</expr> here"
  | expectedEnd => "I could not understand the remaining <expr>expression</expr> here"
  | unexpectedToken expected _ =>
    "expected one of: " ++ ", ".intercalate (expected.map TokenKind.label)
  | unknownCharacter _ => "this character is not allowed here"
  | invalidNumber _ => "this number cannot be represented"
  | unclosedParen _ => "this parenthesis is not closed"
  | emptyParen => "add an expression here"

/-- Advice, for the causes that have some. -/
def help : Cause → Option String
  | unsuitable => some "you should never see this error; please report this as a bug"
  | expectedEnd => some "operands must be joined with <expr>`+`</expr> or <expr>`*`</expr>"
  | unexpectedToken _ found => some ("found " ++ found.label)
  | unknownCharacter _ =>
    some ("expressions may only contain <expr>non-negative numbers</expr>, "
      ++ "<expr>letters</expr>, `+`, `*`, and parentheses")
  | unclosedParen true => some "add a closing parenthesis `)` somewhere after this"
  | unclosedParen false => some "add an opening parenthesis `(` somewhere before this"
  | unexpectedEnd | invalidNumber _ | emptyParen => none

end Cause

/-! ## Errors -/

/-- A cause tied to regions of the source. A fatal error keeps alternatives from being tried. -/
structure SyntaxError where
  spans : List Span
  cause : Cause
  fatal : Bool
deriving DecidableEq, Repr

/-- What is drawn about an error besides the source. -/
structure Report where
  message : String
  position : Option String
  label : Option String
  help : Option String
deriving DecidableEq, Repr

namespace SyntaxError

/-- A non-fatal error at one region. -/
def atSpan (span : Span) (cause : Cause) : SyntaxError := ⟨[span], cause, false⟩

/-- A fatal error at one region. -/
def fatalAtSpan (span : Span) (cause : Cause) : SyntaxError := ⟨[span], cause, true⟩

/-- The message, with the first region if there is one. -/
def text (e : SyntaxError) : String :=
  match e.spans with
  | [] => e.cause.message
  | s :: _ => e.cause.message ++ " at " ++ toString s.start ++ ".." ++ toString s.stop

/-- The report. It is drawn over a single line, with columns counted from one, and shows nothing
but the message when there is no region to point at. -/
def report (e : SyntaxError) : Report :=
  match e.spans with
  | [] => ⟨e.cause.message, none, none, none⟩
  | s :: _ =>
    ⟨e.cause.message, some ("1:" ++ toString (s.start + 1)), some e.cause.label, e.cause.help⟩

end SyntaxError

end SumProduct
