/-
Division of a source text into tokens. Each token is the longest run from its start that forms
one, and every character belongs to one token.
-/
import SumProduct.Token.Basic

namespace SumProduct.Token

/-- The characters between tokens: blank, tab, carriage return and line feed. -/
def isBlankChar (c : Char) : Bool := c = ' ' || c = '\t' || c = '\r' || c = '\n'

/-- How many characters at the front satisfy a condition. -/
def run (p : Char → Bool) (cs : List Char) : Nat := (cs.takeWhile p).length

/-- The kind of the token that starts with a character, and how many of the characters after it
belong to the token. -/
def first (c : Char) (cs : List Char) : TokenKind × Nat :=
  if isBlankChar c then (.whitespace, run isBlankChar cs)
  else if c.isAlpha then (.name, run Char.isAlpha cs)
  else if c.isDigit then
    let digits := run Char.isDigit cs
    match cs.drop digits with
    | '.' :: rest => (.decimal, digits + 1 + run Char.isDigit rest)
    | _ => (.integer, digits)
  else if c = '.' then
    match run Char.isDigit cs with
    | 0 => (.other, 0)
    | digits => (.decimal, digits)
  else if c = '+' then (.plus, 0)
  else if c = '*' then (.times, 0)
  else if c = '(' then (.openParen, 0)
  else if c = ')' then (.closeParen, 0)
  else (.other, 0)

/-- The tokens of characters that begin at a byte of the source. -/
def scanFrom (start : Nat) : List Char → List Token
  | [] => []
  | c :: cs =>
    let (kind, more) := first c cs
    let lexeme := String.ofList (c :: cs.take more)
    let stop := start + lexeme.utf8ByteSize
    ⟨kind, ⟨start, stop⟩, lexeme⟩ :: scanFrom stop (cs.drop more)
termination_by cs => cs.length
decreasing_by simp only [List.length_drop, List.length_cons]; omega

/-- The tokens of a source text. -/
def scan (source : String) : List Token := scanFrom 0 source.toList

end SumProduct.Token
