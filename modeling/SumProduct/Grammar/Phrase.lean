/-
The phrases that can be asked for, and the ways of asking: reading with or without going back on
failure, reading a whole source, several phrases in a row, or the first of several that fits.
-/
import SumProduct.Grammar.Expr

namespace SumProduct

/-! ## Phrases and items -/

/-- What to read. -/
inductive Phrase where
  | expr
  | operand
  | literal
  | number
  | symbol
  | paren
  | binary
  | operator
deriving DecidableEq, Repr

/-- What was read. -/
inductive Item where
  | tree (t : Tree)
  | operator (op : Operator)
deriving DecidableEq, Repr

namespace Phrase

open Grammar

/-- Reads a phrase. On failure the cursor is left where reading got stuck. -/
def read : Phrase → (c : Cursor) → Outcome Item c.size
  | expr, c => (Grammar.expr c).map .tree
  | operand, c => (Grammar.operand c).map .tree
  | literal, c => (Grammar.literal c).map .tree
  | number, c => (Grammar.number c).map .tree
  | symbol, c => (Grammar.symbol c).map .tree
  | paren, c => (Grammar.paren c).map .tree
  | binary, c => (Grammar.binary c).map .tree
  | operator, c => (Grammar.operator c).map .operator

/-- Reads a phrase, or leaves the cursor where it is. -/
def tryRead (p : Phrase) (c : Cursor) : Outcome Item c.size := (p.read c).backTo c

/-- Reads a phrase that is then accepted or not, or leaves the cursor where it is. -/
def tryReadIf (accept : Item → Bool) (p : Phrase) (c : Cursor) : Outcome Item c.size :=
  match p.read c with
  | .fail e _ => .fail e c
  | .ok item c' h => if accept item then .ok item c' h else .fail (c'.error .unsuitable) c

/-- Reads a phrase behind which there is nothing but whitespace. -/
def readAll (p : Phrase) (c : Cursor) : Outcome Item c.size := (p.read c).complete

/-! ## Several phrases -/

/-- Reads phrases one behind the other up to the first failure. -/
def readEach : List Phrase → (c : Cursor) → Outcome (List Item) (c.size + 1)
  | [], c => .ok [] c (Nat.lt_succ_self _)
  | p :: ps, c =>
    match p.read c with
    | .fail e s => .fail e s
    | .ok item c' h => ((readEach ps c').map (item :: ·)).weaken (Nat.succ_le_succ (Nat.le_of_lt h))

/-- Reads phrases one behind the other, or leaves the cursor where it is. -/
def tryReadEach (ps : List Phrase) (c : Cursor) : Outcome (List Item) (c.size + 1) :=
  (readEach ps c).backTo c

/-- Reads the first phrase that fits. A fatal error ends the search; if all fail, the last error
counts. -/
def firstOf : List Phrase → (c : Cursor) → Outcome Item c.size
  | [], c => .fail (c.error .unsuitable) c
  | [p], c => p.tryRead c
  | p :: ps, c => (p.tryRead c).orElse fun _ => firstOf ps c

end Phrase

end SumProduct
