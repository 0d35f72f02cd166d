/-
Walks over a source: moves of one cursor, with named places to return to. A move answers and
leaves the cursor somewhere; only a return moves it back.
-/
import SumProduct.Grammar.Phrase

namespace SumProduct

/-- One use of the cursor. -/
inductive Move where
  | next
  | peek
  | endSpan
  | error (cause : Cause)
  | fatalError (cause : Cause)
  | read (p : Phrase)
  | tryRead (p : Phrase)
  | tryReadIf (p : Phrase) (accepted : Bool)
  | readAll (p : Phrase)
  | operatorFrom (least : Precedence)
  | readEach (ps : List Phrase)
  | firstOf (ps : List Phrase)
  /-- An operand and the operators of at least a precedence behind it. -/
  | chain (least : Precedence)
  /-- The operators of at least a precedence behind a tree that is given. -/
  | extend (lhs : Tree) (least : Precedence)
  | save (name : String)
  | restore (name : String)
deriving DecidableEq, Repr

inductive Answer where
  | none
  | token (t : Token)
  | span (s : Span)
  | item (i : Item)
  | items (is : List Item)
  /-- The region of the first operand, and the tree of all. -/
  | chain (operand : Span) (tree : Tree)
  | error (e : SyntaxError)
deriving DecidableEq, Repr

/-- A cursor and the saved places, the latest first. -/
structure Walk where
  cursor : Cursor
  saved : List (String × Cursor)

namespace Walk

def start (source : String) : Walk := ⟨.ofSource source, []⟩

/-- The answer of an outcome, and the walk that goes on from its cursor. -/
def follow {α : Type} {n : Nat} (w : Walk) (o : Outcome α n) (answer : α → Answer) :
    Answer × Walk :=
  (match o.result with
    | .ok v => answer v
    | .error e => .error e,
   { w with cursor := o.cursor })

/-- An operand, then the chain of operators behind it. Only a failing operand leaves the cursor
where it is. -/
def chainAnswer (least : Precedence) (c : Cursor) : Outcome (Span × Tree) c.size :=
  ((Grammar.operand c).backTo c).andThen fun operand c' =>
    (Grammar.chain operand least c').map fun t => (operand.span, t)

def step (w : Walk) : Move → Answer × Walk
  | .next => w.follow (Grammar.next w.cursor) .token
  | .peek => ((w.cursor.peek?.map .token).getD .none, w)
  | .endSpan => (.span w.cursor.endSpan, w)
  | .error cause => (.error (w.cursor.error cause), w)
  | .fatalError cause => (.error (w.cursor.fatalError cause), w)
  | .read p => w.follow (p.read w.cursor) .item
  | .tryRead p => w.follow (p.tryRead w.cursor) .item
  | .tryReadIf p accepted => w.follow (p.tryReadIf (fun _ => accepted) w.cursor) .item
  | .readAll p => w.follow (p.readAll w.cursor) .item
  | .operatorFrom least =>
    w.follow (Grammar.operatorFrom least w.cursor) fun op => .item (.operator op)
  | .readEach ps => w.follow (Phrase.tryReadEach ps w.cursor) .items
  | .firstOf ps => w.follow (Phrase.firstOf ps w.cursor) .item
  | .chain least => w.follow (chainAnswer least w.cursor) fun (s, t) => .chain s t
  | .extend lhs least => w.follow (Grammar.chain lhs least w.cursor) fun t => .chain lhs.span t
  | .save name => (.none, { w with saved := (name, w.cursor) :: w.saved })
  | .restore name => (.none, { w with cursor := (w.saved.lookup name).getD w.cursor })

/-- The answers of successive moves, each with the region of the first token then ahead. -/
def run (w : Walk) : List Move → List (Answer × Span)
  | [] => []
  | m :: ms =>
    let (answer, w') := w.step m
    (answer, w'.cursor.span) :: w'.run ms

end Walk

end SumProduct
