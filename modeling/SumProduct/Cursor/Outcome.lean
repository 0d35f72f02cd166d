/-
Outcomes of reading from a cursor. A success carries the cursor behind what was read, with fewer
tokens ahead than a bound; a failure carries the place where reading got stuck.
-/
import SumProduct.Cursor.Basic

namespace SumProduct

/-- What came of reading, where the tokens ahead after a success number less than `bound`. -/
inductive Outcome (α : Type) (bound : Nat) where
  | ok (value : α) (next : Cursor) (size_lt : next.size < bound)
  | fail (error : SyntaxError) (stuck : Cursor)

namespace Outcome

variable {α β : Type} {m n : Nat}

/-- The value or the error. -/
def result : Outcome α n → Except SyntaxError α
  | ok v _ _ => .ok v
  | fail e _ => .error e

/-- The cursor afterwards. -/
def cursor : Outcome α n → Cursor
  | ok _ c _ => c
  | fail _ c => c

/-- The same outcome under a larger bound. -/
def weaken (h : m ≤ n) : Outcome α m → Outcome α n
  | ok v c hc => ok v c (Nat.lt_of_lt_of_le hc h)
  | fail e c => fail e c

def map (f : α → β) : Outcome α n → Outcome β n
  | ok v c h => ok (f v) c h
  | fail e c => fail e c

/-- Goes back to a place on failure. -/
def backTo (place : Cursor) : Outcome α n → Outcome α n
  | ok v c h => ok v c h
  | fail e _ => fail e place

/-- Another outcome in place of a failure that is not fatal. -/
def orElse (o : Outcome α n) (other : Unit → Outcome α n) : Outcome α n :=
  match o with
  | ok v c h => ok v c h
  | fail e c => if e.fatal then fail e c else other ()

/-- Goes on reading behind a success. -/
def andThen (o : Outcome α n) (f : α → (c : Cursor) → Outcome β (c.size + 1)) : Outcome β n :=
  match o with
  | ok v c h => (f v c).weaken h
  | fail e c => fail e c

@[simp] theorem result_weaken (h : m ≤ n) (o : Outcome α m) : (o.weaken h).result = o.result := by
  cases o <;> rfl

@[simp] theorem cursor_weaken (h : m ≤ n) (o : Outcome α m) : (o.weaken h).cursor = o.cursor := by
  cases o <;> rfl

@[simp] theorem cursor_map (f : α → β) (o : Outcome α n) : (o.map f).cursor = o.cursor := by
  cases o <;> rfl

/-! ## Whole sources -/

/-- The error for a token behind a phrase that should have been the last. -/
def trailing (t : Token) : SyntaxError :=
  match t.kind with
  | .closeParen => .fatalAtSpan t.span (.unclosedParen false)
  | .other => .atSpan t.span (.unknownCharacter t.lexeme)
  | _ => .atSpan t.span .expectedEnd

/-- Fails if anything but whitespace lies behind a success. -/
def complete : Outcome α n → Outcome α n
  | ok v c h =>
    match c.peek? with
    | none => ok v c h
    | some t => fail (trailing t) c
  | fail e c => fail e c

end Outcome

end SumProduct
