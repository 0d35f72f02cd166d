/-
Worksheets: lines of expressions, each made from a text or from earlier lines, under bindings that
change between the lines.
-/
import SumProduct.Parse
import SumProduct.Derivative
import SumProduct.Simplify.Basic

namespace SumProduct

/-- What to put on the next line. Lines are counted from zero. An expression that is given from
outside may be one that could not be made. -/
inductive Entry where
  | expr (e : Except Failure Expr)
  | sum (i j : Nat)
  | product (i j : Nat)
  | derivative (i : Nat) (var : Except Failure Expr)
  /-- A line simplified under the bindings of the moment. -/
  | simplify (i : Nat)
  /-- A line written and read again. -/
  | reread (i : Nat)
  | bind (key : Except Failure Expr) (value : Double)
  /-- Drops all bindings. -/
  | clear

/-- Why a line stays empty. -/
inductive Blank where
  /-- An earlier line that is empty or not there. -/
  | noLine
  | failure (e : Failure)

/-- An expression on a line, the first earlier line equal to it, and the steps of its
simplification if it was made by one. -/
structure Line where
  expr : Expr
  sameAs : Option Nat
  steps : Option (List Step)

structure Worksheet where
  bindings : Bindings
  lines : Array (Option Expr)

namespace Worksheet

def start (b : Bindings) : Worksheet := ⟨b, #[]⟩

/-- The expression on a line. -/
def line (w : Worksheet) (i : Nat) : Except Blank Expr :=
  match w.lines[i]? with
  | some (some e) => .ok e
  | _ => .error .noLine

/-- The expression of an entry, the steps of its simplification, and the bindings behind it. -/
def evaluate (w : Worksheet) : Entry → Except Blank (Expr × Option (List Step) × Bindings)
  | .expr e => do pure (← e.mapError .failure, none, w.bindings)
  | .sum i j => do pure (.sum (← w.line i) (← w.line j), none, w.bindings)
  | .product i j => do pure (.product (← w.line i) (← w.line j), none, w.bindings)
  | .derivative i var => do
    let f ← w.line i
    let x ← var.mapError .failure
    let d ← (f.derivativeBy x).mapError fun e => .failure (.refusal e)
    pure (d, none, w.bindings)
  | .simplify i => do
    let (e, steps) := (← w.line i).simplifyWithSteps w.bindings
    pure (e, some steps, w.bindings)
  | .reread i => do
    pure (← (Expr.parse (← w.line i).text).mapError .failure, none, w.bindings)
  | .bind key value => do
    let x ← key.mapError .failure
    let (_, b) ← (w.bindings.insert x value).mapError fun e => .failure (.refusal e)
    pure (x, none, b)
  | .clear => .ok (.zero, none, .empty)

/-- Writes one line. -/
def write (w : Worksheet) (entry : Entry) : Except Blank Line × Worksheet :=
  match w.evaluate entry with
  | .error e => (.error e, { w with lines := w.lines.push none })
  | .ok (e, steps, b) => (.ok ⟨e, w.lines.findIdx? (· = some e), steps⟩, ⟨b, w.lines.push (some e)⟩)

/-- Writes lines one below the other. -/
def writeAll (w : Worksheet) : List Entry → List (Except Blank Line)
  | [] => []
  | entry :: rest =>
    let (line, w') := w.write entry
    line :: w'.writeAll rest

end Worksheet

end SumProduct
