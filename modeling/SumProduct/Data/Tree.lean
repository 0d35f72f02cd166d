/-
The stored form of parse trees. Values in a tree are not checked.
-/
import SumProduct.Data.Basic
import SumProduct.Tree

namespace SumProduct

namespace Span

def toData (s : Span) : Data := .record [("start", .integer s.start), ("end", .integer s.stop)]

/-- A region; of all records this one admits no other fields. -/
def ofData? (d : Data) : Option Span :=
  if d.hasOnly ["start", "end"] then
    match d.fields? ["start", "end"] with
    | some [start, stop] => do pure ⟨← start.nat?, ← stop.nat?⟩
    | _ => none
  else none

end Span

namespace OperatorKind

def name : OperatorKind → String
  | plus => "Add"
  | times => "Mul"

def ofName? : String → Option OperatorKind
  | "Add" => some plus
  | "Mul" => some times
  | _ => none

/-- A kind, by its name alone or as a choice without content. -/
def ofData? : Data → Option OperatorKind
  | .text name => ofName? name
  | .object [(name, .null)] => ofName? name
  | _ => none

end OperatorKind

namespace Operator

def toData (op : Operator) : Data :=
  .record [("kind", .text op.kind.name), ("span", op.span.toData)]

def ofData? (d : Data) : Option Operator :=
  match d.fields? ["kind", "span"] with
  | some [kind, span] => do pure ⟨← OperatorKind.ofData? kind, ← Span.ofData? span⟩
  | _ => none

end Operator

namespace Tree

def toData : Tree → Data
  | number value span => .choice "Literal"
      (.choice "Number" (.record [("value", .real value), ("span", span.toData)]))
  | symbol name span => .choice "Literal"
      (.choice "Symbol" (.record [("name", .text name), ("span", span.toData)]))
  | paren inner span => .choice "Paren"
      (.record [("expr", inner.toData), ("span", span.toData)])
  | binary lhs op rhs span => .choice "Binary"
      (.record [("lhs", lhs.toData), ("op", op.toData), ("rhs", rhs.toData),
        ("span", span.toData)])

def literalOfData? : Data → Option Tree
  | .object [("Number", content)] =>
    match content.fields? ["value", "span"] with
    | some [value, span] => do pure (number (← value.double?) (← Span.ofData? span))
    | _ => none
  | .object [("Symbol", content)] =>
    match content.fields? ["name", "span"] with
    | some [name, span] => do pure (symbol (← name.text?) (← Span.ofData? span))
    | _ => none
  | _ => none

/-- The tree that was stored. -/
def ofData? : Data → Option Tree
  | .object [("Literal", content)] => literalOfData? content
  | .object [("Paren", content)] =>
    match h : content.fields? ["expr", "span"] with
    | some [inner, span] => do
      have := Data.sizeOf_lt_of_fields? h (List.mem_cons_self ..)
      pure (paren (← ofData? inner) (← Span.ofData? span))
    | _ => none
  | .object [("Binary", content)] =>
    match h : content.fields? ["lhs", "op", "rhs", "span"] with
    | some [lhs, op, rhs, span] => do
      have := Data.sizeOf_lt_of_fields? h (v := lhs) (by simp)
      have := Data.sizeOf_lt_of_fields? h (v := rhs) (by simp)
      pure (binary (← ofData? lhs) (← Operator.ofData? op) (← ofData? rhs) (← Span.ofData? span))
    | _ => none
  | _ => none
termination_by d => sizeOf d
decreasing_by all_goals simp_wf; omega

end Tree

end SumProduct
