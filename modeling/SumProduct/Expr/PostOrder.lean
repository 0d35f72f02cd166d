/-
Traversal of an expression with every node after its operands, left before right, by an explicit
stack. A node is known by its place, so equal operands at two places are told apart. The symbols
of an expression are read off this traversal.
-/
import SumProduct.Expr.Basic

namespace SumProduct.Expr

/-! ## Places -/

inductive Side where
  | left
  | right
deriving DecidableEq, Repr

/-- A node of an expression: the way to it from the root, the last turn first, and the
expression found there. -/
structure Place where
  path : List Side
  expr : Expr

/-- A traversal under way: the nodes still to be left, the next on top, and the node left
last. -/
structure PostOrder where
  pending : List Place
  last : Option (List Side)

namespace PostOrder

def start (e : Expr) : PostOrder := ⟨[⟨[], e⟩], none⟩

/-- Goes down from a node to the next one that can be left: a leaf, or a node whose right
operand was left last. The operands of the nodes passed are put on the stack. -/
def descend (path : List Side) (last : Option (List Side)) (below : List Place) :
    Expr → Expr × PostOrder
  | sum l r =>
    if last = some (.right :: path) then (sum l r, ⟨below, some path⟩)
    else descend (.left :: path) last (⟨.right :: path, r⟩ :: ⟨path, sum l r⟩ :: below) l
  | product l r =>
    if last = some (.right :: path) then (product l r, ⟨below, some path⟩)
    else descend (.left :: path) last (⟨.right :: path, r⟩ :: ⟨path, product l r⟩ :: below) l
  | e => (e, ⟨below, some path⟩)

/-- The next node and the traversal after it, or none at the end. -/
def next? (t : PostOrder) : Option (Expr × PostOrder) :=
  match t.pending with
  | [] => none
  | p :: below => some (descend p.path t.last below p.expr)

/-- At most the given number of nodes. -/
def take (t : PostOrder) : Nat → List Expr
  | 0 => []
  | n + 1 =>
    match t.next? with
    | none => []
    | some (e, t') => e :: t'.take n

end PostOrder

/-! ## Nodes and symbols -/

/-- The number of nodes. -/
def size : Expr → Nat
  | sum l r => l.size + r.size + 1
  | product l r => l.size + r.size + 1
  | _ => 1

theorem size_pos (e : Expr) : 0 < e.size := by
  cases e <;> simp [size]

/-- Every node after its operands. -/
def postOrder (e : Expr) : List Expr := (PostOrder.start e).take e.size

def containsSymbol (e : Expr) (x : Symbol) : Bool :=
  e.postOrder.any fun node => node.symbol? = some x

/-- The symbols of an expression, each once, in the order of their first places. -/
def symbols (e : Expr) : List Symbol :=
  (e.postOrder.filterMap symbol?).foldl (fun seen x => if x ∈ seen then seen else seen ++ [x]) []

end SumProduct.Expr
