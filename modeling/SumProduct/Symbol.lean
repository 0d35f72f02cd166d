/-
Symbols, the indeterminates of expressions: non-empty words of ASCII letters, in which case
matters.
-/

namespace SumProduct

/-- Whether a text names a symbol. `Char.isAlpha` holds of the ASCII letters only. -/
def isSymbolName (name : String) : Bool :=
  !name.isEmpty && name.toList.all Char.isAlpha

/-- A symbol, known by its name. -/
@[ext] structure Symbol where
  name : String
  valid : isSymbolName name = true
deriving DecidableEq

namespace Symbol

/-- A text that names no symbol. -/
structure Invalid where
  name : String
deriving DecidableEq, Repr

def Invalid.message (e : Invalid) : String :=
  "symbol names must be non-empty and made of ASCII letters, got `" ++ e.name ++ "`"

def ofName (name : String) : Except Invalid Symbol :=
  if h : isSymbolName name = true then .ok ⟨name, h⟩ else .error ⟨name⟩

/-- Symbols in the order of their names, duplicates kept. -/
def sort (symbols : List Symbol) : List Symbol := symbols.mergeSort (fun a b => a.name ≤ b.name)

end Symbol

end SumProduct
