/-
Bindings of symbols to numbers. The entries are kept in the strict order of the names, so two
bindings with the same content are equal whatever the order in which they were made.
-/
import SumProduct.Expr.Basic

namespace SumProduct

/-- Values of symbols, at most one for each. -/
structure Bindings where
  entries : List (Symbol × Number)
  sorted : entries.Pairwise (fun a b => a.1.name < b.1.name)
deriving DecidableEq

namespace Bindings

def empty : Bindings := ⟨[], .nil⟩

instance : Inhabited Bindings := ⟨empty⟩

def size (b : Bindings) : Nat := b.entries.length

def isEmpty (b : Bindings) : Bool := b.entries.isEmpty

def get? (b : Bindings) (x : Symbol) : Option Number := b.entries.lookup x

/-! ## Binding one symbol -/

/-- Puts an entry at its place, instead of one with the same name if there is one. -/
def insertEntry (x : Symbol) (v : Number) : List (Symbol × Number) → List (Symbol × Number)
  | [] => [(x, v)]
  | (y, w) :: rest =>
    if x.name < y.name then (x, v) :: (y, w) :: rest
    else if x = y then (x, v) :: rest
    else (y, w) :: insertEntry x v rest

theorem mem_insertEntry {x : Symbol} {v : Number} {p : Symbol × Number} :
    ∀ {entries}, p ∈ insertEntry x v entries → p = (x, v) ∨ p ∈ entries
  | [], h => by simpa [insertEntry] using h
  | (y, w) :: rest, h => by
    unfold insertEntry at h
    split at h
    · simpa using h
    · split at h
      · exact (List.mem_cons.1 h).imp_right (List.mem_cons_of_mem _)
      · rcases List.mem_cons.1 h with h | h
        · exact .inr (h ▸ List.mem_cons_self ..)
        · exact (mem_insertEntry h).imp_right (List.mem_cons_of_mem _)

theorem insertEntry_sorted (x : Symbol) (v : Number) : ∀ {entries},
    entries.Pairwise (fun a b => a.1.name < b.1.name) →
      (insertEntry x v entries).Pairwise (fun a b => a.1.name < b.1.name)
  | [], _ => by simp [insertEntry]
  | (y, w) :: rest, h => by
    obtain ⟨hy, hrest⟩ := List.pairwise_cons.1 h
    unfold insertEntry
    split
    · rename_i hxy
      refine List.pairwise_cons.2 ⟨fun p hp => ?_, h⟩
      rcases List.mem_cons.1 hp with rfl | hp
      · exact hxy
      · exact String.lt_trans hxy (hy p hp)
    · rename_i hxy
      split
      · rename_i he
        subst he
        exact List.pairwise_cons.2 ⟨hy, hrest⟩
      · rename_i hne
        refine List.pairwise_cons.2 ⟨fun p hp => ?_, insertEntry_sorted x v hrest⟩
        rcases mem_insertEntry hp with rfl | hp
        · have hn : x.name ≠ y.name := fun e => hne (Symbol.ext e)
          exact String.not_le.1 fun hle => hn (String.le_antisymm hle (String.not_lt.1 hxy))
        · exact hy p hp

/-- Binds a symbol, replacing its earlier value. -/
def bind (b : Bindings) (x : Symbol) (v : Number) : Bindings :=
  ⟨insertEntry x v b.entries, insertEntry_sorted x v b.sorted⟩

/-! ## Binding from unchecked values -/

/-- Binds a symbol to the number that a double stands for. Gives the value that the symbol had
before, or why there is no such number, beside the bindings afterwards. -/
def tryBind (b : Bindings) (x : Symbol) (value : Double) :
    Except Refusal (Option Number) × Bindings :=
  match Number.ofDouble value with
  | .ok v => (.ok (b.get? x), b.bind x v)
  | .error e => (.error (.number e), b)

/-- Binds an expression, which has to be a symbol; it is looked at before the value. -/
def tryInsert (b : Bindings) (key : Expr) (value : Double) :
    Except Refusal (Option Number) × Bindings :=
  match key with
  | .symbol x => b.tryBind x value
  | _ => (.error (.key key), b)

/-- Inserts pairs one after the other up to the first that is refused. The pairs before it stay
bound. -/
def extend (b : Bindings) : List (Expr × Double) → Bindings × Option Refusal
  | [] => (b, none)
  | (key, value) :: rest =>
    match b.tryInsert key value with
    | (.ok _, b') => b'.extend rest
    | (.error e, b') => (b', some e)

/-! ### Up to a refusal

For computations that a refusal ends, the bindings come with success only. -/

def bindDouble (b : Bindings) (x : Symbol) (value : Double) :
    Except Refusal (Option Number × Bindings) :=
  let (before, b') := b.tryBind x value
  before.map (·, b')

def insert (b : Bindings) (key : Expr) (value : Double) :
    Except Refusal (Option Number × Bindings) :=
  let (before, b') := b.tryInsert key value
  before.map (·, b')

/-- The bindings of a list of pairs, the last of a symbol winning. -/
def ofList (pairs : List (Expr × Double)) : Except Refusal Bindings :=
  match empty.extend pairs with
  | (b, none) => .ok b
  | (_, some e) => .error e

end Bindings

end SumProduct
