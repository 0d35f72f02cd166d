/-
Structured data, the form in which expressions and trees are stored: values with lists and
objects. A record is stored as an object, or as the list of its fields in their order; a choice
is stored as an object with one field, whose name is the choice.
-/
import SumProduct.Double.Rounding

namespace SumProduct

inductive Data where
  | null
  | bool (b : Bool)
  | integer (n : Int)
  | real (x : Double)
  | text (s : String)
  | list (items : List Data)
  | object (fields : List (String × Data))
deriving Repr

namespace Data

instance : Inhabited Data := ⟨null⟩

/-- A record, as an object. -/
def record (fields : List (String × Data)) : Data := object fields

/-- A choice with its content. -/
def choice (name : String) (content : Data) : Data := object [(name, content)]

/-! ## Reading -/

/-- A double, from a whole number also. -/
def double? : Data → Option Double
  | real x => some x
  | integer n => some (.ofInt n)
  | _ => none

/-- A natural number of 64 bits. -/
def nat? : Data → Option Nat
  | integer n => if 0 ≤ n && n.toNat < UInt64.size then some n.toNat else none
  | _ => none

def text? : Data → Option String
  | text s => some s
  | _ => none

/-- The contents of the named fields of a record, in the order of the names. Fields of other names
are passed over. -/
def fields? (names : List String) : Data → Option (List Data)
  | object fields => names.mapM fun name => fields.lookup name
  | list items => if items.length = names.length then some items else none
  | _ => none

/-- Whether a record has no fields but the named ones. -/
def hasOnly (names : List String) : Data → Bool
  | object fields => fields.all fun field => names.contains field.1
  | _ => true

/-! ## Parts are smaller -/

theorem sizeOf_lt_of_lookup {name : String} {v : Data} :
    ∀ {fields : List (String × Data)}, fields.lookup name = some v → sizeOf v < sizeOf fields
  | [], h => by simp at h
  | (k, w) :: rest, h => by
    rw [List.lookup_cons] at h
    split at h
    · cases h
      simp only [List.cons.sizeOf_spec, Prod.mk.sizeOf_spec]
      omega
    · have := sizeOf_lt_of_lookup h
      simp only [List.cons.sizeOf_spec]
      omega

theorem sizeOf_lt_of_mapM_lookup {fields : List (String × Data)} {v : Data} :
    ∀ {names : List String} {vs : List Data},
      names.mapM (fun name => fields.lookup name) = some vs → v ∈ vs → sizeOf v < sizeOf fields
  | [], vs, h, hv => by
    simp only [List.mapM_nil, Option.pure_def, Option.some.injEq] at h
    subst h; cases hv
  | name :: names, vs, h, hv => by
    simp only [List.mapM_cons, Option.pure_def, Option.bind_eq_bind, Option.bind_eq_some_iff,
      Option.some.injEq] at h
    obtain ⟨w, hw, ws, hws, rfl⟩ := h
    rcases List.mem_cons.1 hv with rfl | hv
    · exact sizeOf_lt_of_lookup hw
    · exact sizeOf_lt_of_mapM_lookup hws hv

/-- The fields of a record are smaller than the record. -/
theorem sizeOf_lt_of_fields? {names : List String} {d v : Data} {vs : List Data}
    (h : d.fields? names = some vs) (hv : v ∈ vs) : sizeOf v < sizeOf d := by
  unfold fields? at h
  split at h
  · have := sizeOf_lt_of_mapM_lookup h hv
    simp only [object.sizeOf_spec]
    omega
  · split at h
    · cases h
      have := List.sizeOf_lt_of_mem hv
      simp only [list.sizeOf_spec]
      omega
    · cases h
  · cases h

end Data

end SumProduct
