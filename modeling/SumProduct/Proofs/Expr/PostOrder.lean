/-
The traversal by a stack visits what the recursive traversal lists, place by place, and then ends.
What carries the proof is where the node left last can be: before a node is reached for the first
time, not below it; between the operands and the node itself, at its right operand. So no node is
gone down into twice, even if its operands are equal.
-/
import SumProduct.Expr.PostOrder
import SumProduct.Tree
import SumProduct.Proofs.Simplify.Value
import Mathlib.Data.List.Nodup

namespace SumProduct.Expr

/-! ## Places of an expression -/

/-- An expression is a leaf or an operator applied to two operands. -/
@[elab_as_elim] theorem apply_induction {motive : Expr → Prop} (number : ∀ n, motive (number n))
    (symbol : ∀ x, motive (symbol x))
    (apply : ∀ (op : OperatorKind) l r, motive l → motive r → motive (op.apply l r)) (e : Expr) :
    motive e := by
  induction e with
  | number n => exact number n
  | symbol x => exact symbol x
  | sum l r ihl ihr => exact apply .plus l r ihl ihr
  | product l r ihl ihr => exact apply .times l r ihl ihr

/-- The one of two expressions that is on a side. -/
def Side.of (l r : Expr) : Side → Expr
  | .left => l
  | .right => r

def operand? : Side → Expr → Option Expr
  | .left, sum l _ => some l
  | .left, product l _ => some l
  | .right, sum _ r => some r
  | .right, product _ r => some r
  | _, _ => none

/-- The node at the end of a way from the root, the last turn first. -/
def at? (e : Expr) : List Side → Option Expr
  | [] => some e
  | side :: above => (e.at? above).bind (operand? side)

/-- All places of an expression that stands at the end of a way: those of the left operand, those
of the right one, and then its own. -/
def placesFrom (path : List Side) : Expr → List Place
  | sum l r => l.placesFrom (.left :: path) ++ r.placesFrom (.right :: path) ++ [⟨path, sum l r⟩]
  | product l r =>
    l.placesFrom (.left :: path) ++ r.placesFrom (.right :: path) ++ [⟨path, product l r⟩]
  | e => [⟨path, e⟩]

def places (e : Expr) : List Place := e.placesFrom []

section

variable (op : OperatorKind) (l r : Expr) (path : List Side)

theorem operand?_apply (side : Side) : operand? side (op.apply l r) = some (side.of l r) := by
  cases op <;> cases side <;> rfl

theorem placesFrom_apply : (op.apply l r).placesFrom path =
    l.placesFrom (.left :: path) ++ r.placesFrom (.right :: path) ++ [⟨path, op.apply l r⟩] := by
  cases op <;> rfl

theorem size_apply : (op.apply l r).size = l.size + r.size + 1 := by
  cases op <;> rfl

theorem symbolLeaves_apply : (op.apply l r).symbolLeaves = l.symbolLeaves ++ r.symbolLeaves := by
  cases op <;> rfl

end

/-! ### Ways -/

theorem at?_append (e : Expr) (below above : List Side) :
    e.at? (below ++ above) = (e.at? above).bind fun node => node.at? below := by
  induction below with
  | nil => exact (Option.bind_fun_some _).symm
  | cons side below ih =>
    rw [List.cons_append, at?, ih, Option.bind_assoc]
    rfl

/-- A way with a turn in it goes on in the operand of the first turn. -/
theorem at?_apply_concat (op : OperatorKind) (l r : Expr) (way : List Side) (side : Side) :
    (op.apply l r).at? (way ++ [side]) = (side.of l r).at? way := by
  rw [at?_append, at?, at?, Option.bind_some, operand?_apply, Option.bind_some]

theorem at?_leaf_concat {e : Expr} (h : ∀ side, operand? side e = none) (way : List Side)
    (side : Side) : e.at? (way ++ [side]) = none := by
  rw [at?_append, at?, at?, Option.bind_some, h, Option.bind_none]

/-- Ways that part are not the same. -/
theorem side_eq_of_suffix {s t : Side} {path q : List Side} (hs : s :: path <:+ q)
    (ht : t :: path <:+ q) : s = t := by
  obtain ⟨a, rfl⟩ := hs
  obtain ⟨b, hb⟩ := ht
  exact (List.cons.inj (List.append_inj' hb rfl).2).1.symm

theorem not_cons_suffix (side : Side) (path : List Side) : ¬ side :: path <:+ path :=
  fun h => Nat.not_succ_le_self _ h.length_le

/-! ### The list of places -/

theorem mem_placesFrom_leaf {e node : Expr} {path q : List Side}
    (h : ∀ side, operand? side e = none) :
    (⟨q, node⟩ : Place) ∈ [⟨path, e⟩] ↔ ∃ way, q = way ++ path ∧ e.at? way = some node := by
  rw [List.mem_singleton, Place.mk.injEq]
  constructor
  · rintro ⟨rfl, rfl⟩
    exact ⟨[], rfl, rfl⟩
  · rintro ⟨way, rfl, hway⟩
    obtain rfl | ⟨way, side, rfl⟩ := List.eq_nil_or_concat' way
    · exact ⟨rfl, (Option.some.inj hway).symm⟩
    · rw [at?_leaf_concat h] at hway
      cases hway

theorem mem_placesFrom {e node : Expr} {path q : List Side} :
    ⟨q, node⟩ ∈ e.placesFrom path ↔ ∃ way, q = way ++ path ∧ e.at? way = some node := by
  induction e using apply_induction generalizing path with
  | number n => exact mem_placesFrom_leaf fun side => by cases side <;> rfl
  | symbol x => exact mem_placesFrom_leaf fun side => by cases side <;> rfl
  | apply op l r ihl ihr =>
    rw [placesFrom_apply, List.mem_append, List.mem_append, ihl, ihr, List.mem_singleton,
      Place.mk.injEq]
    constructor
    · rintro ((⟨way, rfl, hway⟩ | ⟨way, rfl, hway⟩) | ⟨rfl, rfl⟩)
      · exact ⟨way ++ [.left], List.append_cons way .left path,
          (at?_apply_concat op l r way .left).trans hway⟩
      · exact ⟨way ++ [.right], List.append_cons way .right path,
          (at?_apply_concat op l r way .right).trans hway⟩
      · exact ⟨[], rfl, rfl⟩
    · rintro ⟨way, rfl, hway⟩
      obtain rfl | ⟨way, side, rfl⟩ := List.eq_nil_or_concat' way
      · exact .inr ⟨rfl, (Option.some.inj hway).symm⟩
      · rw [at?_apply_concat] at hway
        rw [List.append_assoc]
        cases side with
        | left => exact .inl (.inl ⟨way, rfl, hway⟩)
        | right => exact .inl (.inr ⟨way, rfl, hway⟩)

theorem suffix_of_mem_placesFrom {e : Expr} {path : List Side} {p : Place}
    (h : p ∈ e.placesFrom path) : path <:+ p.path := by
  obtain ⟨way, hway, -⟩ := mem_placesFrom.1 h
  exact ⟨way, hway.symm⟩

/-- No two places of an expression are at the end of the same way. -/
theorem nodup_placesFrom (e : Expr) (path : List Side) :
    ((e.placesFrom path).map Place.path).Nodup := by
  induction e using apply_induction generalizing path with
  | number n => exact List.nodup_singleton _
  | symbol x => exact List.nodup_singleton _
  | apply op l r ihl ihr =>
    have hbelow : ∀ side (e : Expr), ∀ q ∈ (e.placesFrom (side :: path)).map Place.path,
        side :: path <:+ q := by
      intro side e q hq
      obtain ⟨p, hp, rfl⟩ := List.mem_map.1 hq
      exact suffix_of_mem_placesFrom hp
    rw [placesFrom_apply, List.map_append, List.map_append, List.nodup_append, List.nodup_append]
    refine ⟨⟨ihl _, ihr _, ?_⟩, List.nodup_singleton _, ?_⟩
    · rintro q hl _ hr rfl
      exact absurd (side_eq_of_suffix (hbelow _ _ _ hl) (hbelow _ _ _ hr)) nofun
    · rintro q hq _ hroot rfl
      obtain rfl := List.mem_singleton.1 hroot
      rcases List.mem_append.1 hq with hq | hq
      · exact not_cons_suffix _ _ (hbelow _ _ _ hq)
      · exact not_cons_suffix _ _ (hbelow _ _ _ hq)

theorem length_placesFrom (e : Expr) (path : List Side) : (e.placesFrom path).length = e.size := by
  induction e using apply_induction generalizing path with
  | number n => rfl
  | symbol x => rfl
  | apply op l r ihl ihr =>
    rw [placesFrom_apply, List.length_append, List.length_append, ihl, ihr, size_apply]
    rfl

/-- The symbols met on the way through the places are those at the leaves. -/
theorem filterMap_symbol?_placesFrom (e : Expr) (path : List Side) :
    ((e.placesFrom path).map Place.expr).filterMap symbol? = e.symbolLeaves := by
  induction e using apply_induction generalizing path with
  | number n => rfl
  | symbol x => rfl
  | apply op l r ihl ihr =>
    have hroot : [op.apply l r].filterMap symbol? = [] := by
      cases op <;> rfl
    rw [placesFrom_apply, List.map_append, List.map_append, List.filterMap_append,
      List.filterMap_append, ihl, ihr, List.map_singleton, hroot, List.append_nil,
      symbolLeaves_apply]

/-! ## The traversal -/

namespace PostOrder

/-- The places that a traversal still visits, in order, up to its end. -/
inductive Visits : PostOrder → List Place → Prop where
  | done {t : PostOrder} (h : t.next? = none) : Visits t []
  | visit {t t' : PostOrder} {p : Place} {rest : List Place} (h : t.next? = some (p.expr, t'))
      (hlast : t'.last = some p.path) (hrest : Visits t' rest) : Visits t (p :: rest)

namespace Visits

variable {t u : PostOrder} {visited visited' : List Place}

/-- What is still visited hangs on the next node alone. -/
theorem congr (h : t.next? = u.next?) (hu : Visits u visited) : Visits t visited := by
  cases hu with
  | done hdone => exact .done (h.trans hdone)
  | visit hnext hlast hrest => exact .visit (h.trans hnext) hlast hrest

theorem unique (h : Visits t visited) (h' : Visits t visited') : visited = visited' := by
  induction h generalizing visited' with
  | done hdone =>
    cases h' with
    | done => rfl
    | visit hnext => exact nomatch hdone.symm.trans hnext
  | @visit _ _ p _ hnext hlast _ ih =>
    cases h' with
    | done hdone => exact nomatch hnext.symm.trans hdone
    | @visit _ _ p' _ hnext' hlast' hrest' =>
      obtain ⟨hexpr, rfl⟩ := Prod.mk.inj (Option.some.inj (hnext.symm.trans hnext'))
      have hpath : p.path = p'.path := Option.some.inj (hlast.symm.trans hlast')
      have hp : p = p' := congrArg₂ Place.mk hpath hexpr
      rw [hp, ih hrest']

/-- A number of nodes taken is the start of what is visited. -/
theorem take_eq (h : Visits t visited) (n : Nat) :
    t.take n = (visited.map Place.expr).take n := by
  induction h generalizing n with
  | done hdone =>
    cases n with
    | zero => rfl
    | succ n => rw [PostOrder.take, hdone, List.map_nil, List.take_nil]
  | visit hnext _ _ ih =>
    cases n with
    | zero => rfl
    | succ n => rw [PostOrder.take, hnext, List.map_cons, List.take_succ_cons, ← ih]

end Visits

theorem descend_apply (op : OperatorKind) (l r : Expr) (path : List Side)
    (last : Option (List Side)) (below : List Place) :
    descend path last below (op.apply l r) =
      if last = some (.right :: path) then (op.apply l r, ⟨below, some path⟩)
      else descend (.left :: path) last
        (⟨.right :: path, r⟩ :: ⟨path, op.apply l r⟩ :: below) l := by
  cases op <;> rw [OperatorKind.apply, descend]

/-- A node on top of the stack, when no place at or below it was left last: its places are visited
in order, and then what follows once it has been left. -/
theorem visits_placesFrom {e : Expr} {path : List Side} {last : Option (List Side)}
    {below rest : List Place} (hlast : ∀ q ∈ last, ¬ path <:+ q)
    (hrest : Visits ⟨below, some path⟩ rest) :
    Visits ⟨⟨path, e⟩ :: below, last⟩ (e.placesFrom path ++ rest) := by
  induction e using apply_induction generalizing path last below rest with
  | number n => exact .visit rfl rfl hrest
  | symbol x => exact .visit rfl rfl hrest
  | apply op l r ihl ihr =>
    have hnew : last ≠ some (.right :: path) := fun h => hlast _ h (List.suffix_cons ..)
    have hroot : Visits ⟨⟨path, op.apply l r⟩ :: below, some (.right :: path)⟩
        (⟨path, op.apply l r⟩ :: rest) := by
      refine .visit ?_ rfl hrest
      show some (descend path _ below (op.apply l r)) = _
      rw [descend_apply, if_pos rfl]
    -- the left operand was left last then, and it is neither the right one nor below it
    have hright : Visits
        ⟨⟨.right :: path, r⟩ :: ⟨path, op.apply l r⟩ :: below, some (.left :: path)⟩
        (r.placesFrom (.right :: path) ++ ⟨path, op.apply l r⟩ :: rest) := by
      refine ihr ?_ hroot
      rintro q hq hsuffix
      obtain rfl := Option.some.inj hq
      exact absurd (side_eq_of_suffix hsuffix List.suffix_rfl) nofun
    have hleft := ihl (fun q hq h => hlast q hq ((List.suffix_cons ..).trans h)) hright
    rw [placesFrom_apply, List.append_assoc, List.append_assoc]
    refine hleft.congr ?_
    show some (descend path last below (op.apply l r)) = _
    rw [descend_apply, if_neg hnew]
    rfl

theorem visits_start (e : Expr) : Visits (.start e) e.places := by
  have h : Visits (.start e) (e.placesFrom [] ++ []) := visits_placesFrom nofun (.done rfl)
  rwa [List.append_nil] at h

end PostOrder

theorem postOrder_eq (e : Expr) : e.postOrder = e.places.map Place.expr := by
  rw [postOrder, (PostOrder.visits_start e).take_eq, List.take_of_length_le]
  rw [List.length_map]
  exact Nat.le_of_eq (length_placesFrom e [])

/-! ## Symbols -/

theorem symbol?_eq_some_iff {e : Expr} {x : Symbol} : e.symbol? = some x ↔ e = symbol x := by
  cases e <;> simp [symbol?]

theorem filterMap_symbol?_postOrder (e : Expr) :
    e.postOrder.filterMap symbol? = e.symbolLeaves := by
  rw [postOrder_eq]
  exact filterMap_symbol?_placesFrom e []

theorem mem_places {e : Expr} {path : List Side} {node : Expr} :
    ⟨path, node⟩ ∈ e.places ↔ e.at? path = some node := by
  unfold places
  rw [mem_placesFrom]
  simp only [List.append_nil, exists_eq_left']

/-- A symbol is contained if it is found at the end of some way. -/
theorem containsSymbol_iff_at? {e : Expr} {x : Symbol} :
    e.containsSymbol x = true ↔ ∃ path, e.at? path = some (symbol x) := by
  simp only [containsSymbol, List.any_eq_true, decide_eq_true_eq, symbol?_eq_some_iff, postOrder_eq,
    exists_eq_right, List.mem_map]
  constructor
  · rintro ⟨⟨path, node⟩, hmem, rfl⟩
    exact ⟨path, mem_places.1 hmem⟩
  · rintro ⟨path, hpath⟩
    exact ⟨⟨path, symbol x⟩, mem_places.2 hpath, rfl⟩

theorem containsSymbol_iff {e : Expr} {x : Symbol} :
    e.containsSymbol x = true ↔ x ∈ e.symbolLeaves := by
  rw [← filterMap_symbol?_postOrder, List.mem_filterMap]
  simp only [containsSymbol, List.any_eq_true, decide_eq_true_eq]

/-- A list names the symbols of another, in the order of their first places there. -/
structure ListsFirst (seen leaves : List Symbol) : Prop where
  mem_iff : ∀ x, x ∈ seen ↔ x ∈ leaves
  ordered : seen.Pairwise fun x y => leaves.idxOf x < leaves.idxOf y

namespace ListsFirst

variable {seen leaves : List Symbol}

theorem nil : ListsFirst [] [] := ⟨fun _ => Iff.rfl, .nil⟩

theorem nodup (h : ListsFirst seen leaves) : seen.Nodup :=
  h.ordered.imp fun hlt heq => Nat.ne_of_lt hlt (congrArg leaves.idxOf heq)

/-- Leaves behind do not change the first place of a symbol that has one. -/
theorem ordered_append (h : ListsFirst seen leaves) (rest : List Symbol) :
    seen.Pairwise fun x y => (leaves ++ rest).idxOf x < (leaves ++ rest).idxOf y := by
  refine h.ordered.imp_of_mem fun hx hy hlt => ?_
  rwa [List.idxOf_append_of_mem ((h.mem_iff _).1 hx), List.idxOf_append_of_mem ((h.mem_iff _).1 hy)]

/-- One more leaf is listed unless its symbol is. -/
theorem step (h : ListsFirst seen leaves) (x : Symbol) :
    ListsFirst (if x ∈ seen then seen else seen ++ [x]) (leaves ++ [x]) := by
  by_cases hx : x ∈ seen
  · rw [if_pos hx]
    refine ⟨fun y => ?_, h.ordered_append [x]⟩
    rw [List.mem_append, List.mem_singleton, ← h.mem_iff]
    constructor
    · exact .inl
    · rintro (hy | rfl)
      · exact hy
      · exact hx
  · rw [if_neg hx]
    refine ⟨fun y => ?_,
      List.pairwise_append.2 ⟨h.ordered_append [x], List.pairwise_singleton .., ?_⟩⟩
    · rw [List.mem_append, List.mem_append, h.mem_iff]
    · -- what is listed has its first place among the leaves before
      intro y hy z hz
      obtain rfl := List.mem_singleton.1 hz
      have hy' : y ∈ leaves := (h.mem_iff y).1 hy
      rw [List.idxOf_append_of_mem hy', List.idxOf_append_of_notMem (mt (h.mem_iff z).2 hx)]
      exact Nat.lt_add_right _ (List.idxOf_lt_length_iff.2 hy')

theorem foldl (h : ListsFirst seen leaves) (rest : List Symbol) :
    ListsFirst (rest.foldl (fun seen x => if x ∈ seen then seen else seen ++ [x]) seen)
      (leaves ++ rest) := by
  induction rest generalizing seen leaves with
  | nil =>
    rw [List.append_nil]
    exact h
  | cons x rest ih =>
    rw [List.append_cons, List.foldl_cons]
    exact ih (h.step x)

end ListsFirst

theorem symbols_listsFirst (e : Expr) : ListsFirst e.symbols e.symbolLeaves := by
  unfold symbols
  rw [filterMap_symbol?_postOrder]
  exact ListsFirst.nil.foldl e.symbolLeaves

/-- The traversal by a stack visits the places of an expression and then ends: the nodes left to
right and each after its operands, every place of the expression and none twice. It finds a symbol
if the symbol stands at some place, and lists the symbols, each once, by their leftmost leaves. -/
theorem postOrder_visits_each_place (e : Expr) :
    (∀ visited, (PostOrder.start e).Visits visited ↔ visited = e.places) ∧
      e.postOrder = e.places.map Place.expr ∧
      (e.places.map Place.path).Nodup ∧
      (∀ path node, ⟨path, node⟩ ∈ e.places ↔ e.at? path = some node) ∧
      (∀ x, e.containsSymbol x = true ↔ ∃ path, e.at? path = some (symbol x)) ∧
      e.symbols.Nodup ∧ (∀ x, x ∈ e.symbols ↔ x ∈ e.symbolLeaves) ∧
      e.symbols.Pairwise (fun x y => e.symbolLeaves.idxOf x < e.symbolLeaves.idxOf y) := by
  have hvisits := PostOrder.visits_start e
  have hsymbols := symbols_listsFirst e
  refine ⟨fun visited => ⟨fun h => h.unique hvisits, ?_⟩, postOrder_eq e, nodup_placesFrom e [],
    fun _ _ => mem_places, fun _ => containsSymbol_iff_at?, hsymbols.nodup, hsymbols.mem_iff,
    hsymbols.ordered⟩
  rintro rfl
  exact hvisits

-- Equal operands are told apart by their places, so the second is not taken for the first.
example : (PostOrder.start ((symbol ⟨"x", by decide⟩).product (symbol ⟨"x", by decide⟩))).take 4 =
    [symbol ⟨"x", by decide⟩, symbol ⟨"x", by decide⟩,
      (symbol ⟨"x", by decide⟩).product (symbol ⟨"x", by decide⟩)] := by
  decide

end SumProduct.Expr
