/-
Bindings through any run of requests to change them. A run is known by the entries accepted in it:
a look-up finds the last one for its symbol, and nothing else of the run can be told from the
bindings. What is refused leaves no trace but its reply, except that a list is worked through up to
the pair that is refused.
-/
import SumProduct.Bindings.Lemmas
import SumProduct.Proofs.Number.Stored
import Mathlib.Data.Finset.Card

namespace SumProduct.Bindings

/-! ## Entries -/

/-- The entry that a pair makes, or why it makes none: the key has to be a symbol and the value
finite and not below zero, which negative zero is not. The key is looked at first. -/
def judge : Expr × Double → Except Refusal (Symbol × Number)
  | (.symbol x, value) =>
    if h : Double.zero.atMost value = true ∧ value.isFinite = true
    then .ok (x, ⟨value.rank, (Number.admitted_iff.1 h).1⟩)
    else .error (.number ⟨value⟩)
  | (key, _) => .error (.key key)

/-- The entries of a list of pairs up to the first that makes none. -/
def acceptedPairs : List (Expr × Double) → List (Symbol × Number)
  | [] => []
  | pair :: rest =>
    match judge pair with
    | .ok entry => entry :: acceptedPairs rest
    | .error _ => []

/-- An entry is for the symbol that is its key. -/
theorem judge_symbol {x y : Symbol} {value : Double} {v : Number}
    (h : judge (.symbol x, value) = .ok (y, v)) : y = x := by
  rw [judge] at h
  split_ifs at h
  cases h
  rfl

theorem acceptedPairs_singleton (pair : Expr × Double) :
    acceptedPairs [pair] = (judge pair).toOption.toList := by
  unfold acceptedPairs
  cases judge pair <;> rfl

/-- Entries bound one after the other. -/
def bindAll (b : Bindings) (entries : List (Symbol × Number)) : Bindings :=
  entries.foldl (fun b entry => b.bind entry.1 entry.2) b

/-- What comes of one pair: its entry is bound, or the bindings are left as they were. -/
theorem tryInsert_eq (b : Bindings) (key : Expr) (value : Double) :
    b.tryInsert key value =
      match judge (key, value) with
      | .ok (x, v) => (.ok (b.get? x), b.bind x v)
      | .error e => (.error e, b) := by
  cases key with
  | symbol x =>
    unfold tryInsert tryBind judge
    rw [Number.ofDouble_eq]
    by_cases h : Double.zero.atMost value = true ∧ value.isFinite = true
    · simp only [dif_pos h]
    · simp only [dif_neg h]
  | number n => rfl
  | sum l r => rfl
  | product l r => rfl

theorem tryInsert_of_ok {key : Expr} {value : Double} {x : Symbol} {v : Number}
    (h : judge (key, value) = .ok (x, v)) (b : Bindings) :
    b.tryInsert key value = (.ok (b.get? x), b.bind x v) := by
  rw [tryInsert_eq, h]

theorem tryInsert_of_error {key : Expr} {value : Double} {e : Refusal}
    (h : judge (key, value) = .error e) (b : Bindings) :
    b.tryInsert key value = (.error e, b) := by
  rw [tryInsert_eq, h]

/-! ### Lists of pairs -/

/-- A list of pairs is accepted as a whole, or there is a first one that is refused. -/
theorem accepted_or_refused (pairs : List (Expr × Double)) :
    pairs.map judge = (acceptedPairs pairs).map .ok ∨
      ∃ before pair after e, pairs = before ++ pair :: after ∧
        before.map judge = (acceptedPairs pairs).map .ok ∧ judge pair = .error e := by
  induction pairs with
  | nil => exact .inl rfl
  | cons pair rest ih =>
    unfold acceptedPairs
    cases hpair : judge pair with
    | error e => exact .inr ⟨[], pair, rest, e, rfl, rfl, hpair⟩
    | ok entry =>
      rcases ih with hall | ⟨before, pair', after, e, hrest, hbefore, he⟩
      · exact .inl (by rw [List.map_cons, List.map_cons, hpair, hall])
      · refine .inr ⟨pair :: before, pair', after, e, by rw [hrest]; rfl, ?_, he⟩
        rw [List.map_cons, List.map_cons, hpair, hbefore]

/-- Pairs that make entries are bound, and the rest of the list follows. -/
theorem extend_append {before : List (Expr × Double)} {entries : List (Symbol × Number)}
    (h : before.map judge = entries.map .ok) (b : Bindings) (rest : List (Expr × Double)) :
    b.extend (before ++ rest) = (b.bindAll entries).extend rest := by
  induction before generalizing entries b with
  | nil =>
    obtain rfl := List.map_eq_nil_iff.1 h.symm
    rfl
  | cons pair before ih =>
    obtain ⟨entry, entries, rfl, hpair, hbefore⟩ := List.map_eq_cons_iff.1 h.symm
    obtain ⟨key, value⟩ := pair
    rw [List.cons_append, extend, tryInsert_of_ok hpair.symm]
    exact ih hbefore.symm _

theorem extend_accepted {pairs : List (Expr × Double)} {entries : List (Symbol × Number)}
    (h : pairs.map judge = entries.map .ok) (b : Bindings) :
    b.extend pairs = (b.bindAll entries, none) := by
  have hpairs := extend_append h b []
  rwa [List.append_nil] at hpairs

theorem extend_refused {before after : List (Expr × Double)} {pair : Expr × Double}
    {entries : List (Symbol × Number)} {e : Refusal} (h : before.map judge = entries.map .ok)
    (he : judge pair = .error e) (b : Bindings) :
    b.extend (before ++ pair :: after) = (b.bindAll entries, some e) := by
  obtain ⟨key, value⟩ := pair
  rw [extend_append h, extend, tryInsert_of_error he]

/-! ### Look-ups -/

theorem get?_bindAll (b : Bindings) (entries : List (Symbol × Number)) (x : Symbol) :
    (b.bindAll entries).get? x = (entries.reverse.lookup x).or (b.get? x) := by
  induction entries generalizing b with
  | nil => rfl
  | cons entry rest ih =>
    obtain ⟨y, v⟩ := entry
    have hbind : (b.bind y v).get? x = ([(y, v)].lookup x).or (b.get? x) := by
      rw [get?_bind, lookup_cons_entry]
      by_cases hx : x = y
      · rw [if_pos hx, if_pos hx, Option.some_or]
      · rw [if_neg hx, if_neg hx, List.lookup_nil, Option.none_or]
    calc (b.bindAll ((y, v) :: rest)).get? x
        = (rest.reverse.lookup x).or ((b.bind y v).get? x) := ih (b.bind y v)
      _ = (((y, v) :: rest).reverse.lookup x).or (b.get? x) := by
        rw [hbind, List.reverse_cons, List.lookup_append, Option.or_assoc]

theorem mem_keys_iff {entries : List (Symbol × Number)} {x : Symbol} :
    x ∈ entries.map Prod.fst ↔ (entries.lookup x).isSome = true := by
  rw [List.lookup_isSome_iff, List.mem_map]
  simp only [beq_iff_eq, @eq_comm _ x]

/-- Bindings have one entry for each symbol that was bound. -/
theorem size_eq_card {b : Bindings} {entries : List (Symbol × Number)}
    (h : ∀ x, b.get? x = entries.reverse.lookup x) :
    b.size = (entries.map Prod.fst).toFinset.card := by
  have hnodup : (b.entries.map Prod.fst).Nodup := by
    refine List.pairwise_map.2 (b.sorted.imp ?_)
    rintro p q hlt heq
    exact String.lt_irrefl _ (heq ▸ hlt)
  have hkeys : (b.entries.map Prod.fst).toFinset = (entries.map Prod.fst).toFinset := by
    refine List.toFinset.ext_iff.2 fun x => ?_
    have hx : b.entries.lookup x = entries.reverse.lookup x := h x
    rw [mem_keys_iff, hx, ← mem_keys_iff, List.map_reverse, List.mem_reverse]
  rw [← hkeys, List.toFinset_card_of_nodup hnodup, List.length_map, size]

/-! ## Requests -/

/-- To bind a key, a symbol, or the keys of a list of pairs. -/
inductive Request where
  | insert (key : Expr) (value : Double)
  | bind (x : Symbol) (value : Double)
  | extend (pairs : List (Expr × Double))

inductive Reply where
  /-- The value that the symbol had before. -/
  | previous (v : Option Number)
  | extended
  | refused (e : Refusal)
deriving DecidableEq

/-- The reply to binding one symbol. -/
def Reply.ofBinding : Except Refusal (Option Number) → Reply
  | .ok v => .previous v
  | .error e => .refused e

namespace Request

/-- The reply to a request, and the bindings after it. -/
def on (b : Bindings) : Request → Reply × Bindings
  | insert key value => (b.tryInsert key value).map .ofBinding id
  | bind x value => (b.tryBind x value).map .ofBinding id
  | extend pairs =>
    match b.extend pairs with
    | (b', none) => (.extended, b')
    | (b', some e) => (.refused e, b')

/-- The entries that a request makes. -/
def accepted : Request → List (Symbol × Number)
  | insert key value => acceptedPairs [(key, value)]
  | bind x value => acceptedPairs [(.symbol x, value)]
  | extend pairs => acceptedPairs pairs

/-- The reply that a request is to get after some entries were accepted, and the entries that it is
to make. -/
inductive Answers (history : List (Symbol × Number)) :
    Request → Reply → List (Symbol × Number) → Prop where
  | insert {key : Expr} {value : Double} {x : Symbol} {v : Number}
      (h : judge (key, value) = .ok (x, v)) :
      Answers history (.insert key value) (.previous (history.reverse.lookup x)) [(x, v)]
  | insertRefused {key : Expr} {value : Double} {e : Refusal} (h : judge (key, value) = .error e) :
      Answers history (.insert key value) (.refused e) []
  | bind {x : Symbol} {value : Double} {v : Number} (h : judge (.symbol x, value) = .ok (x, v)) :
      Answers history (.bind x value) (.previous (history.reverse.lookup x)) [(x, v)]
  | bindRefused {x : Symbol} {value : Double} {e : Refusal}
      (h : judge (.symbol x, value) = .error e) : Answers history (.bind x value) (.refused e) []
  | extend {pairs : List (Expr × Double)} {entries : List (Symbol × Number)}
      (h : pairs.map judge = entries.map .ok) : Answers history (.extend pairs) .extended entries
  | extendRefused {before after : List (Expr × Double)} {pair : Expr × Double}
      {entries : List (Symbol × Number)} {e : Refusal} (h : before.map judge = entries.map .ok)
      (he : judge pair = .error e) :
      Answers history (.extend (before ++ pair :: after)) (.refused e) entries

section

variable {b : Bindings} {key : Expr} {value : Double}

theorem on_insert {x : Symbol} {v : Number} (h : judge (key, value) = .ok (x, v)) :
    (Request.insert key value).on b = (.previous (b.get? x), b.bind x v) := by
  rw [on, tryInsert_of_ok h]
  rfl

theorem on_insert_refused {e : Refusal} (h : judge (key, value) = .error e) :
    (Request.insert key value).on b = (.refused e, b) := by
  rw [on, tryInsert_of_error h]
  rfl

/-- Binding a symbol is inserting it as a key. -/
theorem on_bind (x : Symbol) :
    (Request.bind x value).on b = (Request.insert (.symbol x) value).on b := rfl

end

/-- One request: it is answered by the entries accepted before it, and binds those that it makes. -/
theorem on_spec {b : Bindings} {history : List (Symbol × Number)}
    (hget : ∀ x, b.get? x = history.reverse.lookup x) (request : Request) :
    request.Answers history (request.on b).1 request.accepted ∧
      (request.on b).2 = b.bindAll request.accepted := by
  cases request with
  | insert key value =>
    rw [accepted, acceptedPairs_singleton]
    cases h : judge (key, value) with
    | ok entry =>
      rw [on_insert h, hget]
      exact ⟨.insert h, rfl⟩
    | error e =>
      rw [on_insert_refused h]
      exact ⟨.insertRefused h, rfl⟩
  | bind x value =>
    rw [accepted, acceptedPairs_singleton, on_bind]
    cases h : judge (.symbol x, value) with
    | ok entry =>
      obtain ⟨y, v⟩ := entry
      obtain rfl := judge_symbol h
      rw [on_insert h, hget]
      exact ⟨.bind h, rfl⟩
    | error e =>
      rw [on_insert_refused h]
      exact ⟨.bindRefused h, rfl⟩
  | extend pairs =>
    rw [accepted, on]
    rcases accepted_or_refused pairs with h | ⟨before, pair, after, e, hpairs, h, he⟩
    · rw [extend_accepted h]
      exact ⟨.extend h, rfl⟩
    · generalize acceptedPairs pairs = entries at h
      rw [hpairs, extend_refused h he]
      exact ⟨.extendRefused h he, rfl⟩

end Request

/-! ## Runs -/

/-- The bindings after some requests, with nothing bound at first. -/
def run (requests : List Request) : Bindings :=
  requests.foldl (fun b request => (request.on b).2) empty

/-- All entries accepted in a run, in order. -/
def history (requests : List Request) : List (Symbol × Number) := requests.flatMap Request.accepted

theorem run_concat (requests : List Request) (request : Request) :
    run (requests ++ [request]) = (request.on (run requests)).2 := by
  unfold run
  rw [List.foldl_append]
  rfl

theorem history_concat (requests : List Request) (request : Request) :
    history (requests ++ [request]) = history requests ++ request.accepted := by
  unfold history
  rw [List.flatMap_append, List.flatMap_singleton]

/-- Entries accepted on top of those that the bindings hold take the place of earlier ones. -/
theorem get?_bindAll_of_get? {b : Bindings} {before : List (Symbol × Number)}
    (h : ∀ x, b.get? x = before.reverse.lookup x) (entries : List (Symbol × Number)) (x : Symbol) :
    (b.bindAll entries).get? x = (before ++ entries).reverse.lookup x := by
  rw [get?_bindAll, h, List.reverse_append, List.lookup_append]

theorem get?_run (requests : List Request) (x : Symbol) :
    (run requests).get? x = (history requests).reverse.lookup x := by
  induction requests using List.reverseRecOn generalizing x with
  | nil => rfl
  | append_singleton requests request ih =>
    rw [run_concat, (request.on_spec ih).2, history_concat]
    exact get?_bindAll_of_get? ih _ x

/-- Runs end with the same bindings if they end with the same values. -/
theorem run_eq_iff (requests requests' : List Request) :
    run requests = run requests' ↔
      ∀ x, (history requests).reverse.lookup x = (history requests').reverse.lookup x := by
  rw [Bindings.ext_get?_iff]
  simp only [get?_run]

/-- The last entry for a symbol wins: after any run, refused requests included, a look-up finds the
value of the last accepted entry or none, and there are as many bound symbols as symbols in the
entries. The next request is answered by the entries so far and binds those that it makes, each of
its pairs up to the first that is refused. Two runs give the same bindings exactly if they end with
the same values. -/
theorem run_last_wins (requests : List Request) :
    (∀ x, (run requests).get? x = (history requests).reverse.lookup x) ∧
      (run requests).size = ((history requests).map Prod.fst).toFinset.card ∧
      (∀ request : Request,
        request.Answers (history requests) (request.on (run requests)).1 request.accepted ∧
          run (requests ++ [request]) = (run requests).bindAll request.accepted ∧
          history (requests ++ [request]) = history requests ++ request.accepted) ∧
      ∀ requests', run requests = run requests' ↔
        ∀ x, (history requests).reverse.lookup x = (history requests').reverse.lookup x := by
  have hget := get?_run requests
  refine ⟨hget, size_eq_card hget, fun request => ?_, run_eq_iff requests⟩
  obtain ⟨hanswer, hafter⟩ := request.on_spec hget
  exact ⟨hanswer, (run_concat requests request).trans hafter, history_concat requests request⟩

-- A list with a value below zero is refused there, with the pair before it bound.
example : (Request.extend [(.symbol ⟨"x", by decide⟩, Number.one.toDouble),
    (.symbol ⟨"y", by decide⟩, .ofRank true Number.one.rank),
    (.symbol ⟨"x", by decide⟩, Number.max.toDouble)]).on .empty =
      (.refused (.number ⟨.ofRank true Number.one.rank⟩),
        Bindings.empty.bind ⟨"x", by decide⟩ .one) := by
  decide +kernel

end SumProduct.Bindings
