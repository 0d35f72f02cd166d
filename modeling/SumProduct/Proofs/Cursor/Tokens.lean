/-
The tokens ahead of a cursor, whitespace left out. Looking ahead sees the first of them and the
next token is that one, so a success is known by its value and the tokens still ahead of it.
-/
import SumProduct.Grammar.Lexical

namespace SumProduct

/-! ## Successes -/

namespace Outcome

variable {α β : Type} {m n : Nat}

/-- A success with a value and the cursor behind it. -/
def Gives (o : Outcome α n) (v : α) (c : Cursor) : Prop := ∃ h, o = .ok v c h

@[simp] theorem gives_ok {v w : α} {c d : Cursor} {h : c.size < n} :
    (ok v c h).Gives w d ↔ v = w ∧ c = d := by
  constructor
  · rintro ⟨_, h'⟩
    cases h'
    exact ⟨rfl, rfl⟩
  · rintro ⟨rfl, rfl⟩
    exact ⟨h, rfl⟩

@[simp] theorem not_gives_fail {e : SyntaxError} {s c : Cursor} {v : α} :
    ¬ (fail e s : Outcome α n).Gives v c := by
  rintro ⟨_, h⟩
  cases h

theorem Gives.size_lt {o : Outcome α n} {v : α} {c : Cursor} (h : o.Gives v c) : c.size < n := h.1

/-- A reader gives one value and one cursor at most. -/
theorem Gives.unique {o : Outcome α n} {v w : α} {c d : Cursor} (h : o.Gives v c)
    (h' : o.Gives w d) : v = w ∧ c = d := by
  obtain ⟨hc, rfl⟩ := h
  exact gives_ok.1 h'

@[simp] theorem gives_ite {p : Prop} [Decidable p] {o : Outcome α n} {e : SyntaxError}
    {s c : Cursor} {v : α} : (if p then o else .fail e s).Gives v c ↔ p ∧ o.Gives v c := by
  split <;> rename_i hp <;> simp [hp]

theorem result_eq_ok {o : Outcome α n} {v : α} : o.result = .ok v ↔ ∃ c, o.Gives v c := by
  cases o <;> simp [result]

@[simp] theorem gives_weaken {o : Outcome α m} {h : m ≤ n} {v : α} {c : Cursor} :
    (o.weaken h).Gives v c ↔ o.Gives v c := by
  cases o <;> simp [weaken]

@[simp] theorem gives_map {o : Outcome α n} {f : α → β} {w : β} {c : Cursor} :
    (o.map f).Gives w c ↔ ∃ v, o.Gives v c ∧ f v = w := by
  cases o with
  | fail e s => simp [map]
  | ok v d h =>
    simp only [map, gives_ok]
    constructor
    · rintro ⟨hv, hc⟩
      exact ⟨v, ⟨rfl, hc⟩, hv⟩
    · rintro ⟨_, ⟨rfl, hc⟩, hw⟩
      exact ⟨hw, hc⟩

@[simp] theorem gives_backTo {o : Outcome α n} {p : Cursor} {v : α} {c : Cursor} :
    (o.backTo p).Gives v c ↔ o.Gives v c := by
  cases o <;> simp [backTo]

/-- An alternative counts only behind a failure that is not fatal. -/
theorem gives_orElse {o : Outcome α n} {f : Unit → Outcome α n} {v : α} {c : Cursor} :
    (o.orElse f).Gives v c ↔
      o.Gives v c ∨ (∃ e s, o = .fail e s ∧ e.fatal = false) ∧ (f ()).Gives v c := by
  cases o with
  | ok w d h => simp [orElse]
  | fail e s => cases he : e.fatal <;> simp [orElse, he]

/-- A success counts as a whole if no token is ahead of it. -/
theorem gives_complete {o : Outcome α n} {v : α} {c : Cursor} :
    o.complete.Gives v c ↔ o.Gives v c ∧ c.peek? = none := by
  cases o with
  | fail e s => simp [complete]
  | ok w d h =>
    cases hp : d.peek? with
    | none =>
      simp only [complete, hp, gives_ok]
      constructor
      · rintro ⟨rfl, rfl⟩
        exact ⟨⟨rfl, rfl⟩, hp⟩
      · exact And.left
    | some t =>
      simp only [complete, hp, not_gives_fail, gives_ok, false_iff, not_and]
      rintro ⟨-, rfl⟩ hn
      rw [hn] at hp
      cases hp

/-! ## Changing the value -/

@[simp] theorem weaken_ok {h : m ≤ n} {v : α} {c : Cursor} {hc : c.size < m} :
    (ok v c hc).weaken h = ok v c (Nat.lt_of_lt_of_le hc h) := rfl

@[simp] theorem weaken_fail {h : m ≤ n} {e : SyntaxError} {s : Cursor} :
    (fail e s : Outcome α m).weaken h = fail e s := rfl

@[simp] theorem map_ok {f : α → β} {v : α} {c : Cursor} {hc : c.size < n} :
    (ok v c hc).map f = ok (f v) c hc := rfl

@[simp] theorem map_fail {f : α → β} {e : SyntaxError} {s : Cursor} :
    (fail e s : Outcome α n).map f = fail e s := rfl

@[simp] theorem andThen_ok {f : α → (c : Cursor) → Outcome β (c.size + 1)} {v : α} {c : Cursor}
    {hc : c.size < n} : (ok v c hc).andThen f = (f v c).weaken hc := rfl

@[simp] theorem andThen_fail {f : α → (c : Cursor) → Outcome β (c.size + 1)} {e : SyntaxError}
    {s : Cursor} : (fail e s : Outcome α n).andThen f = fail e s := rfl

@[simp] theorem weaken_weaken {l : Nat} {o : Outcome α l} {h : l ≤ m} {h' : m ≤ n} :
    (o.weaken h).weaken h' = o.weaken (Nat.le_trans h h') := by
  cases o <;> rfl

@[simp] theorem map_weaken {o : Outcome α m} {h : m ≤ n} {f : α → β} :
    (o.weaken h).map f = (o.map f).weaken h := by
  cases o <;> rfl

@[simp] theorem map_map {γ : Type} {o : Outcome α n} {f : α → β} {g : β → γ} :
    (o.map f).map g = o.map fun v => g (f v) := by
  cases o <;> rfl

theorem weaken_eq_fail {o : Outcome α m} {h : m ≤ n} {e : SyntaxError} {s : Cursor} :
    o.weaken h = .fail e s ↔ o = .fail e s := by
  cases o <;> simp

theorem map_eq_fail {o : Outcome α n} {f : α → β} {e : SyntaxError} {s : Cursor} :
    o.map f = .fail e s ↔ o = .fail e s := by
  cases o <;> simp

/-- Only the values that are given matter to a change of the value. -/
theorem map_congr {o : Outcome α n} {f g : α → β} (h : ∀ v c, o.Gives v c → f v = g v) :
    o.map f = o.map g := by
  cases o with
  | fail e s => rfl
  | ok v c hc => simp [h v c (gives_ok.2 ⟨rfl, rfl⟩)]

end Outcome

/-! ## Tokens ahead -/

namespace Cursor

/-- The tokens ahead, whitespace left out. -/
def tokens (c : Cursor) : List Token := c.rest.filter fun t => !t.isBlank

theorem peek?_eq_head? (c : Cursor) : c.peek? = c.tokens.head? := List.head?_filter.symm

theorem peek?_eq_none {c : Cursor} : c.peek? = none ↔ c.tokens = [] := by
  rw [peek?_eq_head?, List.head?_eq_none_iff]

theorem sees_iff {c : Cursor} {kind : TokenKind} :
    c.sees kind = true ↔ ∃ t ts, c.tokens = t :: ts ∧ t.kind = kind := by
  rw [sees, peek?_eq_head?]
  cases c.tokens <;> simp

end Cursor

namespace Grammar

open Outcome

/-- The next token is the first one ahead, and what was ahead behind it stays ahead. -/
theorem tokens_of_nextOf {stop : Nat} : ∀ {rest : List Token} {t : Token} {c : Cursor},
    (nextOf stop rest).Gives t c → (⟨rest, stop⟩ : Cursor).tokens = t :: c.tokens
  | [], _, _, h => by simp [nextOf] at h
  | u :: rest, t, c, h => by
    unfold nextOf at h
    split at h
    · rename_i hu
      have ih := tokens_of_nextOf (gives_weaken.1 h)
      simpa [Cursor.tokens, hu] using ih
    · rename_i hu
      obtain ⟨rfl, rfl⟩ := gives_ok.1 h
      simp [Cursor.tokens, hu]

theorem nextOf_of_tokens {stop : Nat} : ∀ {rest : List Token} {t : Token} {ts : List Token},
    (⟨rest, stop⟩ : Cursor).tokens = t :: ts → ∃ c, (nextOf stop rest).Gives t c
  | [], _, _, h => by simp [Cursor.tokens] at h
  | u :: rest, t, ts, h => by
    unfold nextOf
    split
    · rename_i hu
      have hrest : (⟨rest, stop⟩ : Cursor).tokens = t :: ts := by simpa [Cursor.tokens, hu] using h
      obtain ⟨c, hc⟩ := nextOf_of_tokens hrest
      exact ⟨c, gives_weaken.2 hc⟩
    · rename_i hu
      have : u = t := by
        simp only [Cursor.tokens, List.filter_cons, hu] at h
        simpa using congrArg List.head? h
      exact ⟨⟨rest, stop⟩, gives_ok.2 ⟨this, rfl⟩⟩

theorem tokens_of_next {c c' : Cursor} {t : Token} (h : (next c).Gives t c') :
    c.tokens = t :: c'.tokens := tokens_of_nextOf h

theorem next_of_tokens {c : Cursor} {t : Token} {ts : List Token} (h : c.tokens = t :: ts) :
    ∃ c', (next c).Gives t c' ∧ c'.tokens = ts := by
  obtain ⟨c', hc⟩ := nextOf_of_tokens h
  have := (tokens_of_next hc).symm.trans h
  exact ⟨c', hc, by simpa using this⟩

/-! ## Single tokens -/

theorem gives_token {kind : TokenKind} {c c' : Cursor} {t : Token} :
    (token kind c).Gives t c' ↔ (next c).Gives t c' ∧ t.kind = kind := by
  unfold token
  cases next c with
  | fail e s => simp
  | ok u d h =>
    simp only [gives_ite, gives_ok]
    constructor
    · rintro ⟨hk, rfl, rfl⟩
      exact ⟨⟨rfl, rfl⟩, hk⟩
    · rintro ⟨⟨rfl, rfl⟩, hk⟩
      exact ⟨hk, rfl, rfl⟩

/-- A token of another kind lets alternatives be tried. -/
theorem token_fail_of_kind {kind : TokenKind} {c c' : Cursor} {t : Token} (h : (next c).Gives t c')
    (hk : t.kind ≠ kind) : ∃ e s, token kind c = .fail e s ∧ e.fatal = false := by
  obtain ⟨hc, h⟩ := h
  unfold token
  rw [h]
  simp only [hk, if_false]
  exact ⟨_, _, rfl, rfl⟩

theorem operatorKind?_eq_some {k : TokenKind} {kind : OperatorKind} :
    operatorKind? k = some kind ↔ k = .plus ∧ kind = .plus ∨ k = .times ∧ kind = .times := by
  cases k <;> cases kind <;> simp [operatorKind?]

theorem gives_operator {c c' : Cursor} {op : Operator} :
    (operator c).Gives op c' ↔
      ∃ t, (next c).Gives t c' ∧ operatorKind? t.kind = some op.kind ∧ op.span = t.span := by
  unfold operator
  cases next c with
  | fail e s => simp
  | ok t d h =>
    dsimp only
    split <;> rename_i hk
    · simp only [gives_ok]
      constructor
      · rintro ⟨rfl, rfl⟩
        exact ⟨t, ⟨rfl, rfl⟩, hk, rfl⟩
      · rintro ⟨_, ⟨rfl, hc⟩, ho, hs⟩
        obtain ⟨kind, span⟩ := op
        simp_all
    · simp only [not_gives_fail, gives_ok, false_iff]
      rintro ⟨_, ⟨rfl, -⟩, ho, -⟩
      rw [hk] at ho
      cases ho

theorem gives_operatorIf {accept : Operator → Bool} {c c' : Cursor} {op : Operator} :
    (operatorIf accept c).Gives op c' ↔ (operator c).Gives op c' ∧ accept op = true := by
  unfold operatorIf
  cases operator c with
  | fail e s => simp
  | ok o d h =>
    simp only [gives_ite, gives_ok]
    constructor
    · rintro ⟨ha, rfl, rfl⟩
      exact ⟨⟨rfl, rfl⟩, ha⟩
    · rintro ⟨⟨rfl, rfl⟩, ha⟩
      exact ⟨ha, rfl, rfl⟩

end Grammar

end SumProduct
