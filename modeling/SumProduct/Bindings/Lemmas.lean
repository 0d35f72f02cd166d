/-
Looking up in bindings. A look-up sees the last value bound to a symbol, and bindings with the same
look-ups are equal.
-/
import SumProduct.Bindings.Basic

namespace SumProduct.Bindings

theorem lookup_cons_entry (x y : Symbol) (w : Number) (rest : List (Symbol × Number)) :
    ((y, w) :: rest).lookup x = if x = y then some w else rest.lookup x := by
  by_cases h : x = y
  · simp [h]
  · have : (x == y) = false := by simpa using h
    simp [List.lookup_cons, h, this]

theorem lookup_insertEntry (x : Symbol) (v : Number) (y : Symbol) :
    ∀ entries, (insertEntry x v entries).lookup y = if y = x then some v else entries.lookup y
  | [] => by simp [insertEntry, lookup_cons_entry]
  | (z, w) :: rest => by
    have ih := lookup_insertEntry x v y rest
    unfold insertEntry
    split
    · rw [lookup_cons_entry]
    · split
      · rename_i hz
        subst hz
        simp only [lookup_cons_entry]
        split <;> rfl
      · rename_i hz
        simp only [lookup_cons_entry, ih]
        by_cases h : y = z
        · simp [h, Ne.symm hz]
        · simp [h]

/-- Binding a symbol changes what that symbol is bound to and nothing else. -/
@[simp] theorem get?_bind (b : Bindings) (x : Symbol) (v : Number) (y : Symbol) :
    (b.bind x v).get? y = if y = x then some v else b.get? y :=
  lookup_insertEntry x v y b.entries

theorem lookup_eq_none_of_lt {x : Symbol} :
    ∀ {entries : List (Symbol × Number)}, (∀ p ∈ entries, x.name < p.1.name) →
      entries.lookup x = none
  | [], _ => rfl
  | (y, w) :: rest, h => by
    have hxy : x ≠ y := fun e => String.lt_irrefl _ (e ▸ h (y, w) (List.mem_cons_self ..))
    simpa [lookup_cons_entry, hxy] using
      lookup_eq_none_of_lt fun p hp => h p (List.mem_cons_of_mem _ hp)

/-- An entry in front that another sorted list binds too does not come before it. -/
theorem le_of_lookup_eq {x y : Symbol} {v w : Number} {l m : List (Symbol × Number)}
    (hm : ∀ p ∈ m, y.name < p.1.name) (h : ((x, v) :: l).lookup x = ((y, w) :: m).lookup x) :
    y.name ≤ x.name := by
  refine String.not_lt.1 fun hlt => ?_
  have hne : x ≠ y := fun e => String.lt_irrefl _ (e ▸ hlt)
  have := lookup_eq_none_of_lt fun p hp => String.lt_trans hlt (hm p hp)
  simp [lookup_cons_entry, hne, this] at h

theorem entries_eq_of_lookup_eq : ∀ {l m : List (Symbol × Number)},
    l.Pairwise (fun a b => a.1.name < b.1.name) → m.Pairwise (fun a b => a.1.name < b.1.name) →
      (∀ x, l.lookup x = m.lookup x) → l = m
  | [], [], _, _, _ => rfl
  | [], (y, w) :: _, _, _, h => by simpa [lookup_cons_entry] using h y
  | (x, v) :: _, [], _, _, h => by simpa [lookup_cons_entry] using h x
  | (x, v) :: l, (y, w) :: m, hl, hm, h => by
    obtain ⟨hx, hl'⟩ := List.pairwise_cons.1 hl
    obtain ⟨hy, hm'⟩ := List.pairwise_cons.1 hm
    obtain rfl : x = y := Symbol.ext <| String.le_antisymm
      (le_of_lookup_eq hx (h y).symm) (le_of_lookup_eq hy (h x))
    obtain rfl : v = w := by simpa [lookup_cons_entry] using h x
    have hlm : l = m := entries_eq_of_lookup_eq hl' hm' fun z => by
      by_cases hz : z = x
      · rw [hz, lookup_eq_none_of_lt hx, lookup_eq_none_of_lt hy]
      · simpa [lookup_cons_entry, hz] using h z
    rw [hlm]

/-- Bindings are known by what they bind. -/
@[ext] theorem ext_get? {a b : Bindings} (h : ∀ x, a.get? x = b.get? x) : a = b := by
  cases a with | mk l hl =>
  cases b with | mk m hm =>
  obtain rfl : l = m := entries_eq_of_lookup_eq hl hm h
  rfl

end SumProduct.Bindings
