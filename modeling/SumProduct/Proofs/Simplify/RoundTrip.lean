/-
Simplified expressions that are written and read again. A folded constant is rounded to a double,
not to six places, so it may not be read from its own text: simplified expressions survive exactly
if all their numbers have six places. Folding whole numbers gives whole numbers, and they do.
-/
import SumProduct.Bindings.Lemmas
import SumProduct.Proofs.Simplify.BottomUp
import SumProduct.Proofs.Expr.RoundTrip

namespace SumProduct

/-! ## Whole numbers -/

namespace Double

/-- A whole size rounds to a whole size: steps between sizes divide one, or are whole. -/
theorem quantaPerUnit_dvd_quanta_nearestRank (k : Nat) :
    quantaPerUnit ∣ quanta (nearestRank (k * quantaPerUnit) 1) := by
  obtain ⟨s, m, hr, hm, hle, hge⟩ := exists_nearestRank (k * quantaPerUnit) Nat.one_pos
  rw [Nat.one_mul] at hm
  rw [hr, quanta_mul_add hle (hge.imp_right And.left)]
  obtain ⟨e, he, hunit⟩ := exists_quantaPerUnit
  rcases Nat.le_total s e with hse | hes
  · have hstep : k * quantaPerUnit = k * 2 ^ (e - s) * 2 ^ s := by
      rw [hunit, Nat.mul_assoc, ← Nat.pow_add, Nat.sub_add_cancel hse]
    rw [← hm, hstep, divRound_mul_right _ (Nat.two_pow_pos s), ← hstep]
    exact Nat.dvd_mul_left quantaPerUnit k
  · rw [hunit]
    exact Nat.dvd_mul_left_of_dvd (Nat.pow_dvd_pow 2 hes) m

end Double

namespace Number

/-- A whole number of units. -/
def IsWhole (n : Number) : Prop := Double.quantaPerUnit ∣ n.quanta

theorem isWhole_max : max.IsWhole := Double.quantaPerUnit_dvd_quanta_max

theorem isWhole_saturate {rank : Nat} (h : Double.quantaPerUnit ∣ Double.quanta rank) :
    (saturate rank).IsWhole := by
  unfold saturate
  split
  · exact h
  · exact isWhole_max

theorem isWhole_add {a b : Number} (ha : a.IsWhole) (hb : b.IsWhole) : (a + b).IsWhole := by
  obtain ⟨k, hk⟩ := ha
  obtain ⟨l, hl⟩ := hb
  show (a.add b).IsWhole
  unfold add
  rw [hk, hl, ← Nat.mul_add, Nat.mul_comm]
  exact isWhole_saturate (Double.quantaPerUnit_dvd_quanta_nearestRank (k + l))

theorem isWhole_mul {a b : Number} (ha : a.IsWhole) (hb : b.IsWhole) : (a * b).IsWhole := by
  obtain ⟨k, hk⟩ := ha
  obtain ⟨l, hl⟩ := hb
  have hsize : a.quanta * b.quanta = k * l * Double.quantaPerUnit * Double.quantaPerUnit := by
    rw [hk, hl]
    ring
  have hround := Double.nearestRank_mul_right (k * l * Double.quantaPerUnit) Nat.one_pos
    quantaPerUnit_pos
  rw [Nat.one_mul] at hround
  show (a.mul b).IsWhole
  unfold mul
  rw [hsize, hround]
  exact isWhole_saturate (Double.quantaPerUnit_dvd_quanta_nearestRank (k * l))

/-- A whole number has no places, so it is read from its own text. -/
theorem reread_of_isWhole {n : Number} (h : n.IsWhole) : n.reread = n := by
  obtain ⟨k, hk⟩ := h
  refine reread_eq_self_iff.2 ⟨⟨k, 0⟩, Nat.zero_le 6, ofDecimal?_eq_some_rank.2 ?_⟩
  have hround := Double.nearestRank_quanta n.rank Nat.one_pos
  rw [← quanta, hk, Nat.mul_one, Nat.mul_comm] at hround
  exact hround

end Number

namespace Expr

/-! ## Numbers of simplified expressions -/

section

variable {P : Number → Prop}

theorem forall_numbers_plus (hadd : ∀ m n, P m → P n → P (m + n)) {l r : Expr}
    (hl : ∀ n ∈ l.numbers, P n) (hr : ∀ n ∈ r.numbers, P n) : ∀ n ∈ (plus l r).numbers, P n := by
  rcases plus_cases l r with ⟨m, n, rfl, rfl⟩ | rfl | rfl | h
  · have hm := hl m (List.mem_singleton_self m)
    have hn := hr n (List.mem_singleton_self n)
    simpa [numbers] using hadd m n hm hn
  · rwa [zero_plus]
  · rwa [plus_zero]
  · rw [h]
    exact List.forall_mem_append.2 ⟨hl, hr⟩

theorem forall_numbers_times (hmul : ∀ m n, P m → P n → P (m * n)) {l r : Expr}
    (hl : ∀ n ∈ l.numbers, P n) (hr : ∀ n ∈ r.numbers, P n) : ∀ n ∈ (times l r).numbers, P n := by
  rcases times_cases l r with ⟨m, n, rfl, rfl⟩ | rfl | rfl | rfl | rfl | h
  · have hm := hl m (List.mem_singleton_self m)
    have hn := hr n (List.mem_singleton_self n)
    rw [number_times_number]
    simpa [numbers] using hmul m n hm hn
  · rwa [zero_times]
  · rwa [times_zero]
  · rwa [one_times]
  · rwa [times_one]
  · rw [h]
    exact List.forall_mem_append.2 ⟨hl, hr⟩

/-- What holds of all numbers of an expression and of its bindings, and is kept by the arithmetic
of numbers, holds of all numbers of the simplified expression. -/
theorem forall_numbers_simplify (hadd : ∀ m n, P m → P n → P (m + n))
    (hmul : ∀ m n, P m → P n → P (m * n)) {b : Bindings} {e : Expr}
    (hb : ∀ x v, b.get? x = some v → P v) (he : ∀ n ∈ e.numbers, P n) :
    ∀ n ∈ (simplify b e).numbers, P n := by
  induction e with
  | number n => exact he
  | symbol x =>
    rw [simplify_symbol]
    rcases hx : b.get? x with _ | v
    · exact nofun
    · simpa [numbers] using hb x v hx
  | sum l r ihl ihr =>
    obtain ⟨hl, hr⟩ := List.forall_mem_append.1 he
    rw [simplify_sum]
    exact forall_numbers_plus hadd (ihl hl) (ihr hr)
  | product l r ihl ihr =>
    obtain ⟨hl, hr⟩ := List.forall_mem_append.1 he
    rw [simplify_product]
    exact forall_numbers_times hmul (ihl hl) (ihr hr)

end

/-! ## Simplified, written and read -/

/-- The text of a simplified expression is read, and as that expression exactly if every number in
it is the nearest to a decimal of six places. Where all numbers of the expression and of the
bindings are whole, this holds. -/
theorem parse_text_simplify (b : Bindings) (e : Expr) :
    parse (simplify b e).text = .ok ((simplify b e).mapNumbers Number.reread) ∧
      (parse (simplify b e).text = .ok (simplify b e) ↔
        ∀ n ∈ (simplify b e).numbers, n.HasPlaces 6) ∧
      ((∀ n ∈ e.numbers, n.IsWhole) → (∀ x v, b.get? x = some v → v.IsWhole) →
        parse (simplify b e).text = .ok (simplify b e)) := by
  refine ⟨parse_text _, ?_, ?_⟩
  · simp only [parse_text_eq_self_iff, Number.reread_eq_self_iff]
  · intro he hb
    have hwhole : ∀ n ∈ (simplify b e).numbers, n.IsWhole :=
      forall_numbers_simplify (P := Number.IsWhole) (fun _ _ hm hn => Number.isWhole_add hm hn)
        (fun _ _ hm hn => Number.isWhole_mul hm hn) hb he
    exact parse_text_eq_self_iff.2 fun n hn => Number.reread_of_isWhole (hwhole n hn)

/-- With `x` bound to the largest number, `(1 + 1) * x` stops at that number, which is whole. -/
theorem parse_text_simplify_max :
    parse (simplify (Bindings.empty.bind ⟨"x", by decide⟩ .max)
        (product (sum (number .one) (number .one)) (symbol ⟨"x", by decide⟩))).text =
      .ok (number .max) := by
  have hone : Number.one.IsWhole := ⟨1, by rw [Number.quanta_one, Nat.mul_one]⟩
  have hnumbers : ∀ n ∈ (product (sum (number .one) (number .one))
      (symbol ⟨"x", by decide⟩)).numbers, n.IsWhole := by
    intro n hn
    have : n = Number.one := by simpa [numbers] using hn
    rwa [this]
  have hbound : ∀ x v, (Bindings.empty.bind ⟨"x", by decide⟩ .max).get? x = some v → v.IsWhole := by
    intro x v hv
    rw [Bindings.get?_bind] at hv
    split at hv
    · exact Option.some.inj hv ▸ Number.isWhole_max
    · cases hv
  have hmax : simplify (Bindings.empty.bind ⟨"x", by decide⟩ .max)
      (product (sum (number .one) (number .one)) (symbol ⟨"x", by decide⟩)) = number .max := by
    decide +kernel
  exact ((parse_text_simplify _ _).2.2 hnumbers hbound).trans (congrArg Except.ok hmax)

/-- `0.001 * 0.0001` is folded to a number that is written `0.000000`, so six places in all numbers
are not enough. -/
theorem not_parse_text_simplify :
    ¬ ∀ (b : Bindings) (e : Expr), (∀ n ∈ e.numbers, n.HasPlaces 6) →
      (∀ x v, b.get? x = some v → v.HasPlaces 6) →
        parse (simplify b e).text = .ok (simplify b e) := by
  intro h
  have hm : Number.HasPlaces 6 ⟨0x3f50624dd2f1a9fc, by decide⟩ :=
    ⟨⟨1, 3⟩, by decide, by decide +kernel⟩
  have hn : Number.HasPlaces 6 ⟨0x3f1a36e2eb1c432d, by decide⟩ :=
    ⟨⟨1, 4⟩, by decide, by decide +kernel⟩
  have hfold := h .empty (product (number ⟨0x3f50624dd2f1a9fc, by decide⟩)
    (number ⟨0x3f1a36e2eb1c432d, by decide⟩))
    (List.forall_mem_cons.2 ⟨hm, List.forall_mem_singleton.2 hn⟩) nofun
  rw [parse_text_eq_self_iff] at hfold
  revert hfold
  decide +kernel

end Expr

end SumProduct
