/-
The values of numerals. A numeral stands for the double nearest to it, which is infinite if the
numeral is too large, and a number is read from it exactly if that double is finite.
-/
import SumProduct.Number

namespace SumProduct

/-- The double nearest to a decimal, infinity if the decimal is too large. -/
def Decimal.toDouble (d : Decimal) : Double :=
  .ofRank false (min (Double.nearestRank (d.digits * Double.quantaPerUnit) (Nat.pow 10 d.places))
    Double.infinityRank)

theorem Double.min_infinityRank_lt (rank : Nat) : min rank infinityRank < signBit :=
  Nat.lt_of_le_of_lt (Nat.min_le_right ..) (by decide)

theorem Double.isFinite_ofRank_min (rank : Nat) :
    (ofRank false (min rank infinityRank)).isFinite = true ↔ rank < infinityRank := by
  rw [isFinite, rank_ofRank false (min_infinityRank_lt rank), decide_eq_true_eq]
  omega

namespace Number

/-- The number of a rank exists if the double of the rank is finite, and is that double. -/
theorem some_rank_iff {rank : Nat} {n : Number} :
    (if h : rank < Double.infinityRank then some (⟨rank, h⟩ : Number) else none) = some n ↔
      (Double.ofRank false (min rank Double.infinityRank)).isFinite = true ∧
        n.toDouble = Double.ofRank false (min rank Double.infinityRank) := by
  rw [Double.isFinite_ofRank_min]
  constructor
  · intro h
    split at h
    · rename_i hr
      cases h
      exact ⟨hr, by rw [toDouble, Nat.min_eq_left (Nat.le_of_lt hr)]⟩
    · cases h
  · rintro ⟨hr, hn⟩
    have hrank : n.rank = min rank Double.infinityRank := by
      rw [← rank_toDouble n, hn, Double.rank_ofRank false (Double.min_infinityRank_lt rank)]
    rw [Nat.min_eq_left (Nat.le_of_lt hr)] at hrank
    subst hrank
    simp [hr]

theorem ofDecimal?_eq_some_iff {d : Decimal} {n : Number} :
    ofDecimal? d = some n ↔ d.toDouble.isFinite = true ∧ n.toDouble = d.toDouble :=
  some_rank_iff

theorem exists_ofDecimal? {d : Decimal} (h : d.toDouble.isFinite = true) :
    ∃ n, ofDecimal? d = some n := by
  have hr := (Double.isFinite_ofRank_min _).1 h
  refine ⟨⟨_, hr⟩, ofDecimal?_eq_some_iff.2 ⟨h, ?_⟩⟩
  rw [toDouble, Decimal.toDouble, Nat.min_eq_left (Nat.le_of_lt hr)]

/-- A decimal without a number is too large. -/
theorem isFinite_of_ofDecimal?_eq_none {d : Decimal} (h : ofDecimal? d = none) :
    d.toDouble.isFinite = false := by
  refine Bool.eq_false_iff.2 fun hfinite => ?_
  obtain ⟨n, hn⟩ := exists_ofDecimal? hfinite
  rw [h] at hn
  cases hn

end Number

end SumProduct
