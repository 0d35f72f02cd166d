/-
The shortest text of a double. Whatever the search for it ends with rounds to the value that was
searched for, so the text of a number is a numeral that reads back to the number.
-/
import SumProduct.Proofs.Number.Writing

namespace SumProduct

namespace Double

/-! ## The decimals that read back -/

theorem readsBack_iff {r : Nat} {d : Scientific} :
    readsBack r d = true ↔ d.decimal.rank = r := by
  have hsize : d.digits * (2 * quantaPerUnit) * Nat.pow 10 d.exponent.toNat =
      2 * (d.decimal.digits * quantaPerUnit) := by
    show d.digits * (2 * quantaPerUnit) * 10 ^ d.exponent.toNat =
      2 * (d.digits * 10 ^ d.exponent.toNat * quantaPerUnit)
    ring
  rw [Decimal.rank_eq_iff_roundsTo]
  unfold readsBack
  dsimp only
  rw [hsize]
  show _ ↔ RoundsTo _ (Nat.pow 10 (-d.exponent).toNat) r
  generalize Nat.pow 10 (-d.exponent).toNat = unit
  split
  · rename_i he
    rw [Bool.and_eq_true, decide_eq_true_eq, decide_eq_true_eq]
    constructor
    · rintro ⟨hlow, hhigh⟩
      exact ⟨hlow, hhigh, fun ho => by omega⟩
    · rintro ⟨hlow, hhigh, -⟩
      exact ⟨hlow, hhigh⟩
  · rename_i ho
    rw [Bool.and_eq_true, decide_eq_true_eq, decide_eq_true_eq]
    constructor
    · rintro ⟨hlow, hhigh⟩
      exact ⟨Nat.le_of_lt hlow, Nat.le_of_lt hhigh, fun _ => ⟨hlow, hhigh⟩⟩
    · rintro ⟨-, -, hodd⟩
      exact hodd (Nat.mod_two_ne_zero.1 ho)

/-! ## The search -/

theorem rank_of_nearestAt? {r : Nat} {exponent : Int} {d : Scientific}
    (h : nearestAt? r exponent = some d) : d.decimal.rank = r := by
  rw [← readsBack_iff]
  unfold nearestAt? at h
  dsimp only at h
  split at h
  · rename_i hbelow habove
    cases h
    split
    · exact hbelow
    · exact habove
  · rename_i hbelow _
    cases h
    exact hbelow
  · rename_i habove
    cases h
    exact habove
  · cases h

theorem rank_exact (r : Nat) : (exact r).decimal.rank = r := by
  obtain ⟨k, hk, hunit⟩ := exists_quantaPerUnit
  have hexact : exact r = ⟨quanta r * 5 ^ k, -(k : Int)⟩ := by
    unfold exact
    rw [Scientific.mk.injEq]
    refine ⟨?_, by omega⟩
    rw [← hk]
    rfl
  have hdecimal : (exact r).decimal = ⟨quanta r * 5 ^ k, k⟩ := by
    have hneg : (-(k : Int)).toNat = 0 := by omega
    rw [hexact, Scientific.decimal, hneg, Int.neg_neg, Int.toNat_natCast, Nat.pow_zero, Nat.mul_one]
  -- a quantum is a whole number of units in the last of the places
  have hscale : quanta r * 5 ^ k * quantaPerUnit = quanta r * 10 ^ k := by
    rw [hunit, Nat.mul_assoc, ← Nat.mul_pow]
  rw [hdecimal, Decimal.rank, hscale]
  exact nearestRank_quanta r (Nat.pow_pos (by decide))

/-- A search that finds nothing ends with the exact decimal. -/
theorem rank_firstReadingBack (r : Nat) (exponent : Int) (more : Nat) :
    (firstReadingBack r exponent more).decimal.rank = r := by
  induction more generalizing exponent with
  | zero => exact rank_exact r
  | succ more ih =>
    unfold firstReadingBack
    split
    · rename_i d hd
      exact rank_of_nearestAt? hd
    · exact ih (exponent - 1)

theorem rank_shortest (r : Nat) : (shortest r).decimal.rank = r := by
  unfold shortest
  split
  · rename_i h
    rw [h, Decimal.rank, show (Scientific.decimal ⟨0, 0⟩) = ⟨0, 0⟩ from rfl, Nat.zero_mul]
    rfl
  · exact rank_firstReadingBack r _ 17

end Double

/-! ## Texts of numbers -/

namespace Number

/-- The shortest numeral of a number. -/
def shortestNumeral (n : Number) : Numeral := (Double.shortest n.rank).numeral

@[simp] theorem isFinite_toDouble (n : Number) : n.toDouble.isFinite = true := by
  rw [Double.isFinite, rank_toDouble, decide_eq_true_eq]
  exact n.rank_lt

@[simp] theorem isUnordered_toDouble (n : Number) : n.toDouble.isUnordered = false := by
  rw [Double.isUnordered, rank_toDouble, decide_eq_false_iff_not, Nat.not_lt]
  exact Nat.le_of_lt n.rank_lt

theorem text_toDouble (n : Number) : n.toDouble.text = n.shortestNumeral.text := by
  unfold Double.text
  rw [isUnordered_toDouble, isFinite_toDouble, isNegative_toDouble, rank_toDouble,
    Scientific.text_eq_numeral]
  exact String.empty_append

theorem ofDecimal?_shortestNumeral (n : Number) :
    ofDecimal? n.shortestNumeral.decimal = some n := by
  rw [ofDecimal?_eq_some_rank, shortestNumeral, Scientific.rank_numeral, Double.rank_shortest]

theorem places_toDecimal_pos (n : Number) : 0 < (n.toDecimal 6).places := Nat.zero_lt_succ 5

/-- The six-place numeral of a number. -/
def sixPlaceNumeral (n : Number) : Numeral := (n.toDecimal 6).numeral

theorem text_eq_sixPlaceNumeral (n : Number) : n.text = n.sixPlaceNumeral.text :=
  Decimal.text_eq_numeral n.places_toDecimal_pos

theorem ofDecimal?_sixPlaceNumeral (n : Number) :
    ofDecimal? n.sixPlaceNumeral.decimal = some n.reread := by
  rw [sixPlaceNumeral, Decimal.decimal_numeral n.places_toDecimal_pos, ofDecimal?_toDecimal]

theorem ofDecimal?_read_text (n : Number) : ofDecimal? (Decimal.read n.text) = some n.reread := by
  rw [text_eq_sixPlaceNumeral, Numeral.read_text, ofDecimal?_sixPlaceNumeral]

end Number

end SumProduct
