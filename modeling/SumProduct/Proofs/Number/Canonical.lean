/-
The text of a number is the decimal of six places nearest to it, a tie going to the even digit, and
the double nearest to that decimal has the same text. So a second rounding loses nothing that the
first one has kept.
-/
import SumProduct.Proofs.Number.Stored
import Mathlib.Algebra.Order.Field.Basic

namespace SumProduct

/-! ## Nearest decimals -/

namespace Decimal

/-- The exact value of a decimal. -/
def value (d : Decimal) : ℚ := d.digits / 10 ^ d.places

/-- A decimal that is nearest to a rational number among those with as many places, and whose last
digit is even if another of them is as near. -/
structure IsNearest (x : ℚ) (d : Decimal) : Prop where
  nearest : ∀ a, |x - d.value| ≤ |x - value ⟨a, d.places⟩|
  even : ∀ a, a ≠ d.digits → |x - d.value| = |x - value ⟨a, d.places⟩| → d.digits % 2 = 0

section

variable (num : Nat) {den : Nat} (hd : 0 < den)

include hd

/-- The distance of a quotient from a decimal, over the product of their denominators. -/
theorem abs_sub_value (d : Decimal) :
    |(num : ℚ) / den - d.value| =
      ((num * 10 ^ d.places : Nat) - (d.digits * den : Nat) : Int).natAbs /
        (den * 10 ^ d.places : Nat) := by
  have hden : (0 : ℚ) < den := Nat.cast_pos.2 hd
  have hunit : (0 : ℚ) < (den * 10 ^ d.places : Nat) :=
    Nat.cast_pos.2 (Nat.mul_pos hd (Nat.pow_pos (by decide)))
  rw [Nat.cast_natAbs, Int.cast_abs, ← abs_of_pos hunit, ← abs_div, value]
  congr 1
  push_cast
  field_simp

/-- Decimals of the same places are compared without their denominators. -/
theorem abs_sub_value_le_iff (a b places : Nat) :
    |(num : ℚ) / den - value ⟨a, places⟩| ≤ |(num : ℚ) / den - value ⟨b, places⟩| ↔
      ((num * 10 ^ places : Nat) - (a * den : Nat) : Int).natAbs ≤
        ((num * 10 ^ places : Nat) - (b * den : Nat) : Int).natAbs := by
  have hunit : (0 : ℚ) < (den * 10 ^ places : Nat) :=
    Nat.cast_pos.2 (Nat.mul_pos hd (Nat.pow_pos (by decide)))
  rw [abs_sub_value num hd, abs_sub_value num hd, div_le_div_iff_of_pos_right hunit, Nat.cast_le]

/-- A quotient, in units of the last place, rounds to the digits of a decimal that is nearest to it.
-/
theorem IsNearest.divRound_eq {q places : Nat} (h : IsNearest (num / den) ⟨q, places⟩) :
    divRound (num * 10 ^ places) den = q := by
  obtain ⟨hnearest, heven⟩ := h
  have hle (a b : Nat) := abs_sub_value_le_iff num hd a b places
  generalize num * 10 ^ places = scaled at hle
  have hstrict (a : Nat) (hne : a ≠ q) (ho : q % 2 = 1) :
      ¬ (scaled - (a * den : Nat) : Int).natAbs ≤ (scaled - (q * den : Nat) : Int).natAbs := by
    intro hge
    have he := heven a hne (le_antisymm (hnearest a) ((hle a q).2 hge))
    exact absurd (he.symm.trans ho) (by decide)
  -- the next decimals on both sides are enough to compare with
  have habove : (q + 1) * den = q * den + den := Nat.succ_mul q den
  have hnear_above := (hle q (q + 1)).1 (hnearest (q + 1))
  have hodd_above := hstrict (q + 1) (Nat.succ_ne_self q)
  rw [habove] at hnear_above hodd_above
  cases q with
  | zero =>
    apply divRound_eq_of_bounds hd
    · omega
    · omega
    · intro ho
      cases ho
  | succ p =>
    have hbelow : (p + 1) * den = p * den + den := Nat.succ_mul p den
    have hnear_below := (hle (p + 1) p).1 (hnearest p)
    have hodd_below := hstrict p (Nat.succ_ne_self p).symm
    rw [hbelow] at hnear_above hnear_below hodd_above hodd_below
    apply divRound_eq_of_bounds hd
    · omega
    · omega
    · intro ho
      have := hodd_above ho
      have := hodd_below ho
      omega

theorem isNearest_of_divRound_eq {q places : Nat} (h : divRound (num * 10 ^ places) den = q) :
    IsNearest (num / den) ⟨q, places⟩ := by
  have hle (a b : Nat) := abs_sub_value_le_iff num hd a b places
  obtain ⟨hlow, hhigh, hodd⟩ := divRound_bounds (num * 10 ^ places) hd
  rw [h] at hlow hhigh hodd
  generalize num * 10 ^ places = scaled at hle hlow hhigh hodd
  have key (a : Nat) (hne : a ≠ q) :
      (scaled - (q * den : Nat) : Int).natAbs ≤ (scaled - (a * den : Nat) : Int).natAbs ∧
        (q % 2 = 1 →
          (scaled - (q * den : Nat) : Int).natAbs < (scaled - (a * den : Nat) : Int).natAbs) := by
    rcases Nat.lt_or_gt_of_ne hne with hlt | hgt
    · have hmul := mul_add_le_of_lt den hlt
      omega
    · have hmul := mul_add_le_of_lt den hgt
      omega
  constructor
  · intro a
    by_cases hne : a = q
    · rw [hne]
    · exact (hle q a).2 (key a hne).1
  · intro a hne heq
    rcases Nat.mod_two_eq_zero_or_one q with he | ho
    · exact he
    · exact absurd ((hle a q).1 heq.ge) (Nat.not_le.2 ((key a hne).2 ho))

end

/-- The rank nearest to a decimal is nearest to its value. -/
theorem isNearest_rank (d : Decimal) : Double.IsNearest d.value d.rank := by
  have h := Double.isNearest_nearestRank (d.digits * Double.quantaPerUnit)
    (show 0 < 10 ^ d.places from Nat.pow_pos (by decide))
  have hq : (Double.quantaPerUnit : ℚ) ≠ 0 := Nat.cast_ne_zero.2 Number.quantaPerUnit_pos.ne'
  rwa [Nat.cast_mul, mul_div_mul_right _ _ hq, Nat.cast_pow, Nat.cast_ofNat] at h

/-- The double that the value of a decimal rounds to is the one that the decimal stands for. -/
theorem isRounded_value_iff {d : Decimal} {x : Double} :
    Double.IsRounded d.value x ↔ x = d.toDouble :=
  Double.isRounded_iff d.isNearest_rank

theorem isNegative_toDouble (d : Decimal) : d.toDouble.isNegative = false :=
  Double.isNegative_ofRank false (Double.min_infinityRank_lt _)

end Decimal

namespace Number

/-! ## Doubles that are equal to numbers -/

/-- A double without a sign that is equal to a number is that of the number. -/
theorem eq_of_equal_toDouble {x : Double} {n : Number} (hsign : x.isNegative = false)
    (h : x.equal n.toDouble = true) : x = n.toDouble := by
  have hrank : x.rank = n.rank := by
    simp only [Double.equal, Double.signedRank, hsign, isNegative_toDouble, rank_toDouble,
      Bool.and_eq_true, beq_iff_eq, Bool.false_eq_true, if_false, Nat.cast_inj] at h
    exact h.2
  have hfinite : x.rank < Double.infinityRank := hrank ▸ n.rank_lt
  have hn : (⟨x.rank, hfinite⟩ : Number) = n := Number.ext hrank
  rw [← hn, toDouble_rank hsign hfinite]

/-- A finite double that is not below zero is admitted as the number of its rank, and equal to the
same doubles as this number. -/
theorem exists_ofDouble_of_atMost {v : Double} (hsign : Double.zero.atMost v = true)
    (hfinite : v.isFinite = true) :
    ∃ n, ofDouble v = .ok n ∧ n.rank = v.rank ∧ ∀ x : Double, x.equal v = x.equal n.toDouble := by
  obtain ⟨hrank, hzero⟩ := admitted_iff.1 ⟨hsign, hfinite⟩
  have hplus := plus_zero_of_admitted hrank hzero
  refine ⟨⟨v.rank, hrank⟩, ofDouble_eq_ok_iff.2 ⟨hsign, hfinite, hplus.symm⟩, rfl, fun x => ?_⟩
  have hordered : v.isUnordered = false := decide_eq_false (Nat.not_lt.2 (Nat.le_of_lt hrank))
  have hplace : v.signedRank = v.rank := by
    unfold Double.signedRank
    split
    · rename_i hneg
      rw [hzero hneg]
      rfl
    · rfl
  rw [Double.equal, Double.equal, hordered, hplace, isUnordered_toDouble, signedRank_toDouble]

/-! ## Canonical texts -/

/-- A decimal is nearest to a number exactly if the number is written as it in the places of it. -/
theorem isNearest_value_iff {n : Number} {d : Decimal} :
    d.IsNearest n.value ↔ n.toDecimal d.places = d := by
  constructor
  · intro h
    rw [toDecimal, Decimal.mk.injEq]
    exact ⟨h.divRound_eq _ quantaPerUnit_pos, rfl⟩
  · intro h
    exact Decimal.isNearest_of_divRound_eq _ quantaPerUnit_pos (congrArg Decimal.digits h)

/-- A number that is the double nearest to a decimal is read from it. -/
theorem ofDecimal?_of_isRounded {n : Number} {d : Decimal}
    (h : Double.IsRounded d.value n.toDouble) : ofDecimal? d = some n := by
  have hn := Decimal.isRounded_value_iff.1 h
  exact ofDecimal?_eq_some_iff.2 ⟨hn ▸ n.isFinite_toDouble, hn⟩

/-- A finite double that is not below zero has a text that stays the same from the first reading on,
and a double that is nearest to a decimal of at most six places stays the same itself. -/
theorem exists_canonical_text {v : Double} (hsign : Double.zero.atMost v = true)
    (hfinite : v.isFinite = true) :
    ∃ n s w, ofDouble v = .ok n ∧ n.text = s.text ∧
      (∀ d : Decimal, d.places = 6 ∧ d.IsNearest (Double.value v.rank) ↔ d = s) ∧
      Decimal.read n.text = s ∧ ofDecimal? s = some w ∧
      (∀ x, Double.IsRounded s.value x ↔ x = w.toDouble) ∧ w.toDouble.isFinite = true ∧
      w.text = n.text ∧
      ∀ (d : Decimal) (x : Double), d.places ≤ 6 → Double.IsRounded d.value x →
        x.equal v = true → w.toDouble.equal v = true := by
  obtain ⟨n, hn, hrank, hequal⟩ := exists_ofDouble_of_atMost hsign hfinite
  refine ⟨n, n.toDecimal 6, n.reread, hn, rfl, ?_, Decimal.read_text n.places_toDecimal_pos,
    n.ofDecimal?_toDecimal, ?_, n.reread.isFinite_toDouble, n.text_reread, ?_⟩
  · intro d
    rw [← hrank, ← value_eq, isNearest_value_iff]
    constructor
    · rintro ⟨hsix, hd⟩
      rw [← hd, hsix]
    · rintro rfl
      exact ⟨rfl, rfl⟩
  · intro x
    rw [Decimal.isRounded_value_iff, (ofDecimal?_eq_some_iff.1 n.ofDecimal?_toDecimal).2]
  · intro d x hd hx hxv
    have hxsign : x.isNegative = false := by
      rw [Decimal.isRounded_value_iff.1 hx, d.isNegative_toDouble]
    rw [hequal] at hxv ⊢
    have hxn := eq_of_equal_toDouble hxsign hxv
    rw [equal_toDouble, reread_eq_self_iff]
    exact ⟨d, hd, ofDecimal?_of_isRounded (hxn ▸ hx)⟩

end Number

end SumProduct
