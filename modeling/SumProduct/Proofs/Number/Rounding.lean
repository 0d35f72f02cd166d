/-
The arithmetic of numbers against that of rational numbers. A sum or product is the double nearest
to the exact one, a tie going to the even significand, or the largest number where that double is
infinite. Rounding keeps order, and so do both operations.
-/
import SumProduct.Proofs.Number.Nearest
import SumProduct.Proofs.Number.Numeral
import SumProduct.Proofs.Number.Shortest
import SumProduct.Proofs.Number.Value
import Mathlib.Tactic.FieldSimp

namespace SumProduct

namespace Double

/-! ## Rounding to nearest -/

/-- The exact value of a rank. From `infinityRank` on it is the value that the double would have if
exponents had no upper end. -/
def value (rank : Nat) : ℚ := quanta rank / quantaPerUnit

/-- A rank whose value is nearest to a rational number, and which is even if another rank is as
near. The last bit of a rank is that of the significand. -/
structure IsNearest (x : ℚ) (r : Nat) : Prop where
  nearest : ∀ r', |x - value r| ≤ |x - value r'|
  even : ∀ r', r' ≠ r → |x - value r| = |x - value r'| → r % 2 = 0

theorem value_strictMono : StrictMono value := by
  intro r r' h
  have hq : (0 : ℚ) < quantaPerUnit := Nat.cast_pos.2 Number.quantaPerUnit_pos
  exact div_lt_div_of_pos_right (Nat.cast_lt.2 (quanta_strictMono h)) hq

/-- Between the midpoints to the values next to it, the value of a rank is nearest. -/
theorem isNearest_of_midpoints {x : ℚ} {r : Nat} (hlow : value (r - 1) + value r ≤ 2 * x)
    (hhigh : 2 * x ≤ value r + value (r + 1))
    (hodd : r % 2 = 1 → value (r - 1) + value r < 2 * x ∧ 2 * x < value r + value (r + 1)) :
    IsNearest x r := by
  have key : ∀ r', r' ≠ r → |x - value r| ≤ |x - value r'| ∧
      (r % 2 = 1 → |x - value r| < |x - value r'|) := by
    intro r' hne
    rcases Nat.lt_or_gt_of_ne hne with hlt | hgt
    · -- below: the distance to the lower value is at least that to the next one below
      have hstep : value r' ≤ value (r - 1) := value_strictMono.monotone (by omega)
      have hless : value r' < value r := value_strictMono hlt
      have hdist : x - value r' ≤ |x - value r'| := le_abs_self _
      constructor
      · rw [abs_le]
        constructor <;> linarith
      · intro ho
        have := (hodd ho).1
        rw [abs_lt]
        constructor <;> linarith
    · have hstep : value (r + 1) ≤ value r' := value_strictMono.monotone hgt
      have hless : value r < value r' := value_strictMono hgt
      have hdist : -(x - value r') ≤ |x - value r'| := neg_le_abs _
      constructor
      · rw [abs_le]
        constructor <;> linarith
      · intro ho
        have := (hodd ho).2
        rw [abs_lt]
        constructor <;> linarith
  constructor
  · intro r'
    by_cases hne : r' = r
    · rw [hne]
    · exact (key r' hne).1
  · intro r' hne heq
    rcases Nat.mod_two_eq_zero_or_one r with he | ho
    · exact he
    · exact absurd heq (ne_of_lt ((key r' hne).2 ho))

/-- The rank that a size rounds to is nearest to the size. -/
theorem isNearest_nearestRank (num : Nat) {den : Nat} (hd : 0 < den) :
    IsNearest (num / (den * quantaPerUnit)) (nearestRank num den) := by
  obtain ⟨hlow, hhigh, hodd⟩ := roundsTo_nearestRank num hd
  generalize nearestRank num den = r at hlow hhigh hodd
  have hq : (0 : ℚ) < quantaPerUnit := Nat.cast_pos.2 Number.quantaPerUnit_pos
  have hd' : (0 : ℚ) < den := Nat.cast_pos.2 hd
  have hscale : 2 * ((num : ℚ) / (den * quantaPerUnit)) =
      ((2 * num : Nat) : ℚ) / (den * quantaPerUnit) := by
    rw [Nat.cast_mul, Nat.cast_ofNat, mul_div_assoc]
  have hmid : ∀ a b : Nat, value a + value b =
      (((quanta a + quanta b) * den : Nat) : ℚ) / (den * quantaPerUnit) := by
    intro a b
    rw [value, value, Nat.cast_mul, Nat.cast_add]
    field_simp
  have hpos : (0 : ℚ) < den * quantaPerUnit := mul_pos hd' hq
  apply isNearest_of_midpoints
  · rw [hscale, hmid]
    exact div_le_div_of_nonneg_right (Nat.cast_le.2 hlow) hpos.le
  · rw [hscale, hmid]
    exact div_le_div_of_nonneg_right (Nat.cast_le.2 hhigh) hpos.le
  · intro ho
    obtain ⟨hlow', hhigh'⟩ := hodd ho
    rw [hscale, hmid, hmid]
    exact ⟨div_lt_div_of_pos_right (Nat.cast_lt.2 hlow') hpos,
      div_lt_div_of_pos_right (Nat.cast_lt.2 hhigh') hpos⟩

theorem isNearest_sum (m n : Nat) :
    IsNearest (m / quantaPerUnit + n / quantaPerUnit) (nearestRank (m + n) 1) := by
  have h := isNearest_nearestRank (m + n) Nat.one_pos
  rwa [Nat.cast_one, one_mul, Nat.cast_add, add_div] at h

theorem isNearest_product (m n : Nat) :
    IsNearest (m / quantaPerUnit * (n / quantaPerUnit)) (nearestRank (m * n) quantaPerUnit) := by
  have h := isNearest_nearestRank (m * n) Number.quantaPerUnit_pos
  rwa [Nat.cast_mul, ← div_mul_div_comm] at h

/-- What a value is nearest to is at most halfway to a larger one. -/
theorem IsNearest.le_midpoint {x : ℚ} {r r' : Nat} (h : IsNearest x r) (hlt : r < r') :
    2 * x ≤ value r + value r' := by
  have hless : value r < value r' := value_strictMono hlt
  by_contra hgt
  have hnear : |x - value r'| < x - value r := abs_lt.2 ⟨by linarith, by linarith⟩
  exact absurd (h.nearest r') (not_le.2 (hnear.trans_le (le_abs_self _)))

/-- What a value is nearest to is at least halfway from a smaller one. -/
theorem IsNearest.midpoint_le {x : ℚ} {r r' : Nat} (h : IsNearest x r') (hlt : r < r') :
    value r + value r' ≤ 2 * x := by
  have hless : value r < value r' := value_strictMono hlt
  by_contra hgt
  have hnear : |x - value r| < -(x - value r') := abs_lt.2 ⟨by linarith, by linarith⟩
  exact absurd (h.nearest r) (not_le.2 (hnear.trans_le (neg_le_abs _)))

/-- Rounding to nearest keeps order. A larger rank for a smaller number would put both halfway
between the ranks, and these would both be even, with a nearer one between them. -/
theorem IsNearest.mono {x y : ℚ} {r r' : Nat} (hx : IsNearest x r) (hy : IsNearest y r')
    (hxy : x ≤ y) : r ≤ r' := by
  by_contra hgt
  have hlt : r' < r := Nat.not_le.1 hgt
  have hlow := hx.midpoint_le hlt
  have hhigh := hy.le_midpoint hlt
  obtain rfl : x = y := by linarith
  have hless : value r' < value r := value_strictMono hlt
  have hx_low : |x - value r'| = x - value r' := abs_of_nonneg (by linarith)
  have hx_high : |x - value r| = -(x - value r) := abs_of_nonpos (by linarith)
  have htie : |x - value r| = |x - value r'| := by
    rw [hx_low, hx_high]
    linarith
  have heven := hx.even r' (ne_of_lt hlt) htie
  have heven' := hy.even r (ne_of_gt hlt) htie.symm
  have hup : value r' < value (r' + 1) := value_strictMono (Nat.lt_succ_self r')
  have hdown : value (r' + 1) < value r := value_strictMono (by omega)
  have hnear : |x - value (r' + 1)| < |x - value r'| := by
    rw [hx_low]
    exact abs_lt.2 ⟨by linarith, by linarith⟩
  exact absurd (hy.nearest (r' + 1)) (not_le.2 hnear)

theorem IsNearest.unique {x : ℚ} {r r' : Nat} (h : IsNearest x r) (h' : IsNearest x r') : r = r' :=
  Nat.le_antisymm (h.mono h' le_rfl) (h'.mono h le_rfl)

/-- The double that a rational number rounds to, infinity if its rank is beyond the finite ones. -/
def IsRounded (x : ℚ) (d : Double) : Prop :=
  ∃ r, IsNearest x r ∧ d = ofRank false (min r infinityRank)

theorem isRounded_iff {x : ℚ} {r : Nat} (h : IsNearest x r) {d : Double} :
    IsRounded x d ↔ d = ofRank false (min r infinityRank) := by
  constructor
  · rintro ⟨r', h', rfl⟩
    rw [h.unique h']
  · rintro rfl
    exact ⟨r, h, rfl⟩

end Double

namespace Number

/-! ## Sums and products -/

theorem value_eq (n : Number) : n.value = Double.value n.rank := rfl

theorem value_le_iff {a b : Number} : a.value ≤ b.value ↔ a.rank ≤ b.rank := by
  rw [value_eq, value_eq, Double.value_strictMono.le_iff_le]

theorem add_eq (a b : Number) :
    a + b = saturate (Double.nearestRank (a.quanta + b.quanta) 1) := by
  show a.add b = _
  rw [add]

theorem mul_eq (a b : Number) :
    a * b = saturate (Double.nearestRank (a.quanta * b.quanta) Double.quantaPerUnit) := by
  show a.mul b = _
  rw [mul]

/-- The rank of a sum is nearest to the exact sum. -/
theorem isNearest_add (a b : Number) :
    Double.IsNearest (a.value + b.value) (Double.nearestRank (a.quanta + b.quanta) 1) :=
  Double.isNearest_sum a.quanta b.quanta

theorem isNearest_mul (a b : Number) :
    Double.IsNearest (a.value * b.value)
      (Double.nearestRank (a.quanta * b.quanta) Double.quantaPerUnit) :=
  Double.isNearest_product a.quanta b.quanta

/-- A rank is either that of a finite double, and then a number, or stands for infinity, and then
the largest number takes its place. -/
theorem toDouble_saturate (r : Nat) :
    (saturate r).toDouble =
      if (Double.ofRank false (min r Double.infinityRank)).isFinite = true then
        Double.ofRank false (min r Double.infinityRank)
      else max.toDouble := by
  unfold saturate
  by_cases h : r < Double.infinityRank
  · rw [dif_pos h, if_pos ((Double.isFinite_ofRank_min r).2 h), Nat.min_eq_left h.le, toDouble]
  · rw [dif_neg h, if_neg fun hfinite => h ((Double.isFinite_ofRank_min r).1 hfinite)]

theorem saturate_mono {r r' : Nat} (h : r ≤ r') : (saturate r).rank ≤ (saturate r').rank := by
  unfold saturate
  by_cases hr' : r' < Double.infinityRank
  · rw [dif_pos hr', dif_pos (h.trans_lt hr')]
    exact h
  · rw [dif_neg hr']
    split
    · exact Nat.le_sub_one_of_lt ‹_›
    · exact Nat.le_refl _

theorem value_nonneg (n : Number) : 0 ≤ n.value :=
  div_nonneg (Nat.cast_nonneg _) (Nat.cast_nonneg _)

/-- The sum grows with its operands. -/
theorem value_add_le {a b : Number} (h : a.value ≤ b.value) (c : Number) :
    (a + c).value ≤ (b + c).value := by
  rw [value_le_iff, add_eq, add_eq]
  exact saturate_mono ((isNearest_add a c).mono (isNearest_add b c) (add_le_add_left h _))

theorem value_mul_le {a b : Number} (h : a.value ≤ b.value) (c : Number) :
    (a * c).value ≤ (b * c).value := by
  rw [value_le_iff, mul_eq, mul_eq]
  exact saturate_mono ((isNearest_mul a c).mono (isNearest_mul b c)
    (mul_le_mul_of_nonneg_right h c.value_nonneg))

/-- The double that stands for the exact result of an operation is the result, unless it is
infinite: then the largest number is. -/
def Rounds (x : ℚ) (n : Number) : Prop :=
  ∃ d, (∀ d', Double.IsRounded x d' ↔ d' = d) ∧
    n.toDouble = if d.isFinite = true then d else max.toDouble

theorem rounds_saturate {x : ℚ} {r : Nat} (h : Double.IsNearest x r) : Rounds x (saturate r) :=
  ⟨_, fun _ => Double.isRounded_iff h, toDouble_saturate r⟩

theorem rounds_add (a b : Number) : Rounds (a.value + b.value) (a + b) :=
  rounds_saturate (isNearest_add a b)

theorem rounds_mul (a b : Number) : Rounds (a.value * b.value) (a * b) :=
  rounds_saturate (isNearest_mul a b)

end Number

end SumProduct
