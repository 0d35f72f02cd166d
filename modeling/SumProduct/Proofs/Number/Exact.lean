/-
Values that need no rounding. The size of a rank, times and over anything positive, rounds to that
rank, so zero is neutral for the rounded sum and absorbing for the rounded product, and one is
neutral for the product, exactly.
-/
import SumProduct.Number
import Mathlib.Algebra.Group.Nat.Defs

namespace SumProduct

/-- A whole quotient is not rounded. -/
theorem divRound_mul_right (q : Nat) {den : Nat} (h : 0 < den) : divRound (q * den) den = q := by
  have hdiv : q * den / den = q := Nat.mul_div_cancel q h
  have hmod : q * den % den = 0 := Nat.mul_mod_left q den
  unfold divRound
  simp only [hdiv, hmod, Nat.mul_zero, if_pos h]

namespace Double

theorem binade_eq : binade = 2 ^ 52 := by decide

theorem nearestRank_eq (num den : Nat) :
    nearestRank num den = ((num / den).log2 - 52) * binade +
      divRound num (den <<< ((num / den).log2 - 52)) := rfl

/-- A significand shifted by its exponent takes 53 bits more than the exponent. -/
theorem log2_significand {f : Nat} (hf : f < binade) (s : Nat) :
    ((binade + f) <<< s).log2 = 52 + s := by
  rw [binade_eq] at hf ⊢
  rw [Nat.shiftLeft_eq]
  have hs : 0 < 2 ^ s := Nat.two_pow_pos s
  have hne : (2 ^ 52 + f) * 2 ^ s ≠ 0 := Nat.mul_ne_zero (by omega) (by omega)
  rw [Nat.log2_eq_iff hne]
  constructor
  · rw [Nat.pow_add]
    exact Nat.mul_le_mul_right _ (by omega)
  · rw [show 52 + s + 1 = 53 + s by omega, Nat.pow_add]
    exact Nat.mul_lt_mul_of_pos_right (by omega) hs

/-- A size in the first binade is its own rank. -/
theorem nearestRank_of_lt {r k : Nat} (hr : r < binade) (hk : 0 < k) :
    nearestRank (r * k) k = r := by
  have hlog : r.log2 - 52 = 0 := by
    by_cases h : r = 0
    · subst h; rfl
    · have := (Nat.log2_lt h).2 (binade_eq ▸ hr)
      omega
  rw [nearestRank_eq, Nat.mul_div_cancel r hk, hlog, Nat.zero_mul, Nat.zero_add, Nat.shiftLeft_zero]
  exact divRound_mul_right r hk

/-- A significand shifted by its exponent has the rank made of the two. -/
theorem nearestRank_significand {f k : Nat} (hf : f < binade) (s : Nat) (hk : 0 < k) :
    nearestRank (((binade + f) <<< s) * k) k = s * binade + (binade + f) := by
  have hlog : ((binade + f) <<< s).log2 - 52 = s := by
    rw [log2_significand hf]
    omega
  have hden : 0 < k <<< s := by
    rw [Nat.shiftLeft_eq]
    exact Nat.mul_pos hk (Nat.two_pow_pos s)
  have hnum : ((binade + f) <<< s) * k = (binade + f) * (k <<< s) := by
    rw [Nat.shiftLeft_eq, Nat.shiftLeft_eq, Nat.mul_assoc, Nat.mul_comm (2 ^ s)]
  rw [nearestRank_eq, Nat.mul_div_cancel _ hk, hlog, hnum, divRound_mul_right _ hden]

/-- An exact value rounds to its own rank, whatever the unit it is counted in. -/
theorem nearestRank_quanta (r : Nat) {k : Nat} (hk : 0 < k) :
    nearestRank (quanta r * k) k = r := by
  have hb : 0 < binade := by decide
  unfold quanta
  split
  · exact nearestRank_of_lt ‹_› hk
  · rename_i hr
    rw [nearestRank_significand (Nat.mod_lt _ hb) _ hk]
    -- From the second binade on the exponent is one less than the number of the binade.
    have he : 0 < r / binade := Nat.div_pos (Nat.not_lt.1 hr) hb
    have hdiv : binade * (r / binade) + r % binade = r := Nat.div_add_mod r binade
    rw [Nat.sub_mul, Nat.one_mul, Nat.mul_comm]
    have := Nat.mul_le_mul_left binade he
    omega

end Double

namespace Number

theorem saturate_rank (n : Number) : saturate n.rank = n := by
  unfold saturate
  rw [dif_pos n.rank_lt]

@[simp] theorem quanta_zero : zero.quanta = 0 := by decide

@[simp] theorem quanta_one : one.quanta = Double.quantaPerUnit := by
  unfold Double.quantaPerUnit
  rfl

theorem quantaPerUnit_pos : 0 < Double.quantaPerUnit := by
  have hshift (n : Nat) : 0 < 1 <<< n := by
    rw [Nat.shiftLeft_eq, Nat.one_mul]
    exact Nat.two_pow_pos n
  unfold Double.quantaPerUnit
  exact hshift 1074

/-- A sum whose exact size is that of a number is that number. -/
theorem add_eq_of_quanta {a b c : Number} (h : a.quanta + b.quanta = c.quanta) : a + b = c := by
  have hround := Double.nearestRank_quanta c.rank Nat.one_pos
  rw [Nat.mul_one] at hround
  show a.add b = c
  rw [add, h, quanta, hround, saturate_rank]

/-- A product whose exact size is that of a number is that number. -/
theorem mul_eq_of_quanta {a b c : Number}
    (h : a.quanta * b.quanta = c.quanta * Double.quantaPerUnit) : a * b = c := by
  show a.mul b = c
  rw [mul, h, quanta, Double.nearestRank_quanta c.rank quantaPerUnit_pos, saturate_rank]

/-! ## Neutral and absorbing numbers -/

@[simp] theorem add_zero (n : Number) : n + zero = n := add_eq_of_quanta (by simp)

@[simp] theorem zero_add (n : Number) : zero + n = n := add_eq_of_quanta (by simp)

@[simp] theorem mul_one (n : Number) : n * one = n := mul_eq_of_quanta (by simp)

@[simp] theorem one_mul (n : Number) : one * n = n := mul_eq_of_quanta (by simp [Nat.mul_comm])

@[simp] theorem mul_zero (n : Number) : n * zero = zero := mul_eq_of_quanta (by simp)

@[simp] theorem zero_mul (n : Number) : zero * n = zero := mul_eq_of_quanta (by simp)

end Number

end SumProduct
