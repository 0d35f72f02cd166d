/-
Numbers written with six places and read again. The number that is read is always finite, and it is
the number that was written exactly if that is the nearest one to some decimal of six places.
-/
import SumProduct.Proofs.Number.Nearest
import SumProduct.Proofs.Number.Numeral

namespace SumProduct

namespace Double

/-- One is a power of two of quanta. The exponent has a name, so that nothing unfolds the power. -/
theorem exists_quantaPerUnit : ∃ k, k = 1074 ∧ quantaPerUnit = 2 ^ k := by
  obtain ⟨k, hk⟩ : ∃ k, k = 1074 := ⟨_, rfl⟩
  refine ⟨k, hk, ?_⟩
  unfold quantaPerUnit
  rw [← hk]
  exact Nat.one_shiftLeft k

theorem quantaPerUnit_dvd_pow {e : Nat} (h : 1074 ≤ e) : quantaPerUnit ∣ 2 ^ e := by
  obtain ⟨k, hk, hq⟩ := exists_quantaPerUnit
  rw [hq]
  exact Nat.pow_dvd_pow 2 (by omega)

theorem pow_le_quantaPerUnit {e : Nat} (h : e ≤ 1074) : 2 ^ e ≤ quantaPerUnit := by
  obtain ⟨k, hk, hq⟩ := exists_quantaPerUnit
  rw [hq]
  exact Nat.pow_le_pow_right (by decide) (by omega)

/-- The largest finite size is whole. -/
theorem quantaPerUnit_dvd_quanta_max : quantaPerUnit ∣ quanta (infinityRank - 1) := by
  have hrank : infinityRank - 1 = 2045 * binade + (2 * binade - 1) := by decide
  have hquanta : ∀ s m, m ≤ 2 * binade → binade ≤ m → 1074 ≤ s →
      quantaPerUnit ∣ quanta (s * binade + m) := by
    intro s m hm hbm hs
    rw [quanta_mul_add hm (.inr hbm)]
    exact Nat.dvd_mul_left_of_dvd (quantaPerUnit_dvd_pow hs) m
  rw [hrank]
  exact hquanta 2045 (2 * binade - 1) (Nat.sub_le _ 1) (by decide) (by decide)

end Double

namespace Decimal

/-- The rank nearest to a decimal. -/
def rank (d : Decimal) : Nat :=
  Double.nearestRank (d.digits * Double.quantaPerUnit) (10 ^ d.places)

theorem rank_eq_iff_roundsTo {d : Decimal} {r : Nat} :
    d.rank = r ↔ Double.RoundsTo (d.digits * Double.quantaPerUnit) (10 ^ d.places) r :=
  Double.nearestRank_eq_iff (Nat.pow_pos (by decide))

/-- Further places do not change the value. -/
theorem rank_of_more_places (digits places more : Nat) :
    rank ⟨digits * 10 ^ more, places + more⟩ = rank ⟨digits, places⟩ := by
  have h10 (k : Nat) : 0 < 10 ^ k := Nat.pow_pos (by decide)
  rw [rank, rank, Nat.pow_add, ← Double.nearestRank_mul_right _ (h10 places) (h10 more),
    Nat.mul_right_comm]

end Decimal

namespace Number

theorem ofDecimal?_eq_dite (d : Decimal) :
    ofDecimal? d = if h : d.rank < Double.infinityRank then some ⟨d.rank, h⟩ else none := rfl

theorem ofDecimal?_eq_some_rank {d : Decimal} {n : Number} :
    ofDecimal? d = some n ↔ d.rank = n.rank := by
  rw [ofDecimal?_eq_dite]
  split
  · rw [Option.some_inj, Number.ext_iff]
  · rename_i h
    constructor
    · intro hn
      cases hn
    · intro hr
      exact absurd (hr ▸ n.rank_lt) h

/-! ## Reading what was written -/

theorem digits_toDecimal (places : Nat) (n : Number) :
    (n.toDecimal places).digits =
      divRound (n.quanta * 10 ^ places) Double.quantaPerUnit := rfl

/-- Writing a number with a fixed count of places does not take it beyond the largest one, which
is whole. -/
theorem rank_toDecimal_lt (places : Nat) (n : Number) :
    (n.toDecimal places).rank < Double.infinityRank := by
  obtain ⟨k, hk⟩ := Double.quantaPerUnit_dvd_quanta_max
  have hn : n.quanta ≤ Double.quanta (Double.infinityRank - 1) :=
    Double.quanta_strictMono.monotone (Nat.le_sub_one_of_lt n.rank_lt)
  have hdigits : (n.toDecimal places).digits ≤ k * 10 ^ places := by
    rw [digits_toDecimal]
    apply divRound_le quantaPerUnit_pos
    calc n.quanta * 10 ^ places ≤ Double.quantaPerUnit * k * 10 ^ places :=
          Nat.mul_le_mul_right _ (hk ▸ hn)
      _ = k * 10 ^ places * Double.quantaPerUnit := by ring
  have hrank : (n.toDecimal places).rank ≤ Double.infinityRank - 1 := by
    apply Double.nearestRank_le (Nat.pow_pos (by decide))
    calc (n.toDecimal places).digits * Double.quantaPerUnit
        ≤ k * 10 ^ places * Double.quantaPerUnit := Nat.mul_le_mul_right _ hdigits
      _ = Double.quantaPerUnit * k * 10 ^ places := by ring
      _ = Double.quanta (Double.infinityRank - 1) * 10 ^ places := by rw [hk]
  exact Nat.lt_of_le_of_lt hrank (by decide)

/-- The number that is read from the text of a number. -/
def reread (n : Number) : Number := ⟨(n.toDecimal 6).rank, n.rank_toDecimal_lt 6⟩

theorem ofDecimal?_toDecimal (n : Number) : ofDecimal? (n.toDecimal 6) = some n.reread :=
  ofDecimal?_eq_some_rank.2 rfl

/-- The number that is read is at least as near to the decimal that was written as the number that
was written is, so it is written as the same decimal. -/
theorem toDecimal_reread (n : Number) : n.reread.toDecimal 6 = n.toDecimal 6 := by
  have hrounds := Double.roundsTo_nearestRank ((n.toDecimal 6).digits * Double.quantaPerUnit)
    (show 0 < 10 ^ 6 by decide)
  have hnear := hrounds.nearest n.rank
  have hdigits : (n.reread.toDecimal 6).digits = (n.toDecimal 6).digits :=
    divRound_eq_of_nearer quantaPerUnit_pos rfl hnear
  rw [toDecimal, Decimal.mk.injEq]
  exact ⟨hdigits, rfl⟩

theorem text_reread (n : Number) : n.reread.text = n.text := by
  rw [text, toDecimal_reread, text]

/-! ## What survives -/

/-- Whether a number is the nearest one to a decimal of at most so many places. -/
def HasPlaces (places : Nat) (n : Number) : Prop :=
  ∃ d : Decimal, d.places ≤ places ∧ ofDecimal? d = some n

theorem hasPlaces_iff {places : Nat} {n : Number} :
    n.HasPlaces places ↔ ∃ digits, Double.RoundsTo (digits * Double.quantaPerUnit) (10 ^ places)
      n.rank := by
  constructor
  · rintro ⟨d, hd, hn⟩
    refine ⟨d.digits * 10 ^ (places - d.places), ?_⟩
    have hmore := Decimal.rank_of_more_places d.digits d.places (places - d.places)
    rw [Nat.add_sub_cancel' hd] at hmore
    exact Decimal.rank_eq_iff_roundsTo.1 (hmore.trans (ofDecimal?_eq_some_rank.1 hn))
  · rintro ⟨digits, h⟩
    exact ⟨⟨digits, places⟩, Nat.le_refl _,
      ofDecimal?_eq_some_rank.2 (Decimal.rank_eq_iff_roundsTo.2 h)⟩

/-- A whole number is written exactly. -/
theorem digits_toDecimal_of_dvd {n : Number} (places : Nat) (h : Double.quantaPerUnit ∣ n.quanta) :
    (n.toDecimal places).digits * Double.quantaPerUnit = n.quanta * 10 ^ places := by
  obtain ⟨k, hk⟩ := h
  have hnum : n.quanta * 10 ^ places = k * 10 ^ places * Double.quantaPerUnit := by
    rw [hk]
    ring
  rw [digits_toDecimal, hnum, divRound_mul_right _ quantaPerUnit_pos]

/-- The start of a binade is whole, or its neighbours are much closer than decimals of six places
are to each other. -/
theorem gap_lt_of_not_dvd {s r : Nat} (hgap : Double.gap r = 2 ^ s)
    (hq : Double.quanta r = 2 ^ (52 + s)) (h : ¬ Double.quantaPerUnit ∣ Double.quanta r) :
    Double.gap r * 10 ^ 6 < Double.quantaPerUnit := by
  have hs : 52 + s < 1074 := by
    by_contra hge
    rw [hq] at h
    exact h (Double.quantaPerUnit_dvd_pow (Nat.not_lt.1 hge))
  calc Double.gap r * 10 ^ 6 < 2 ^ s * 2 ^ 20 := by
        rw [hgap]
        exact Nat.mul_lt_mul_of_pos_left (by decide) (Nat.two_pow_pos s)
    _ = 2 ^ (s + 20) := (Nat.pow_add 2 s 20).symm
    _ ≤ Double.quantaPerUnit := Double.pow_le_quantaPerUnit (by omega)

/-- The nearest decimal of six places rounds back to a number if any decimal of six places does. -/
theorem roundsTo_toDecimal {n : Number} {digits : Nat}
    (h : Double.RoundsTo (digits * Double.quantaPerUnit) (10 ^ 6) n.rank) :
    Double.RoundsTo ((n.toDecimal 6).digits * Double.quantaPerUnit) (10 ^ 6) n.rank := by
  have hnear := divRound_nearest (n.quanta * 10 ^ 6) digits quantaPerUnit_pos
  rw [← digits_toDecimal] at hnear
  rcases Nat.eq_zero_or_pos n.rank with hzero | hpos
  · exact h.of_nearer (.inl hzero) (by rw [← quanta]; omega)
  rcases Double.gap_symm_or_pow hpos with hsymm | ⟨s, hgap, hquanta⟩
  · exact h.of_nearer (.inr hsymm) (by rw [← quanta]; omega)
  by_cases hwhole : Double.quantaPerUnit ∣ n.quanta
  · rw [digits_toDecimal_of_dvd 6 hwhole, quanta, ← Double.nearestRank_eq_iff (by decide)]
    exact Double.nearestRank_quanta n.rank (by decide)
  · -- only one decimal of six places is near enough, so it is the one that was written
    have hlt := gap_lt_of_not_dvd hgap hquanta hwhole
    have hdigits : (n.toDecimal 6).digits = digits := by
      apply divRound_eq_of_near quantaPerUnit_pos
      have hbelow : Double.quanta n.rank * 10 ^ 6 ≤
          Double.quanta (n.rank - 1) * 10 ^ 6 + Double.gap n.rank * 10 ^ 6 := by
        rw [← Nat.add_mul]
        exact Nat.mul_le_mul_right _ (Double.quanta_le_pred_add_gap n.rank)
      have hlow := h.low
      have hhigh := h.high
      rw [Double.quanta_succ] at hhigh
      show 2 * (digits * Double.quantaPerUnit) <
          2 * (Double.quanta n.rank * 10 ^ 6) + Double.quantaPerUnit ∧
        2 * (Double.quanta n.rank * 10 ^ 6) <
          2 * (digits * Double.quantaPerUnit) + Double.quantaPerUnit
      omega
    rw [hdigits]
    exact h

/-- A number survives being written and read exactly if it is the nearest one to some decimal of
at most six places. -/
theorem reread_eq_self_iff {n : Number} : n.reread = n ↔ n.HasPlaces 6 := by
  constructor
  · intro h
    refine ⟨n.toDecimal 6, Nat.le_refl 6, ?_⟩
    rw [ofDecimal?_toDecimal, h]
  · intro h
    obtain ⟨digits, hd⟩ := hasPlaces_iff.1 h
    exact Number.ext (Decimal.rank_eq_iff_roundsTo.2 (roundsTo_toDecimal hd))

end Number

end SumProduct
