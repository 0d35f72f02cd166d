/-
Which sizes round to which rank. The sizes that round to a rank are those between the midpoints to
the sizes next to it, the midpoints included for an even rank; every size lies between the
midpoints of one rank only.
-/
import SumProduct.Proofs.Number.Exact
import Mathlib.Order.Monotone.Basic
import Mathlib.Tactic.Linarith
import Mathlib.Tactic.Ring

namespace SumProduct

/-! ## Quotients rounded to whole numbers -/

/-- A quotient is at most a half away from the whole number that it rounds to, and exactly a half
only from an even one. -/
theorem divRound_bounds (num : Nat) {den : Nat} (h : 0 < den) :
    2 * (divRound num den * den) ≤ 2 * num + den ∧ 2 * num ≤ 2 * (divRound num den * den) + den ∧
      (divRound num den % 2 = 1 → 2 * (divRound num den * den) < 2 * num + den ∧
        2 * num < 2 * (divRound num den * den) + den) := by
  have hdiv : num / den * den + num % den = num := Nat.div_add_mod' num den
  have hmod : num % den < den := Nat.mod_lt num h
  have hsucc : (num / den + 1) * den = num / den * den + den := Nat.succ_mul _ _
  unfold divRound
  dsimp only
  generalize num / den = f at hdiv hsucc
  split
  · omega
  · split
    · rw [hsucc]
      omega
    · -- an exact half goes up from an odd number only
      rcases Nat.mod_two_eq_zero_or_one f with hp | hp
      · rw [hp, Nat.add_zero]
        omega
      · rw [hp, hsucc]
        omega

theorem mul_add_le_of_lt {p q : Nat} (den : Nat) (h : p < q) : p * den + den ≤ q * den := by
  rw [← Nat.add_one_mul p]
  exact Nat.mul_le_mul_right den h

theorem divRound_le {num den q : Nat} (hd : 0 < den) (h : num ≤ q * den) :
    divRound num den ≤ q := by
  by_contra hgt
  have hlow := (divRound_bounds num hd).1
  have hmul := mul_add_le_of_lt den (Nat.not_le.1 hgt)
  omega

theorem le_divRound {num den q : Nat} (hd : 0 < den) (h : q * den ≤ num) :
    q ≤ divRound num den := by
  by_contra hlt
  have hhigh := (divRound_bounds num hd).2.1
  have hmul := mul_add_le_of_lt den (Nat.not_le.1 hlt)
  omega

/-- No whole number is nearer to a quotient than the one that it rounds to. -/
theorem divRound_nearest (num q : Nat) {den : Nat} (hd : 0 < den) :
    (divRound num den * den - num) + (num - divRound num den * den) ≤
      (q * den - num) + (num - q * den) := by
  obtain ⟨hlow, hhigh, -⟩ := divRound_bounds num hd
  rcases Nat.lt_trichotomy q (divRound num den) with hlt | rfl | hgt
  · have hmul := mul_add_le_of_lt den hlt
    omega
  · exact Nat.le_refl _
  · have hmul := mul_add_le_of_lt den hgt
    omega

/-- Of two whole numbers that a quotient is halfway between, one is odd. -/
theorem not_lt_of_halves {num den p q : Nat} (hd : 0 < den) (hp : 2 * num ≤ 2 * (p * den) + den)
    (hpodd : p % 2 = 1 → 2 * num < 2 * (p * den) + den) (hq : 2 * (q * den) ≤ 2 * num + den)
    (hqodd : q % 2 = 1 → 2 * (q * den) < 2 * num + den) : ¬ p < q := by
  intro hlt
  by_cases hnext : q = p + 1
  · subst hnext
    rw [Nat.add_one_mul p] at hq hqodd
    rcases Nat.mod_two_eq_zero_or_one p with he | ho
    · have := hqodd (by omega)
      omega
    · have := hpodd ho
      omega
  · have hmul := mul_add_le_of_lt den (show p + 1 < q by omega)
    rw [Nat.add_one_mul p] at hmul
    omega

/-- A whole number at most a half away, and less than a half if it is odd, is the one that a
quotient rounds to. -/
theorem divRound_eq_of_bounds {num q den : Nat} (hd : 0 < den)
    (hlow : 2 * (q * den) ≤ 2 * num + den) (hhigh : 2 * num ≤ 2 * (q * den) + den)
    (hodd : q % 2 = 1 → 2 * (q * den) < 2 * num + den ∧ 2 * num < 2 * (q * den) + den) :
    divRound num den = q := by
  obtain ⟨hlow', hhigh', hodd'⟩ := divRound_bounds num hd
  have hle : ¬ q < divRound num den :=
    not_lt_of_halves hd hhigh (fun ho => (hodd ho).2) hlow' fun ho => (hodd' ho).1
  have hge : ¬ divRound num den < q :=
    not_lt_of_halves hd hhigh' (fun ho => (hodd' ho).2) hlow fun ho => (hodd ho).1
  omega

/-- A whole number less than a half away is the one that a quotient rounds to. -/
theorem divRound_eq_of_near {num q den : Nat} (hd : 0 < den)
    (h : 2 * (q * den) < 2 * num + den ∧ 2 * num < 2 * (q * den) + den) : divRound num den = q :=
  divRound_eq_of_bounds hd (Nat.le_of_lt h.1) (Nat.le_of_lt h.2) fun _ => h

/-- A quotient that is at least as near to the whole number that another one rounds to rounds to it
as well. -/
theorem divRound_eq_of_nearer {num num' den q : Nat} (hd : 0 < den) (h : divRound num den = q)
    (hnear : (q * den - num') + (num' - q * den) ≤ (q * den - num) + (num - q * den)) :
    divRound num' den = q := by
  obtain ⟨hlow, hhigh, hodd⟩ := divRound_bounds num hd
  rw [h] at hlow hhigh hodd
  apply divRound_eq_of_bounds hd
  · omega
  · omega
  · intro ho
    have := hodd ho
    omega

namespace Double

/-! ## The sizes of successive ranks -/

/-- A significand shifted by its exponent is the size of the rank made of the two, a significand
that was rounded up to the next binade included. -/
theorem quanta_mul_add {s m : Nat} (hm : m ≤ 2 * binade) (h : s = 0 ∨ binade ≤ m) :
    quanta (s * binade + m) = m * 2 ^ s := by
  have hb : binade = 4503599627370496 := by decide
  unfold quanta
  rw [hb] at hm h ⊢
  split
  · obtain rfl : s = 0 := by omega
    rw [Nat.pow_zero, Nat.mul_one]
    omega
  · rw [Nat.shiftLeft_eq]
    by_cases htop : m = 2 * 4503599627370496
    · have hmod : (s * 4503599627370496 + m) % 4503599627370496 = 0 := by omega
      have hdiv : (s * 4503599627370496 + m) / 4503599627370496 - 1 = s + 1 := by omega
      rw [hmod, hdiv, htop, Nat.pow_succ]
      ring
    · have hmod : 4503599627370496 + (s * 4503599627370496 + m) % 4503599627370496 = m := by omega
      have hdiv : (s * 4503599627370496 + m) / 4503599627370496 - 1 = s := by omega
      rw [hmod, hdiv]

/-- Every rank is made of an exponent and a significand. -/
theorem exists_significand (r : Nat) :
    ∃ s m, r = s * binade + m ∧ m < 2 * binade ∧ (s = 0 ∨ binade ≤ m) := by
  have hb : binade = 4503599627370496 := by decide
  refine ⟨r / binade - 1, r - (r / binade - 1) * binade, ?_⟩
  rw [hb]
  omega

/-- How far the size of a rank is from the next one. -/
def gap (r : Nat) : Nat := 2 ^ (r / binade - 1)

theorem gap_mul_add {s m : Nat} (hm : m < 2 * binade) (h : s = 0 ∨ binade ≤ m) :
    gap (s * binade + m) = 2 ^ s := by
  have hb : binade = 4503599627370496 := by decide
  have hs : (s * binade + m) / binade - 1 = s := by
    rw [hb] at hm h ⊢
    omega
  rw [gap, hs]

theorem gap_pos (r : Nat) : 0 < gap r := Nat.two_pow_pos _

theorem quanta_succ (r : Nat) : quanta (r + 1) = quanta r + gap r := by
  obtain ⟨s, m, rfl, hm, h⟩ := exists_significand r
  have h' : s = 0 ∨ binade ≤ m + 1 := h.imp_right Nat.le_succ_of_le
  rw [Nat.add_assoc, quanta_mul_add hm h', quanta_mul_add (Nat.le_of_lt hm) h, gap_mul_add hm h,
    Nat.succ_mul]

/-- The size above is a step of the exponent away, or more where the significand was rounded up to
the next binade. -/
theorem le_gap {s m : Nat} (hm : m ≤ 2 * binade) (h : s = 0 ∨ binade ≤ m) :
    2 ^ s ≤ gap (s * binade + m) := by
  rcases Nat.lt_or_eq_of_le hm with hlt | rfl
  · exact Nat.le_of_eq (gap_mul_add hlt h).symm
  · rw [show s * binade + 2 * binade = (s + 1) * binade + binade by ring,
      gap_mul_add (by decide) (.inr (Nat.le_refl _))]
    exact Nat.pow_le_pow_right (by decide) (Nat.le_succ s)

theorem quanta_strictMono : StrictMono quanta := by
  refine strictMono_nat_of_lt_succ fun r => ?_
  rw [quanta_succ]
  exact Nat.lt_add_of_pos_right (gap_pos r)

/-- Within a binade, the size below is as far away as the size above. -/
theorem quanta_pred {s m : Nat} (hm : m ≤ 2 * binade) (h : s = 0 ∧ 0 < m ∨ binade < m) :
    quanta (s * binade + m - 1) + 2 ^ s = quanta (s * binade + m) := by
  have hpos : 0 < m := by omega
  have hpred : s * binade + m - 1 = s * binade + (m - 1) := Nat.add_sub_assoc hpos _
  rw [hpred, quanta_mul_add (by omega) (by omega), quanta_mul_add (by omega) (by omega),
    ← Nat.succ_mul, Nat.succ_eq_add_one, Nat.sub_add_cancel hpos]

theorem gap_mono : Monotone gap := fun _ _ h =>
  Nat.pow_le_pow_right (by decide) (Nat.sub_le_sub_right (Nat.div_le_div_right h) 1)

/-- The size below is at most as far away as the size above. -/
theorem quanta_le_pred_add_gap (r : Nat) : quanta r ≤ quanta (r - 1) + gap r := by
  rcases Nat.eq_zero_or_pos r with rfl | hr
  · exact Nat.le_add_right _ _
  · have hpred : quanta r = quanta (r - 1) + gap (r - 1) := by
      rw [← quanta_succ, Nat.sub_add_cancel hr]
    rw [hpred]
    exact Nat.add_le_add_left (gap_mono (Nat.sub_le r 1)) _

/-- The size below is as far away as the size above, unless a binade starts there: then the size
is a power of two. -/
theorem gap_symm_or_pow {r : Nat} (hr : 0 < r) :
    quanta (r - 1) + gap r = quanta r ∨ ∃ s, gap r = 2 ^ s ∧ quanta r = 2 ^ (52 + s) := by
  obtain ⟨s, m, rfl, hm, h⟩ := exists_significand r
  rw [gap_mul_add hm h]
  by_cases hstart : s = 0 ∧ 0 < m ∨ binade < m
  · exact .inl (quanta_pred (Nat.le_of_lt hm) hstart)
  · have hm_eq : m = binade := by
      rcases h with rfl | h
      · omega
      · omega
    subst hm_eq
    refine .inr ⟨s, rfl, ?_⟩
    rw [quanta_mul_add (Nat.le_of_lt hm) h, binade_eq, Nat.pow_add]

/-! ## Rounding to a rank -/

/-- The size `num / den` lies between the midpoints to the sizes next to that of a rank, and
strictly between them if the rank is odd. -/
structure RoundsTo (num den r : Nat) : Prop where
  low : (quanta (r - 1) + quanta r) * den ≤ 2 * num
  high : 2 * num ≤ (quanta r + quanta (r + 1)) * den
  odd : r % 2 = 1 →
    (quanta (r - 1) + quanta r) * den < 2 * num ∧ 2 * num < (quanta r + quanta (r + 1)) * den

/-- Two ranks do not share a size, for of two ranks next to each other one is odd. -/
theorem RoundsTo.not_lt {num den r r' : Nat} (hd : 0 < den) (h : RoundsTo num den r)
    (h' : RoundsTo num den r') : ¬ r < r' := by
  intro hlt
  have hr : quanta r ≤ quanta (r' - 1) := quanta_strictMono.monotone (by omega)
  have hr' : quanta (r + 1) ≤ quanta r' := quanta_strictMono.monotone hlt
  have hmid : (quanta r + quanta (r + 1)) * den ≤ (quanta (r' - 1) + quanta r') * den :=
    Nat.mul_le_mul_right den (Nat.add_le_add hr hr')
  have hlow := h'.low
  have hhigh := h.high
  by_cases hnext : r' = r + 1
  · rcases Nat.mod_two_eq_zero_or_one r with he | ho
    · have := (h'.odd (by omega)).1
      omega
    · have := (h.odd ho).2
      omega
  · have hstrict : quanta (r + 1) < quanta r' := quanta_strictMono (by omega)
    have : (quanta r + quanta (r + 1)) * den < (quanta (r' - 1) + quanta r') * den :=
      Nat.mul_lt_mul_of_pos_right (Nat.add_lt_add_of_le_of_lt hr hstrict) hd
    omega

theorem RoundsTo.unique {num den r r' : Nat} (hd : 0 < den) (h : RoundsTo num den r)
    (h' : RoundsTo num den r') : r = r' :=
  Nat.le_antisymm (Nat.not_lt.1 (h'.not_lt hd h)) (Nat.not_lt.1 (h.not_lt hd h'))

/-- No rank is nearer to a size than the one that it rounds to. -/
theorem RoundsTo.nearest {num den r : Nat} (h : RoundsTo num den r) (r' : Nat) :
    (num - quanta r * den) + (quanta r * den - num) ≤
      (num - quanta r' * den) + (quanta r' * den - num) := by
  obtain ⟨hlow, hhigh, -⟩ := h
  rw [Nat.add_mul] at hlow hhigh
  have hmono {a b : Nat} (hab : a ≤ b) : quanta a * den ≤ quanta b * den :=
    Nat.mul_le_mul_right den (quanta_strictMono.monotone hab)
  rcases Nat.lt_trichotomy r' r with hlt | rfl | hgt
  · have hless := hmono (Nat.le_of_lt hlt)
    have hpred := hmono (Nat.le_sub_one_of_lt hlt)
    omega
  · exact Nat.le_refl _
  · have hless := hmono (Nat.le_of_lt hgt)
    have hsucc := hmono (Nat.add_one_le_of_lt hgt)
    omega

/-- The floor of a size against the exponent that rounding takes for it. -/
theorem floor_bounds (q : Nat) :
    q < 2 * binade * 2 ^ (q.log2 - 52) ∧ (q.log2 - 52 = 0 ∨ binade * 2 ^ (q.log2 - 52) ≤ q) := by
  rw [binade_eq]
  have hlt : q < 2 ^ (q.log2 + 1) := Nat.lt_log2_self
  by_cases hlog : q.log2 ≤ 52
  · have hs : q.log2 - 52 = 0 := by omega
    refine ⟨Nat.lt_of_lt_of_le hlt ?_, .inl hs⟩
    rw [hs, Nat.pow_zero, Nat.mul_one, ← Nat.pow_succ']
    exact Nat.pow_le_pow_right (by decide) (by omega)
  · have hq : q ≠ 0 := by
      rintro rfl
      exact hlog (by decide)
    refine ⟨?_, .inr ?_⟩
    · rw [← Nat.pow_succ', ← Nat.pow_add]
      rwa [show Nat.succ 52 + (q.log2 - 52) = q.log2 + 1 by omega]
    · rw [← Nat.pow_add, show 52 + (q.log2 - 52) = q.log2 by omega]
      exact Nat.log2_self_le hq

/-- The rank that a size rounds to, made of an exponent and a significand. The significand is the
size rounded in steps of the exponent. -/
theorem exists_nearestRank (num : Nat) {den : Nat} (hd : 0 < den) :
    ∃ s m, nearestRank num den = s * binade + m ∧ divRound num (den * 2 ^ s) = m ∧
      m ≤ 2 * binade ∧ (s = 0 ∨ binade ≤ m ∧ binade * (den * 2 ^ s) ≤ num) := by
  obtain ⟨hfloor, hexp⟩ := floor_bounds (num / den)
  refine ⟨(num / den).log2 - 52, _, nearestRank_eq num den, ?_⟩
  generalize (num / den).log2 - 52 = s at hfloor hexp
  rw [Nat.shiftLeft_eq]
  have hstep : 0 < den * 2 ^ s := Nat.mul_pos hd (Nat.two_pow_pos s)
  have htop : num ≤ 2 * binade * (den * 2 ^ s) := by
    calc num ≤ 2 * binade * 2 ^ s * den := Nat.le_of_lt ((Nat.div_lt_iff_lt_mul hd).1 hfloor)
      _ = 2 * binade * (den * 2 ^ s) := by ring
  refine ⟨rfl, divRound_le hstep htop, hexp.imp_right fun h => ?_⟩
  have hbottom : binade * (den * 2 ^ s) ≤ num := by
    calc binade * (den * 2 ^ s) = binade * 2 ^ s * den := by ring
      _ ≤ num := (Nat.le_div_iff_mul_le hd).1 h
  exact ⟨le_divRound hstep hbottom, hbottom⟩

/-- Where the sizes next to that of a rank are equally far away, nearer sizes round to it too. -/
theorem RoundsTo.of_nearer {num num' den r : Nat}
    (hsymm : r = 0 ∨ quanta (r - 1) + gap r = quanta r) (h : RoundsTo num den r)
    (hnear : (num' - quanta r * den) + (quanta r * den - num') ≤
      (num - quanta r * den) + (quanta r * den - num)) : RoundsTo num' den r := by
  obtain ⟨hlow, hhigh, hodd⟩ := h
  have habove : quanta (r + 1) * den = quanta r * den + gap r * den := by
    rw [quanta_succ, Nat.add_mul]
  rw [Nat.add_mul] at hlow hhigh hodd
  rw [habove] at hhigh
  rcases hsymm with hzero | hsymm
  · have hsize : quanta r * den = 0 := by
      rw [hzero, show quanta 0 = 0 by decide, Nat.zero_mul]
    have hbelow : quanta (r - 1) * den ≤ quanta r * den :=
      Nat.mul_le_mul_right den (quanta_strictMono.monotone (Nat.sub_le r 1))
    refine ⟨?_, ?_, fun ho => by omega⟩ <;> rw [Nat.add_mul]
    · omega
    · rw [habove]
      omega
  · have hbelow : quanta (r - 1) * den + gap r * den = quanta r * den := by
      rw [← Nat.add_mul, hsymm]
    refine ⟨?_, ?_, fun ho => ?_⟩ <;> rw [Nat.add_mul]
    · omega
    · rw [habove]
      omega
    · have := hodd ho
      rw [Nat.add_mul, habove] at this ⊢
      omega

/-- A size rounded in steps rounds to the rank of the rounded size, where the size above is a step
away or more, and the one below as well, or nothing was rounded up to an even rank. -/
theorem RoundsTo.of_divRound {num den step r m : Nat} (hstep : 0 < step)
    (hm : divRound num step = m) (hsize : quanta r * den = m * step) (hparity : r % 2 = m % 2)
    (habove : m * step + step ≤ quanta (r + 1) * den)
    (hbelow : quanta (r - 1) * den + step ≤ m * step ∨ r % 2 = 0 ∧ m * step ≤ num) :
    RoundsTo num den r := by
  obtain ⟨hlo, hhi, hodd⟩ := divRound_bounds num hstep
  rw [hm] at hlo hhi hodd
  have hpred : quanta (r - 1) * den ≤ m * step := by
    rw [← hsize]
    exact Nat.mul_le_mul_right den (quanta_strictMono.monotone (Nat.sub_le r 1))
  constructor
  · rw [Nat.add_mul, hsize]
    omega
  · rw [Nat.add_mul, hsize]
    omega
  · intro ho
    have := hodd (hparity ▸ ho)
    rw [Nat.add_mul, Nat.add_mul, hsize]
    omega

theorem roundsTo_nearestRank (num : Nat) {den : Nat} (hd : 0 < den) :
    RoundsTo num den (nearestRank num den) := by
  obtain ⟨s, m, hr, hm, hle, hge⟩ := exists_nearestRank num hd
  have hexp : s = 0 ∨ binade ≤ m := hge.imp_right And.left
  have hb : binade = 4503599627370496 := by decide
  have hstep : 0 < den * 2 ^ s := Nat.mul_pos hd (Nat.two_pow_pos s)
  have hsize : quanta (s * binade + m) * den = m * (den * 2 ^ s) := by
    rw [quanta_mul_add hle hexp]
    ring
  have hparity : (s * binade + m) % 2 = m % 2 := by
    rw [hb]
    omega
  have habove : m * (den * 2 ^ s) + den * 2 ^ s ≤ quanta (s * binade + m + 1) * den := by
    rw [quanta_succ, Nat.add_mul, hsize, Nat.mul_comm den (2 ^ s)]
    exact Nat.add_le_add_left (Nat.mul_le_mul_right den (le_gap hle hexp)) _
  rw [hr]
  apply RoundsTo.of_divRound hstep hm hsize hparity habove
  by_cases hstart : s = 0 ∧ 0 < m ∨ binade < m
  · left
    rw [← hsize, ← quanta_pred hle hstart, Nat.add_mul, Nat.mul_comm den (2 ^ s)]
  · -- at the start of a binade nothing was rounded up
    right
    constructor
    · rw [hparity]
      omega
    · rcases hge with rfl | ⟨hbm, hnum⟩
      · obtain rfl : m = 0 := by omega
        rw [Nat.zero_mul]
        exact Nat.zero_le num
      · obtain rfl : m = binade := by omega
        exact hnum

/-- A size rounds to a rank exactly if it lies between the midpoints around it. -/
theorem nearestRank_eq_iff {num den r : Nat} (hd : 0 < den) :
    nearestRank num den = r ↔ RoundsTo num den r := by
  constructor
  · rintro rfl
    exact roundsTo_nearestRank num hd
  · intro h
    exact (roundsTo_nearestRank num hd).unique hd h

/-! ## Order -/

theorem nearestRank_le {num den r : Nat} (hd : 0 < den) (h : num ≤ quanta r * den) :
    nearestRank num den ≤ r := by
  have hr := (roundsTo_nearestRank num hd).low
  by_contra hgt
  have hpred : quanta r ≤ quanta (nearestRank num den - 1) :=
    quanta_strictMono.monotone (by omega)
  have hlt : quanta r < quanta (nearestRank num den) := quanta_strictMono (Nat.not_le.1 hgt)
  have hmul : (quanta r + quanta r) * den <
      (quanta (nearestRank num den - 1) + quanta (nearestRank num den)) * den :=
    Nat.mul_lt_mul_of_pos_right (Nat.add_lt_add_of_le_of_lt hpred hlt) hd
  rw [Nat.add_mul (quanta r)] at hmul
  omega

/-- Equal sizes round to the same rank, whatever the unit they are counted in. -/
theorem nearestRank_mul_right (num : Nat) {den k : Nat} (hd : 0 < den) (hk : 0 < k) :
    nearestRank (num * k) (den * k) = nearestRank num den := by
  rw [nearestRank_eq_iff (Nat.mul_pos hd hk)]
  obtain ⟨hlow, hhigh, hodd⟩ := roundsTo_nearestRank num hd
  constructor
  · rw [← Nat.mul_assoc, ← Nat.mul_assoc]
    exact Nat.mul_le_mul_right k hlow
  · rw [← Nat.mul_assoc, ← Nat.mul_assoc]
    exact Nat.mul_le_mul_right k hhigh
  · intro ho
    obtain ⟨hlow', hhigh'⟩ := hodd ho
    constructor
    · rw [← Nat.mul_assoc, ← Nat.mul_assoc]
      exact Nat.mul_lt_mul_of_pos_right hlow' hk
    · rw [← Nat.mul_assoc, ← Nat.mul_assoc]
      exact Nat.mul_lt_mul_of_pos_right hhigh' hk

end Double

end SumProduct
