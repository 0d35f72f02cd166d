/-
Numbers as they are written. A numeral has digits, and a point with further digits behind it where
there are any. Decimals are written as numerals, in a fixed count of places or without zeros at the
end, and reading such a numeral gives back the decimal.
-/
import SumProduct.Proofs.Number.Places
import Mathlib.Data.List.TakeWhile

namespace SumProduct

/-- Digits in front of a point and behind it. -/
structure Numeral where
  whole : List Char
  fraction : List Char
  whole_ne_nil : whole ≠ []
  isDigit_whole : ∀ c ∈ whole, c.isDigit = true
  isDigit_fraction : ∀ c ∈ fraction, c.isDigit = true

namespace Decimal

/-! ## Values of digits -/

theorem digitsValue_eq (cs : List Char) : digitsValue cs = Nat.ofDigitChars 10 cs 0 := rfl

theorem digitsValue_append (cs ds : List Char) :
    digitsValue (cs ++ ds) = digitsValue cs * 10 ^ ds.length + digitsValue ds := by
  rw [digitsValue_eq, Nat.ofDigitChars_append, Nat.ofDigitChars_eq_ofDigitChars_zero, Nat.mul_comm]
  rfl

theorem digitsValue_zeros (n : Nat) : digitsValue (List.replicate n '0') = 0 := by
  rw [digitsValue_eq, Nat.ofDigitChars_replicate_zero, Nat.mul_zero]

theorem digitsValue_toString (n : Nat) : digitsValue (toString n).toList = n := by
  rw [digitsValue_eq, Nat.toString_eq_repr, Nat.toList_repr, Nat.ofDigitChars_ten_toDigits]

theorem isDigit_of_mem_toString {n : Nat} {c : Char} (h : c ∈ (toString n).toList) :
    c.isDigit = true := by
  rw [Nat.toString_eq_repr, Nat.toList_repr] at h
  exact Nat.isDigit_of_mem_toDigits (by decide) (by decide) h

theorem isDigit_of_mem_zeros {n : Nat} {c : Char} (h : c ∈ List.replicate n '0') :
    c.isDigit = true := by
  rw [List.eq_of_mem_replicate h]
  decide

theorem toString_ne_nil (n : Nat) : (toString n).toList ≠ [] := by
  rw [Nat.toString_eq_repr, Nat.toList_repr]
  exact Nat.toDigits_ne_nil

theorem length_toString_le {n k : Nat} (hk : 0 < k) (h : n < 10 ^ k) :
    (toString n).toList.length ≤ k := by
  rw [Nat.toString_eq_repr, Nat.toList_repr]
  exact (Nat.length_toDigits_le_iff (by decide) hk).2 h

end Decimal

/-! ## Numerals -/

namespace Numeral

/-- A numeral as it is written, without a point where nothing is behind it. -/
def text (m : Numeral) : String :=
  String.ofList (if m.fraction.isEmpty then m.whole else m.whole ++ '.' :: m.fraction)

/-- The decimal that a numeral stands for. -/
def decimal (m : Numeral) : Decimal :=
  ⟨Decimal.digitsValue (m.whole ++ m.fraction), m.fraction.length⟩

theorem not_isDigit_point : ¬ '.'.isDigit = true := by decide

theorem read_text (m : Numeral) : Decimal.read m.text = m.decimal := by
  unfold text Decimal.read decimal
  rw [String.toList_ofList]
  dsimp only
  split
  · rename_i h
    have htake : m.whole.takeWhile Char.isDigit = m.whole :=
      List.takeWhile_eq_self_iff.2 m.isDigit_whole
    have hdrop : m.whole.dropWhile Char.isDigit = [] :=
      List.dropWhile_eq_nil_iff.2 m.isDigit_whole
    rw [List.isEmpty_iff.1 h, htake, hdrop, List.drop_nil]
  · rw [List.takeWhile_append_of_pos m.isDigit_whole, List.dropWhile_append_of_pos m.isDigit_whole,
      List.takeWhile_cons_of_neg not_isDigit_point, List.dropWhile_cons_of_neg not_isDigit_point,
      List.append_nil, List.drop_one, List.tail_cons]

end Numeral

/-! ## Decimals in a fixed count of places -/

namespace Decimal

/-- The digits behind the point of a decimal, one for each place. -/
def fraction (d : Decimal) : List Char :=
  List.replicate (d.places - (toString (d.digits % 10 ^ d.places)).length) '0' ++
    (toString (d.digits % 10 ^ d.places)).toList

theorem length_fraction {d : Decimal} (h : 0 < d.places) : d.fraction.length = d.places := by
  have hrem : d.digits % 10 ^ d.places < 10 ^ d.places := Nat.mod_lt _ (Nat.pow_pos (by decide))
  have hlen := length_toString_le h hrem
  rw [String.length_toList] at hlen
  rw [fraction, List.length_append, List.length_replicate, String.length_toList]
  omega

theorem digitsValue_fraction (d : Decimal) :
    digitsValue d.fraction = d.digits % 10 ^ d.places := by
  rw [fraction, digitsValue_append, digitsValue_zeros, digitsValue_toString, Nat.zero_mul,
    Nat.zero_add]

theorem isDigit_of_mem_fraction {d : Decimal} {c : Char} (h : c ∈ d.fraction) :
    c.isDigit = true := by
  rcases List.mem_append.1 h with h | h
  · exact isDigit_of_mem_zeros h
  · exact isDigit_of_mem_toString h

/-- The numeral of a decimal, with every place. -/
def numeral (d : Decimal) : Numeral where
  whole := (toString (d.digits / 10 ^ d.places)).toList
  fraction := d.fraction
  whole_ne_nil := toString_ne_nil _
  isDigit_whole _ := isDigit_of_mem_toString
  isDigit_fraction _ := isDigit_of_mem_fraction

theorem text_eq_numeral {d : Decimal} (h : 0 < d.places) : d.text = d.numeral.text := by
  have hne : d.fraction.isEmpty = false := by
    rw [← Bool.not_eq_true, List.isEmpty_iff, ← List.length_eq_zero_iff, length_fraction h]
    omega
  apply String.toList_inj.1
  rw [Numeral.text, show d.numeral.fraction = d.fraction from rfl, hne]
  simp [text, numeral, fraction]

theorem decimal_numeral {d : Decimal} (h : 0 < d.places) : d.numeral.decimal = d := by
  have hdigits : digitsValue (d.numeral.whole ++ d.numeral.fraction) = d.digits := by
    rw [digitsValue_append, numeral, digitsValue_toString, digitsValue_fraction, length_fraction h]
    exact Nat.div_add_mod' _ _
  rw [Numeral.decimal, hdigits, numeral, length_fraction h]

/-- Reading undoes writing. -/
theorem read_text {d : Decimal} (h : 0 < d.places) : read d.text = d := by
  rw [text_eq_numeral h, Numeral.read_text, decimal_numeral h]

end Decimal

/-! ## Decimals without zeros at the end -/

namespace Scientific

/-- Digits without the zeros at their end. -/
def trim (cs : List Char) : List Char := (cs.reverse.dropWhile (· == '0')).reverse

theorem exists_eq_trim_append (cs : List Char) :
    ∃ k, cs = trim cs ++ List.replicate k '0' := by
  refine ⟨(cs.reverse.takeWhile (· == '0')).length, ?_⟩
  have hzeros : cs.reverse.takeWhile (· == '0') =
      List.replicate (cs.reverse.takeWhile (· == '0')).length '0' := by
    refine List.eq_replicate_iff.2 ⟨rfl, fun c hc => ?_⟩
    simpa using List.mem_takeWhile_imp hc
  rw [← List.reverse_replicate, ← hzeros, trim, ← List.reverse_append,
    List.takeWhile_append_dropWhile, List.reverse_reverse]

theorem mem_of_mem_trim {cs : List Char} {c : Char} (h : c ∈ trim cs) : c ∈ cs := by
  obtain ⟨k, hk⟩ := exists_eq_trim_append cs
  rw [hk]
  exact List.mem_append_left _ h

/-- The digits of a decimal and the zeros around them, up to the end of the fraction, with at least
one digit in front of it. -/
def padded (d : Scientific) : List Char :=
  List.replicate ((-d.exponent).toNat + 1 - (toString d.digits).toList.length) '0' ++
    (toString d.digits).toList ++ List.replicate d.exponent.toNat '0'

theorem isDigit_of_mem_padded {d : Scientific} {c : Char} (h : c ∈ d.padded) :
    c.isDigit = true := by
  rcases List.mem_append.1 h with h | h
  · rcases List.mem_append.1 h with h | h
    · exact Decimal.isDigit_of_mem_zeros h
    · exact Decimal.isDigit_of_mem_toString h
  · exact Decimal.isDigit_of_mem_zeros h

theorem digitsValue_padded (d : Scientific) :
    Decimal.digitsValue d.padded = d.digits * 10 ^ d.exponent.toNat := by
  rw [padded, Decimal.digitsValue_append, Decimal.digitsValue_append, Decimal.digitsValue_zeros,
    Decimal.digitsValue_zeros, Decimal.digitsValue_toString, List.length_replicate, Nat.zero_mul,
    Nat.zero_add, Nat.add_zero]

theorem lt_length_padded (d : Scientific) : (-d.exponent).toNat < d.padded.length := by
  rw [padded, List.length_append, List.length_append, List.length_replicate]
  omega

/-- How many digits of a decimal stand in front of the point. -/
def wholeLength (d : Scientific) : Nat := d.padded.length - (-d.exponent).toNat

/-- The numeral of a decimal, without zeros at the end of the fraction. -/
def numeral (d : Scientific) : Numeral where
  whole := d.padded.take d.wholeLength
  fraction := trim (d.padded.drop d.wholeLength)
  whole_ne_nil := by
    have := d.lt_length_padded
    rw [ne_eq, ← List.length_eq_zero_iff, List.length_take, wholeLength]
    omega
  isDigit_whole _ h := isDigit_of_mem_padded (List.mem_of_mem_take h)
  isDigit_fraction _ h := isDigit_of_mem_padded (List.mem_of_mem_drop (mem_of_mem_trim h))

theorem text_eq_numeral (d : Scientific) : d.text = d.numeral.text := by
  by_cases he : 0 ≤ d.exponent
  · have hpad : d.padded =
        (toString d.digits).toList ++ List.replicate d.exponent.toNat '0' := by
      have hpos := List.length_pos_iff.2 (Decimal.toString_ne_nil d.digits)
      rw [padded, show (-d.exponent).toNat + 1 - (toString d.digits).toList.length = 0 by omega,
        List.replicate_zero, List.nil_append]
    have hlength : d.wholeLength = d.padded.length := by
      rw [wholeLength]
      omega
    have hwhole : d.numeral.whole = d.padded := by
      show d.padded.take d.wholeLength = d.padded
      rw [hlength, List.take_length]
    have hfraction : d.numeral.fraction = [] := by
      show trim (d.padded.drop d.wholeLength) = []
      rw [hlength, List.drop_length]
      rfl
    rw [Numeral.text, hfraction, hwhole, hpad, text, if_pos he]
    rfl
  · have hpad : d.padded = List.replicate ((-d.exponent).toNat + 1 -
        (toString d.digits).toList.length) '0' ++ (toString d.digits).toList := by
      rw [padded, show d.exponent.toNat = 0 by omega, List.replicate_zero, List.append_nil]
    rw [text, if_neg he]
    dsimp only
    rw [← hpad]
    rfl

/-- The decimal as a whole number of units in its last place. -/
def decimal (d : Scientific) : Decimal :=
  ⟨d.digits * 10 ^ d.exponent.toNat, (-d.exponent).toNat⟩

/-- The numeral has the value of the decimal, in no more places. -/
theorem exists_decimal_eq (d : Scientific) : ∃ k, d.decimal =
    ⟨d.numeral.decimal.digits * 10 ^ k, d.numeral.decimal.places + k⟩ := by
  obtain ⟨k, hk⟩ := exists_eq_trim_append (d.padded.drop d.wholeLength)
  refine ⟨k, Decimal.mk.injEq .. ▸ ⟨?_, ?_⟩⟩
  · have hpad : d.padded = d.numeral.whole ++ d.numeral.fraction ++ List.replicate k '0' := by
      rw [List.append_assoc, numeral, ← hk, List.take_append_drop]
    rw [← digitsValue_padded, hpad, Decimal.digitsValue_append (_ ++ _), Decimal.digitsValue_zeros,
      List.length_replicate, Nat.add_zero]
    rfl
  · have hlen := congrArg List.length hk
    rw [List.length_drop, List.length_append, List.length_replicate] at hlen
    have hlt := d.lt_length_padded
    have hwhole : d.wholeLength = d.padded.length - (-d.exponent).toNat := rfl
    show (-d.exponent).toNat = (trim (d.padded.drop d.wholeLength)).length + k
    omega

theorem rank_numeral (d : Scientific) : d.numeral.decimal.rank = d.decimal.rank := by
  obtain ⟨k, hk⟩ := d.exists_decimal_eq
  rw [hk, Decimal.rank_of_more_places]

end Scientific

end SumProduct
