/-
The doubles that numbers are stored as. Doubles of every class are compared and computed with as the
floating-point standard says: what is not a number is equal to nothing, and the two zeros are equal.
Admission to the numbers and their arithmetic lead to neither, and the arithmetic of the doubles
they do lead to is closed and lawful.
-/
import SumProduct.Proofs.Number.Exact
import SumProduct.Proofs.Number.Rounding
import SumProduct.Proofs.Number.Shortest

namespace SumProduct

namespace Double

/-! ## Comparison -/

/-- The place of a double in the order of values. It is the same for both zeros, and says nothing of
what is not a number. -/
def signedRank (x : Double) : Int := if x.isNegative then -x.rank else x.rank

def equal (x y : Double) : Bool :=
  !x.isUnordered && !y.isUnordered && x.signedRank == y.signedRank

def atMost (x y : Double) : Bool :=
  !x.isUnordered && !y.isUnordered && x.signedRank ≤ y.signedRank

/-- The lesser of two doubles, or the one that is a number. -/
def lesser (x y : Double) : Double :=
  if x.isUnordered then y else if y.isUnordered || x.atMost y then x else y

-- Equality is neither reflexive nor that of the bits.
example : (ofRank false (infinityRank + 1)).equal (ofRank false (infinityRank + 1)) = false ∧
    (ofRank true 0).equal (ofRank false 0) = true ∧ ofRank true 0 ≠ ofRank false 0 := by
  decide

/-! ## Arithmetic -/

def zero : Double := ofRank false 0

/-- The largest finite double. -/
def largest : Double := ofRank false (infinityRank - 1)

/-- What an operation without a value answers. -/
def unordered : Double := ofRank false (infinityRank + binade / 2)

def isInfinite (x : Double) : Bool := x.rank == infinityRank

/-- The size of a finite double in quanta, with its sign. -/
def signedQuanta (x : Double) : Int := if x.isNegative then -quanta x.rank else quanta x.rank

/-- The double nearest to a size, infinity if the size is too large. -/
def nearest (negative : Bool) (num den : Nat) : Double :=
  ofRank negative (min (nearestRank num den) infinityRank)

/-- The sum. Infinities of opposite signs have none, and a sum of zero is negative only if both
operands are. -/
def plus (x y : Double) : Double :=
  if x.isUnordered || y.isUnordered then unordered
  else if x.isInfinite then
    if y.isInfinite && x.isNegative != y.isNegative then unordered else x
  else if y.isInfinite then y
  else
    let total := x.signedQuanta + y.signedQuanta
    if total = 0 then ofRank (x.isNegative && y.isNegative) 0
    else nearest (total < 0) total.natAbs 1

/-- The product. Zero and infinity have none. -/
def times (x y : Double) : Double :=
  let negative := x.isNegative != y.isNegative
  if x.isUnordered || y.isUnordered then unordered
  else if x.isInfinite || y.isInfinite then
    if x.rank == 0 || y.rank == 0 then unordered else ofRank negative infinityRank
  else nearest negative (quanta x.rank * quanta y.rank) quantaPerUnit

end Double

namespace Number

@[simp] theorem isInfinite_toDouble (n : Number) : n.toDouble.isInfinite = false := by
  rw [Double.isInfinite, rank_toDouble, beq_eq_false_iff_ne]
  exact Nat.ne_of_lt n.rank_lt

@[simp] theorem signedRank_toDouble (n : Number) : n.toDouble.signedRank = n.rank := by
  simp [Double.signedRank]

@[simp] theorem signedQuanta_toDouble (n : Number) : n.toDouble.signedQuanta = n.quanta := by
  simp [Double.signedQuanta, quanta]

theorem toDouble_zero : zero.toDouble = Double.zero := rfl

theorem toDouble_max : max.toDouble = Double.largest := rfl

theorem toDouble_injective {a b : Number} (h : a.toDouble = b.toDouble) : a = b := by
  apply Number.ext
  rw [← rank_toDouble a, h, rank_toDouble]

theorem bits_toDouble {a b : Number} : a.toDouble.bits = b.toDouble.bits ↔ a = b := by
  constructor
  · intro h
    exact toDouble_injective (congrArg Double.mk h)
  · rintro rfl
    rfl

/-- Equality of numbers as doubles is equality of the numbers. -/
theorem equal_toDouble {a b : Number} : a.toDouble.equal b.toDouble = true ↔ a = b := by
  simp [Double.equal, Number.ext_iff]

/-! ## Sums and products -/

theorem plus_toDouble (a b : Number) :
    a.toDouble.plus b.toDouble = Double.nearest false (a.quanta + b.quanta) 1 := by
  have htotal : a.toDouble.signedQuanta + b.toDouble.signedQuanta =
      ((a.quanta + b.quanta : Nat) : Int) := by simp
  simp only [Double.plus, isUnordered_toDouble, isInfinite_toDouble, isNegative_toDouble, htotal,
    Bool.or_self, Bool.and_self, Bool.false_eq_true, if_false, Int.natAbs_natCast]
  split
  · rename_i hzero
    rw [Int.natCast_eq_zero.1 hzero]
    decide
  · rw [decide_eq_false (by omega)]

theorem times_toDouble (a b : Number) :
    a.toDouble.times b.toDouble =
      Double.nearest false (a.quanta * b.quanta) Double.quantaPerUnit := by
  simp [Double.times, quanta]

/-- A double without a sign that is a number is at most the largest finite one if it is finite. -/
theorem atMost_largest {x : Double} (hsign : x.isNegative = false)
    (hordered : x.isUnordered = false) : x.atMost .largest = x.isFinite := by
  have hmax : max.rank = Double.infinityRank - 1 := rfl
  have hinf : 0 < Double.infinityRank := by decide
  rw [← toDouble_max, Double.atMost, hordered, isUnordered_toDouble, signedRank_toDouble,
    Double.signedRank, hsign, hmax, Double.isFinite]
  simp only [Bool.not_false, Bool.true_and, Bool.false_eq_true, if_false, decide_eq_decide]
  omega

/-- Cutting off at the largest double is what saturation of the rank does. -/
theorem lesser_nearest_largest (num den : Nat) :
    (Double.nearest false num den).lesser .largest =
      (saturate (Double.nearestRank num den)).toDouble := by
  rw [Double.nearest, toDouble_saturate]
  generalize Double.nearestRank num den = r
  have hrank := Double.rank_ofRank false (Double.min_infinityRank_lt r)
  have hsign := Double.isNegative_ofRank false (Double.min_infinityRank_lt r)
  generalize Double.ofRank false (min r Double.infinityRank) = x at hrank hsign
  have hordered : x.isUnordered = false := by simp [Double.isUnordered, hrank]
  have hlargest : Double.largest.isUnordered = false := isUnordered_toDouble max
  simp only [Double.lesser, hordered, hlargest, atMost_largest hsign hordered, Bool.false_eq_true,
    if_false, Bool.false_or]
  rfl

/-- The sum of two numbers is that of the doubles, cut off at the largest. -/
theorem toDouble_add (a b : Number) :
    (a + b).toDouble = (a.toDouble.plus b.toDouble).lesser .largest := by
  rw [plus_toDouble, lesser_nearest_largest, add_eq]

/-- The product of two numbers is that of the doubles, cut off at the largest. -/
theorem toDouble_mul (a b : Number) :
    (a * b).toDouble = (a.toDouble.times b.toDouble).lesser .largest := by
  rw [times_toDouble, lesser_nearest_largest, mul_eq]

/-- The product as it is computed: a zero is looked for first. -/
theorem toDouble_mul_eq_ite (a b : Number) :
    (a * b).toDouble =
      if a.toDouble.equal .zero || b.toDouble.equal .zero then .zero
      else (a.toDouble.times b.toDouble).lesser .largest := by
  simp only [← toDouble_zero, Bool.or_eq_true, equal_toDouble]
  split
  · rcases ‹_› with rfl | rfl <;> simp
  · exact toDouble_mul a b

/-! ## Admission -/

/-- A finite double without a sign is that of its rank. -/
theorem toDouble_rank {x : Double} (hsign : x.isNegative = false)
    (hfinite : x.rank < Double.infinityRank) : toDouble ⟨x.rank, hfinite⟩ = x := by
  obtain ⟨bits⟩ := x
  have hlt : bits.toNat < Double.signBit := by simpa [Double.isNegative] using hsign
  simp [toDouble, Double.ofRank, Double.rank, Nat.mod_eq_of_lt hlt]

theorem plus_zero (n : Number) : n.toDouble.plus .zero = n.toDouble := by
  have hround := Double.nearestRank_quanta n.rank Nat.one_pos
  rw [Nat.mul_one] at hround
  rw [← toDouble_zero, plus_toDouble, quanta_zero, Nat.add_zero, Double.nearest, quanta, hround,
    Nat.min_eq_left (Nat.le_of_lt n.rank_lt), toDouble]

/-- A double is admitted if it is finite and not below zero; negative zero is not below zero. -/
theorem admitted_iff {x : Double} :
    Double.zero.atMost x = true ∧ x.isFinite = true ↔
      x.rank < Double.infinityRank ∧ (x.isNegative = true → x.rank = 0) := by
  rw [← toDouble_zero, Double.atMost, isUnordered_toDouble, signedRank_toDouble]
  have hzero : zero.rank = 0 := rfl
  cases hsign : x.isNegative <;>
    simp [Double.signedRank, Double.isUnordered, Double.isFinite, hsign, hzero] <;> omega

/-- Adding zero takes the sign from a negative zero. -/
theorem plus_zero_of_admitted {x : Double} (hfinite : x.rank < Double.infinityRank)
    (hsign : x.isNegative = true → x.rank = 0) : x.plus .zero = toDouble ⟨x.rank, hfinite⟩ := by
  cases hneg : x.isNegative
  · have hn := toDouble_rank hneg hfinite
    calc x.plus .zero = (toDouble ⟨x.rank, hfinite⟩).plus .zero := by rw [hn]
      _ = toDouble ⟨x.rank, hfinite⟩ := plus_zero _
  · have hrank : x.rank = 0 := hsign hneg
    have hordered : x.isUnordered = false := by simp [Double.isUnordered, hrank]
    have hsmall : x.isInfinite = false := by
      rw [Double.isInfinite, hrank]
      decide
    have hquanta : x.signedQuanta = 0 := by
      rw [Double.signedQuanta, hrank, show Double.quanta 0 = 0 from quanta_zero]
      simp
    have hn : (⟨x.rank, hfinite⟩ : Number) = zero := Number.ext hrank
    calc x.plus .zero = .ofRank (x.isNegative && false) 0 := by
          rw [← toDouble_zero]
          simp [Double.plus, hordered, hsmall, hquanta]
      _ = toDouble ⟨x.rank, hfinite⟩ := by rw [Bool.and_false, hn, toDouble_zero, Double.zero]

/-- Admission checks the sign and the size, and adds zero. -/
theorem ofDouble_eq_ok_iff {x : Double} {n : Number} :
    ofDouble x = .ok n ↔
      Double.zero.atMost x = true ∧ x.isFinite = true ∧ n.toDouble = x.plus .zero := by
  rw [← and_assoc, admitted_iff]
  constructor
  · intro h
    unfold ofDouble at h
    split_ifs at h with hfinite hsign
    cases h
    have hsign' : x.isNegative = true → x.rank = 0 := by simpa using hsign
    exact ⟨⟨hfinite, hsign'⟩, (plus_zero_of_admitted hfinite hsign').symm⟩
  · rintro ⟨⟨hfinite, hsign⟩, hn⟩
    rw [plus_zero_of_admitted hfinite hsign] at hn
    rw [toDouble_injective hn, ofDouble, dif_pos hfinite, if_neg (by simpa using hsign)]

/-- A double that is finite and not below zero becomes the number of its rank. -/
theorem ofDouble_eq (x : Double) :
    ofDouble x = if h : Double.zero.atMost x = true ∧ x.isFinite = true
      then .ok ⟨x.rank, (admitted_iff.1 h).1⟩ else .error ⟨x⟩ := by
  by_cases h : Double.zero.atMost x = true ∧ x.isFinite = true
  · obtain ⟨hfinite, hsign⟩ := admitted_iff.1 h
    rw [dif_pos h, ofDouble_eq_ok_iff]
    exact ⟨h.1, h.2, (plus_zero_of_admitted hfinite hsign).symm⟩
  · rw [dif_neg h]
    cases hx : ofDouble x with
    | ok n =>
      obtain ⟨hsign, hfinite, -⟩ := ofDouble_eq_ok_iff.1 hx
      exact absurd ⟨hsign, hfinite⟩ h
    | error e =>
      unfold ofDouble at hx
      split_ifs at hx <;> exact hx.symm

end Number

namespace Double

/-- The doubles that a number is stored as: those admitted, and what is computed from stored
ones. -/
inductive Stored : Double → Prop where
  | admitted {x : Double} (hsign : zero.atMost x = true) (hfinite : x.isFinite = true) :
      Stored (x.plus zero)
  | sum {x y : Double} (hx : Stored x) (hy : Stored y) : Stored ((x.plus y).lesser largest)
  | product {x y : Double} (hx : Stored x) (hy : Stored y) :
      Stored (if x.equal zero || y.equal zero then zero else (x.times y).lesser largest)

/-- Numbers are stored, and nothing else is. -/
theorem stored_iff {x : Double} : Stored x ↔ ∃ n : Number, n.toDouble = x := by
  constructor
  · intro h
    induction h with
    | admitted hsign hfinite =>
      obtain ⟨hrank, hzero⟩ := Number.admitted_iff.1 ⟨hsign, hfinite⟩
      exact ⟨⟨_, hrank⟩, (Number.plus_zero_of_admitted hrank hzero).symm⟩
    | sum _ _ ihx ihy =>
      obtain ⟨a, rfl⟩ := ihx
      obtain ⟨b, rfl⟩ := ihy
      exact ⟨a + b, Number.toDouble_add a b⟩
    | product _ _ ihx ihy =>
      obtain ⟨a, rfl⟩ := ihx
      obtain ⟨b, rfl⟩ := ihy
      exact ⟨a * b, Number.toDouble_mul_eq_ite a b⟩
  · rintro ⟨n, rfl⟩
    obtain ⟨hsign, hfinite, hn⟩ := Number.ofDouble_eq_ok_iff.1 (Number.ofDouble_toDouble n)
    rw [hn]
    exact .admitted hsign hfinite

end Double

namespace Number

/-- The arithmetic of numbers is closed and lawful. Numbers are the doubles that admission, sums and
products lead to, and a sum or product is the one of the doubles, cut off at the largest. It is
finite and has no sign, it is the exact one rounded to nearest and even, or the largest number
instead of infinity, and it is the same to the bit in either order, with zero and one neutral and
zero absorbing, and grows with each operand. -/
theorem arithmetic_lawful (a b c : Number) :
    (∀ x : Double, x.Stored ↔ ∃ n : Number, n.toDouble = x) ∧
      (a + b).toDouble = (a.toDouble.plus b.toDouble).lesser .largest ∧
      ((a * b).toDouble =
        if a.toDouble.equal .zero || b.toDouble.equal .zero then .zero
        else (a.toDouble.times b.toDouble).lesser .largest) ∧
      ((a + b).toDouble.isFinite = true ∧ (a + b).toDouble.isNegative = false) ∧
      ((a * b).toDouble.isFinite = true ∧ (a * b).toDouble.isNegative = false) ∧
      Rounds (a.value + b.value) (a + b) ∧ Rounds (a.value * b.value) (a * b) ∧
      (a + zero = a ∧ zero + a = a) ∧ (a * one = a ∧ one * a = a) ∧
      (a * zero = zero ∧ zero * a = zero) ∧ (a + b = b + a ∧ a * b = b * a) ∧
      (a.value ≤ b.value → (a + c).value ≤ (b + c).value ∧ (c + a).value ≤ (c + b).value) ∧
      (a.value ≤ b.value → (a * c).value ≤ (b * c).value ∧ (c * a).value ≤ (c * b).value) := by
  refine ⟨fun _ => Double.stored_iff, toDouble_add a b, toDouble_mul_eq_ite a b,
    ⟨isFinite_toDouble _, isNegative_toDouble _⟩, ⟨isFinite_toDouble _, isNegative_toDouble _⟩,
    rounds_add a b, rounds_mul a b, ⟨add_zero a, zero_add a⟩, ⟨mul_one a, one_mul a⟩,
    ⟨mul_zero a, zero_mul a⟩, ⟨add_comm a b, mul_comm a b⟩, fun h => ⟨value_add_le h c, ?_⟩,
    fun h => ⟨value_mul_le h c, ?_⟩⟩
  · rw [add_comm c a, add_comm c b]
    exact value_add_le h c
  · rw [mul_comm c a, mul_comm c b]
    exact value_mul_le h c

/-- At the upper end sums stop, and still grow with their operands. -/
theorem arithmetic_lawful_max :
    one.value ≤ max.value ∧ (one + max).value ≤ (max + max).value ∧ max + max = max := by
  have hle : one.value ≤ max.value := value_le_iff.2 (by decide)
  obtain ⟨-, -, -, -, -, -, -, -, -, -, -, hadd, -⟩ := arithmetic_lawful one max max
  exact ⟨hle, (hadd hle).1, by decide +kernel⟩

end Number

end SumProduct
