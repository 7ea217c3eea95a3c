import Mathlib.Algebra.Order.Field.Power
import Mathlib.Data.Rat.Cast.Order
import Mathlib.Tactic.FieldSimp
import Mathlib.Tactic.Linarith
import Mathlib.Tactic.NormNum
import Mathlib.Tactic.Positivity
import Mathlib.Tactic.Ring
import ProcessGraph.Number.Binary64

/-!
# Which decimals are infinite

A decimal is rounded to infinity exactly from half a unit above the greatest finite double on
(`isFinite_ofDecimal`), and never to a NaN.

The quotient to be rounded is scaled so that the integer next to it has 53 bits, or fewer if the
double is subnormal. Only in the highest binade does it matter how it is rounded: there the even
mantissa `2 ^ 53` carries into the exponent of the infinities.
-/

set_option autoImplicit false

namespace ProcessGraph.Binary64

/-! ## Rounding to integers -/

section
variable {a b m : Nat}

/-- The quotient is rounded down, or up by one. -/
theorem divideToEven_bounds (a b : Nat) : a / b ≤ divideToEven a b ∧
    divideToEven a b ≤ a / b + 1 := by
  unfold divideToEven
  grind

/-- Below an even number, the quotient is rounded up to it from half a unit on. -/
theorem divideToEven_lt_iff (hb : 0 < b) (even : m % 2 = 0) :
    divideToEven a b < m ↔ 2 * a + b < 2 * (m * b) := by
  obtain ⟨q, r, hr, rfl⟩ : ∃ q r, r < b ∧ a = q * b + r :=
    ⟨a / b, a % b, Nat.mod_lt a hb, (Nat.div_add_mod' a b).symm⟩
  have hq : (q * b + r) / b = q := by
    rw [Nat.add_comm, Nat.add_mul_div_right _ _ hb, Nat.div_eq_of_lt hr, Nat.zero_add]
  have hm : (q * b + r) % b = r := by
    rw [Nat.add_comm, Nat.add_mul_mod_self_right, Nat.mod_eq_of_lt hr]
  have near := divideToEven_bounds (q * b + r) b
  rw [hq] at near
  rcases Nat.lt_trichotomy m (q + 1) with below | rfl | above
  · have := Nat.mul_le_mul_right b (Nat.le_of_lt_succ below)
    exact iff_of_false (by omega) (by omega)
  · -- the number below is odd, so that a tie is rounded up
    simp only [divideToEven, hq, hm, Nat.succ_mul]
    split
    · omega
    · split <;> omega
  · have := Nat.mul_le_mul_right b above
    simp only [Nat.succ_mul] at this
    exact iff_of_true (by omega) (by omega)

end

/-! ## Powers of two -/

theorem scaleByTwo_pos {b : Nat} (a : Nat) (hb : 0 < b) (e : Int) : 0 < (scaleByTwo a b e).2 := by
  unfold scaleByTwo
  split
  · exact hb
  · simpa [Nat.shiftLeft_eq] using hb

theorem scaleByTwo_eq (a b : Nat) (e : Int) :
    ((scaleByTwo a b e).1 : ℚ) / (scaleByTwo a b e).2 = a / b * 2 ^ e := by
  unfold scaleByTwo
  split
  · rename_i he
    obtain ⟨k, rfl⟩ := Int.eq_ofNat_of_zero_le he
    simp [Nat.shiftLeft_eq, div_mul_eq_mul_div]
  · rename_i he
    obtain ⟨k, hk⟩ := Int.eq_ofNat_of_zero_le (a := -e) (by omega)
    obtain rfl : e = -(k : Int) := by omega
    simp [Nat.shiftLeft_eq, div_eq_mul_inv]
    ring

/-- A positive number lies between the powers of two of its logarithm. -/
theorem log2_spec {n : Nat} (hn : 0 < n) : (2 : ℚ) ^ (n.log2 : Int) ≤ n ∧
    (n : ℚ) < 2 ^ ((n.log2 : Int) + 1) := by
  have lower := Nat.log2_self_le (Nat.ne_of_gt hn)
  have upper := Nat.lt_log2_self (n := n)
  rw [← Nat.cast_succ, zpow_natCast, zpow_natCast]
  exact ⟨by exact_mod_cast lower, by exact_mod_cast upper⟩

/-- A quotient lies between the powers of two of its logarithm. -/
theorem floorLog2_spec {a b : Nat} (ha : 0 < a) (hb : 0 < b) :
    (2 : ℚ) ^ floorLog2 a b ≤ a / b ∧ (a / b : ℚ) < 2 ^ (floorLog2 a b + 1) := by
  have hb' : (0 : ℚ) < b := by exact_mod_cast hb
  obtain ⟨la, ua⟩ := log2_spec ha
  obtain ⟨lb, ub⟩ := log2_spec hb
  have two : (2 : ℚ) ≠ 0 := two_ne_zero
  have lower : (2 : ℚ) ^ ((a.log2 : Int) - b.log2 - 1) ≤ a / b := by
    rw [le_div_iff₀ hb']
    calc (2 : ℚ) ^ ((a.log2 : Int) - b.log2 - 1) * b
        ≤ 2 ^ ((a.log2 : Int) - b.log2 - 1) * 2 ^ ((b.log2 : Int) + 1) := by gcongr
      _ = 2 ^ (a.log2 : Int) := by rw [← zpow_add₀ two]; congr 1; omega
      _ ≤ a := la
  have upper : (a / b : ℚ) < 2 ^ ((a.log2 : Int) - b.log2 + 1) := by
    rw [div_lt_iff₀ hb']
    calc (a : ℚ) < 2 ^ ((a.log2 : Int) + 1) := ua
      _ = 2 ^ ((a.log2 : Int) - b.log2 + 1) * 2 ^ (b.log2 : Int) := by
        rw [← zpow_add₀ two]; congr 1; omega
      _ ≤ 2 ^ ((a.log2 : Int) - b.log2 + 1) * b := by gcongr
  -- the comparison decides on which side of the power in between the quotient is
  have scaled := scaleByTwo_eq a b (-((a.log2 : Int) - b.log2))
  have positive : (0 : ℚ) < (scaleByTwo a b (-((a.log2 : Int) - b.log2))).2 := by
    exact_mod_cast scaleByTwo_pos a hb _
  have compare : (scaleByTwo a b (-((a.log2 : Int) - b.log2))).2 ≤
      (scaleByTwo a b (-((a.log2 : Int) - b.log2))).1 ↔
      (2 : ℚ) ^ ((a.log2 : Int) - b.log2) ≤ a / b := by
    rw [← Nat.cast_le (α := ℚ), ← one_le_div positive, scaled, zpow_neg, ← div_eq_mul_inv,
      one_le_div (by positivity)]
  unfold floorLog2
  dsimp only
  split
  · rename_i le
    exact ⟨compare.1 le, upper⟩
  · rename_i lt
    rw [Int.sub_add_cancel]
    exact ⟨lower, not_le.1 (mt compare.2 lt)⟩

/-! ## Overflow -/

/-- The least number that is rounded to infinity, half a unit above the greatest finite double. -/
def overflow : ℚ := 2 ^ 1024 - 2 ^ 970

theorem overflow_eq : overflow = (2 ^ 54 - 1) * 2 ^ 970 := by
  rw [overflow, sub_mul, ← pow_add, one_mul]

theorem two_pow_lt_overflow : (2 : ℚ) ^ (1023 : Int) < overflow := by
  have unit : (0 : ℚ) < 2 ^ 970 := by positivity
  have power : (2 : ℚ) ^ (1023 : Int) = 2 ^ 53 * 2 ^ 970 := by
    rw [← pow_add]
    exact zpow_ofNat 2 1023
  rw [overflow_eq, power]
  exact mul_lt_mul_of_pos_right (by norm_num) unit

theorem overflow_lt_two_pow : overflow < (2 : ℚ) ^ (1024 : Int) := by
  have unit : (0 : ℚ) < 2 ^ 970 := by positivity
  exact sub_lt_self _ unit

section
variable (a : Nat) {b : Nat} (hb : 0 < b)
include hb

/-- The quotient in units of a power of two, rounded down. -/
theorem scaled_lt_iff (q : Int) (k : Nat) :
    (scaleByTwo a b (-q)).1 / (scaleByTwo a b (-q)).2 < 2 ^ k ↔ (a / b : ℚ) < 2 ^ (q + k) := by
  have positive := scaleByTwo_pos a hb (-q)
  have scaled := scaleByTwo_eq a b (-q)
  generalize scaleByTwo a b (-q) = p at positive scaled ⊢
  have hd : (0 : ℚ) < p.2 := by exact_mod_cast positive
  have power : (2 : ℚ) ^ (q + k) = ((2 ^ k : Nat) : ℚ) * 2 ^ q := by
    rw [zpow_add₀ two_ne_zero, mul_comm, zpow_natCast, Nat.cast_pow, Nat.cast_ofNat]
  have value : (a / b : ℚ) = p.1 / p.2 * 2 ^ q := by
    rw [scaled, mul_assoc, ← zpow_add₀ two_ne_zero, neg_add_cancel, zpow_zero, mul_one]
  rw [Nat.div_lt_iff_lt_mul positive, value, power, mul_lt_mul_iff_left₀ (by positivity),
    div_lt_iff₀ hd]
  exact_mod_cast Iff.rfl

/-- In the highest binade, the bound lies half a unit below the next power of two. -/
theorem divideToEven_scaled_lt_iff :
    divideToEven (scaleByTwo a b (-971)).1 (scaleByTwo a b (-971)).2 < 2 * unitBit ↔
      (a / b : ℚ) < overflow := by
  have positive := scaleByTwo_pos a hb (-971)
  have scaled := scaleByTwo_eq a b (-971)
  generalize scaleByTwo a b (-971) = p at positive scaled ⊢
  have hd : (0 : ℚ) < p.2 := by exact_mod_cast positive
  have value : (a / b : ℚ) = p.1 / p.2 * 2 ^ 971 := by
    have cancel : ((2 : ℚ) ^ (971 : Int))⁻¹ * 2 ^ 971 = 1 := inv_mul_cancel₀ (by positivity)
    rw [scaled, zpow_neg, mul_assoc, cancel, mul_one]
  have bound : overflow = (2 * unitBit - 1 / 2) * 2 ^ 971 := by
    have bits : (unitBit : ℚ) = 2 ^ 52 := by norm_num [unitBit]
    have half : (2 : ℚ) ^ 971 = 2 * 2 ^ 970 := pow_succ' 2 970
    rw [overflow_eq, half, bits]
    generalize (2 : ℚ) ^ 970 = unit
    ring
  rw [divideToEven_lt_iff positive (Nat.mul_mod_right 2 unitBit), value, bound,
    mul_lt_mul_iff_left₀ (by positivity), div_lt_iff₀ hd]
  generalize unitBit = u
  have cast : 2 * p.1 + p.2 < 2 * (2 * u * p.2) ↔ (2 * p.1 + p.2 : ℚ) < 2 * (2 * u * p.2) := by
    exact_mod_cast Iff.rfl
  rw [cast]
  constructor <;> intro h <;> linarith

/-- A quotient is rounded to a finite double exactly below the bound. -/
theorem magnitudeOfRatio_lt_iff :
    magnitudeOfRatio a b < infiniteMagnitude ↔ (a / b : ℚ) < overflow := by
  unfold magnitudeOfRatio
  split
  · rename_i ha
    subst ha
    have positive : 0 < overflow := lt_trans (by positivity) two_pow_lt_overflow
    exact iff_of_true (by decide) (by simpa using positive)
  rename_i ha
  obtain ⟨lower, upper⟩ := floorLog2_spec (Nat.pos_of_ne_zero ha) hb
  generalize floorLog2 a b = f at lower upper ⊢
  dsimp only
  generalize hq : max (f - 52) (-1074) = q
  have bounds := divideToEven_bounds (scaleByTwo a b (-q)).1 (scaleByTwo a b (-q)).2
  have carry : 2 ^ 53 = 2 * unitBit := rfl
  have bit : 2 ^ 52 = unitBit := rfl
  unfold infiniteMagnitude
  rcases lt_trichotomy f 1023 with small | rfl | large
  · -- the mantissa has at most 53 bits, or is the power of two behind them
    have mantissa := (scaled_lt_iff a hb q 53).2
      (upper.trans_le (zpow_le_zpow_right₀ (by norm_num) (by omega)))
    have exponent : (q + 1074).toNat * unitBit ≤ 2044 * unitBit :=
      Nat.mul_le_mul_right unitBit (by omega)
    refine iff_of_true (by omega) ?_
    calc (a / b : ℚ) < 2 ^ (f + 1) := upper
      _ ≤ 2 ^ (1023 : Int) := zpow_le_zpow_right₀ (by norm_num) (by omega)
      _ < overflow := two_pow_lt_overflow
  · obtain rfl : q = 971 := by omega
    have exponent : (971 + 1074 : Int).toNat = 2045 := by decide
    rw [← divideToEven_scaled_lt_iff a hb, exponent]
    omega
  · have mantissa := mt (scaled_lt_iff a hb q 52).1 (not_lt.2 (le_trans
      (zpow_le_zpow_right₀ (by norm_num) (by omega)) lower))
    have exponent : 2046 * unitBit ≤ (q + 1074).toNat * unitBit :=
      Nat.mul_le_mul_right unitBit (by omega)
    refine iff_of_false (by omega) (not_lt.2 ?_)
    calc overflow ≤ 2 ^ (1024 : Int) := overflow_lt_two_pow.le
      _ ≤ 2 ^ f := zpow_le_zpow_right₀ (by norm_num) (by omega)
      _ ≤ a / b := lower

end

/-! ## Decimals -/

/-- A positive number lies between the powers of ten of its digits. -/
theorem digitCount_spec {n : Nat} (hn : 0 < n) : (10 : ℚ) ^ ((digitCount n : Int) - 1) ≤ n ∧
    (n : ℚ) < 10 ^ (digitCount n : Int) := by
  have positive : 0 < digitCount n := Nat.length_toDigits_pos
  have count {k : Nat} (hk : 0 < k) : digitCount n ≤ k ↔ n < 10 ^ k :=
    Nat.length_toDigits_le_iff (by decide) hk
  refine ⟨?_, by exact_mod_cast (count positive).1 (Nat.le_refl _)⟩
  obtain ⟨k, hk⟩ := Nat.exists_eq_add_one_of_ne_zero (Nat.ne_of_gt positive)
  have before : (digitCount n : Int) - 1 = k := by omega
  rw [before, zpow_natCast]
  rcases Nat.eq_zero_or_pos k with rfl | more
  · exact_mod_cast hn
  · have above := mt (count more).2 (by omega)
    exact_mod_cast Nat.le_of_not_lt above

theorem magnitudeOfDecimal_le (n : Nat) (e : Int) :
    magnitudeOfDecimal n e ≤ infiniteMagnitude := by
  have ratio (a b : Nat) : magnitudeOfRatio a b ≤ infiniteMagnitude := by
    unfold magnitudeOfRatio
    split
    · exact Nat.zero_le _
    · exact Nat.min_le_right _ _
  unfold magnitudeOfDecimal
  grind

/-- The bounds at which the powers of ten are not computed are far from the greatest double. -/
theorem overflow_lt_ten_pow : overflow < (10 : ℚ) ^ (310 : Int) := by
  refine lt_of_lt_of_le overflow_lt_two_pow ?_
  rw [zpow_ofNat, zpow_ofNat]
  exact_mod_cast (by decide +kernel : 2 ^ 1024 ≤ 10 ^ 310)

theorem magnitudeOfDecimal_lt_iff (n : Nat) (e : Int) :
    magnitudeOfDecimal n e < infiniteMagnitude ↔ (n : ℚ) * 10 ^ e < overflow := by
  have positive : 0 < overflow := lt_trans (by positivity) two_pow_lt_overflow
  unfold magnitudeOfDecimal
  split
  · rename_i hn
    subst hn
    exact iff_of_true (by decide) (by simpa using positive)
  rename_i hn
  obtain ⟨lower, upper⟩ := digitCount_spec (Nat.pos_of_ne_zero hn)
  have ten : (10 : ℚ) ≠ 0 := by norm_num
  split
  · refine iff_of_false (Nat.lt_irrefl _) (not_lt.2 ?_)
    calc overflow ≤ 10 ^ (310 : Int) := overflow_lt_ten_pow.le
      _ ≤ 10 ^ ((digitCount n : Int) - 1 + e) := zpow_le_zpow_right₀ (by norm_num) (by omega)
      _ = 10 ^ ((digitCount n : Int) - 1) * 10 ^ e := zpow_add₀ ten _ _
      _ ≤ n * 10 ^ e := by gcongr
  split
  · refine iff_of_true (by decide) ?_
    calc (n : ℚ) * 10 ^ e ≤ 10 ^ (digitCount n : Int) * 10 ^ e := by gcongr
      _ = 10 ^ ((digitCount n : Int) + e) := (zpow_add₀ ten _ _).symm
      _ ≤ 10 ^ (0 : Int) := zpow_le_zpow_right₀ (by norm_num) (by omega)
      _ = 2 ^ (0 : Int) := by norm_num
      _ ≤ 2 ^ (1023 : Int) := zpow_le_zpow_right₀ (by norm_num) (by norm_num)
      _ < overflow := two_pow_lt_overflow
  split
  · rename_i he
    obtain ⟨k, rfl⟩ := Int.eq_ofNat_of_zero_le he
    rw [magnitudeOfRatio_lt_iff _ Nat.one_pos]
    simp
  · obtain ⟨k, hk⟩ := Int.eq_ofNat_of_zero_le (a := -e) (by omega)
    obtain rfl : e = -(k : Int) := by omega
    have power : 0 < Nat.pow 10 (- -(k : Int)).toNat := Nat.pow_pos (by decide)
    rw [magnitudeOfRatio_lt_iff _ power]
    simp [div_eq_mul_inv]

/-! ## Signs -/

section
variable (negative : Bool) {m : Nat} (hm : m < signBit)
include hm

theorem bits_ofMagnitude : (ofMagnitude negative m).bits.toNat =
    (if negative then signBit else 0) + m := by
  have fits : (if negative then signBit else 0) + m < 2 ^ 64 := by
    have : signBit + signBit = 2 ^ 64 := by decide
    split <;> omega
  simp only [ofMagnitude, Nat.mod_eq_of_lt hm, UInt64.toNat_ofNat', Nat.mod_eq_of_lt fits]

theorem magnitude_ofMagnitude : (ofMagnitude negative m).magnitude = m := by
  rw [magnitude, bits_ofMagnitude negative hm]
  split
  · rw [Nat.add_mod_left, Nat.mod_eq_of_lt hm]
  · rw [Nat.zero_add, Nat.mod_eq_of_lt hm]

theorem isNegative_ofMagnitude : (ofMagnitude negative m).isNegative = negative := by
  rw [isNegative, bits_ofMagnitude negative hm]
  cases negative <;> simp [hm]

end

theorem magnitude_lt (x : Binary64) : x.magnitude < signBit := Nat.mod_lt _ (by decide)

/-- A double is its sign and its magnitude. -/
theorem ofMagnitude_magnitude (x : Binary64) : ofMagnitude x.isNegative x.magnitude = x := by
  obtain ⟨bits⟩ := x
  have fits : bits.toNat < signBit + signBit := bits.toNat_lt
  have parts : (if signBit ≤ bits.toNat then signBit else 0) + bits.toNat % signBit =
      bits.toNat := by
    split
    · rename_i le
      rw [Nat.mod_eq_sub_mod le, Nat.mod_eq_of_lt (by omega)]
      omega
    · rename_i lt
      rw [Nat.zero_add, Nat.mod_eq_of_lt (Nat.lt_of_not_le lt)]
  simp only [ofMagnitude, isNegative, magnitude, Nat.mod_mod, decide_eq_true_eq, parts,
    UInt64.ofNat_toNat]

@[simp] theorem magnitude_neg (x : Binary64) : x.neg.magnitude = x.magnitude :=
  magnitude_ofMagnitude _ x.magnitude_lt

@[simp] theorem neg_neg (x : Binary64) : x.neg.neg = x := by
  have other : x.neg.isNegative = !x.isNegative := isNegative_ofMagnitude _ x.magnitude_lt
  rw [neg, other, magnitude_neg, Bool.not_not, ofMagnitude_magnitude]

@[simp] theorem isFinite_neg (x : Binary64) : x.neg.isFinite = x.isFinite := by simp [isFinite]

@[simp] theorem isNaN_neg (x : Binary64) : x.neg.isNaN = x.isNaN := by simp [isNaN]

/-! ## Rounded decimals -/

theorem magnitude_ofDecimal (n : Nat) (e : Int) :
    (ofDecimal n e).magnitude = magnitudeOfDecimal n e :=
  magnitude_ofMagnitude _ (Nat.lt_of_le_of_lt (magnitudeOfDecimal_le n e) (by decide))

/-- A decimal is rounded to a finite double exactly below the bound. -/
theorem isFinite_ofDecimal (n : Nat) (e : Int) :
    (ofDecimal n e).isFinite ↔ (n : ℚ) * 10 ^ e < overflow := by
  rw [isFinite, magnitude_ofDecimal, decide_eq_true_iff, magnitudeOfDecimal_lt_iff]

theorem isNaN_ofDecimal (n : Nat) (e : Int) : (ofDecimal n e).isNaN = false := by
  rw [isNaN, magnitude_ofDecimal, decide_eq_false_iff_not]
  exact Nat.not_lt.2 (magnitudeOfDecimal_le n e)

end ProcessGraph.Binary64
