import GraphQLCompiler.Number.Binary64
import Mathlib

/-!
# Decimals that are too large

A decimal number has a nearest floating point number unless it is too large. The greatest floating
point number is `(2 ^ 53 - 1) * 2 ^ 971`, and the next power of two is `2 ^ 1024`. Halfway between
the two the even neighbour would be the power of two, which is none. So a decimal is too large if
and only if its absolute value is at least `2 ^ 1024 - 2 ^ 970` (`Binary64.ofDecimal?_eq_none_iff`).

The nearest number is found by scaling with a power of two until the integer part has 53 bits, and
rounding. The power of two is characterised once, by the quotients for which it reaches a bound
(`Binary64.le_exponentFor_iff`), and rounding likewise by the quotients that reach an even integer
(`le_divRound_iff`). A quotient is then too large if its power of two is beyond the range, or is
the last one of the range and rounding reaches `2 ^ 53`.
-/

namespace GraphQLCompiler

variable {num den n : Nat}

/-! ### Rounding -/

/-- **Rounding reaches an even integer** from half below it on. -/
theorem le_divRound_iff (pos : 0 < den) (nPos : 0 < n) (even : n % 2 = 0) :
    n ≤ divRound num den ↔ (2 * n - 1) * den ≤ 2 * num := by
  obtain ⟨m, rfl⟩ : ∃ m, n = m + 1 := ⟨n - 1, by omega⟩
  have parts : num = den * (num / den) + num % den := (Nat.div_add_mod num den).symm
  have small : num % den < den := Nat.mod_lt num pos
  unfold divRound
  dsimp only
  generalize num / den = q at parts ⊢
  generalize num % den = r at parts small ⊢
  rw [show 2 * (m + 1) - 1 = 2 * m + 1 by omega, parts]
  rcases Nat.lt_trichotomy q m with lt | rfl | lt
  · obtain ⟨k, rfl⟩ : ∃ k, m = q + 1 + k := ⟨m - q - 1, by omega⟩
    refine iff_of_false ?_ ?_
    · split_ifs <;> omega
    · nlinarith [Nat.zero_le (den * k)]
  · have double : (2 * q + 1) * den = 2 * (den * q) + den := by ring
    rw [double]
    split_ifs <;> omega
  · obtain ⟨k, rfl⟩ : ∃ k, q = m + 1 + k := ⟨q - m - 1, by omega⟩
    refine iff_of_true ?_ ?_
    · split_ifs <;> omega
    · nlinarith [Nat.zero_le (den * k)]

/-- Rounding does not pass an integer. -/
theorem divRound_le (pos : 0 < den) (le : num ≤ n * den) : divRound num den ≤ n := by
  have quotient : num / den ≤ n := Nat.div_le_of_le_mul (by rwa [Nat.mul_comm])
  unfold divRound
  dsimp only
  rcases Nat.lt_or_eq_of_le quotient with lt | eq
  · split_ifs <;> omega
  · have rest : num % den = 0 := by
      have parts := Nat.div_add_mod num den
      rw [eq, Nat.mul_comm] at parts
      omega
    simp [rest, eq, pos]

/-! ### Powers of two -/

theorem twoPow_add (m n : Nat) : twoPow (m + n) = twoPow m * twoPow n := Nat.pow_add 2 m n

theorem twoPow_pos (n : Nat) : 0 < twoPow n := Nat.two_pow_pos n

theorem twoPow_le_twoPow {m n : Nat} (le : m ≤ n) : twoPow m ≤ twoPow n :=
  Nat.pow_le_pow_right (by decide) le

namespace Binary64

/-! ### Exponents -/

/-- **The exponent of a quotient** reaches a bound if the integer part of the quotient has so many
bits more than 53. -/
theorem le_exponentFor_iff (numPos : num ≠ 0) (denPos : den ≠ 0) (k : Nat) :
    (k : Int) ≤ exponentFor num den ↔ den * twoPow (k + 52) ≤ num := by
  have numLow : twoPow num.log2 ≤ num := Nat.log2_self_le numPos
  have numHigh : num < twoPow (num.log2 + 1) := Nat.lt_log2_self
  have denLow : twoPow den.log2 ≤ den := Nat.log2_self_le denPos
  have denHigh : den < twoPow (den.log2 + 1) := Nat.lt_log2_self
  simp only [exponentFor, ge_iff_le]
  generalize num.log2 = a at *
  generalize den.log2 = b at *
  -- a power of two times the denominator that has more bits than the numerator is above it
  have above : ∀ j, a < b + j → num < den * twoPow j := fun j lt => calc
    num < twoPow (a + 1) := numHigh
    _ ≤ twoPow (b + j) := twoPow_le_twoPow lt
    _ = twoPow b * twoPow j := twoPow_add b j
    _ ≤ den * twoPow j := Nat.mul_le_mul_right _ denLow
  -- and one that has fewer bits is below it
  have below : ∀ j, b + j < a → den * twoPow j ≤ num := fun j lt => calc
    den * twoPow j ≤ twoPow (b + 1) * twoPow j := Nat.mul_le_mul_right _ denHigh.le
    _ = twoPow (b + 1 + j) := (twoPow_add (b + 1) j).symm
    _ ≤ twoPow a := twoPow_le_twoPow (by omega)
    _ ≤ num := numLow
  rcases Nat.lt_or_ge a b with lt | ge
  · have few := above (k + 52) (by omega)
    refine iff_of_false ?_ (by omega)
    split_ifs <;> omega
  · obtain ⟨g, rfl⟩ : ∃ g, a = b + g := ⟨a - b, by omega⟩
    have guess : ((b + g : Nat) : Int) - b = g := by omega
    have one : twoPow 0 = 1 := rfl
    simp only [guess, show (-(g : Int)).toNat = 0 by omega, Int.toNat_natCast, one, Nat.mul_one]
    rcases Nat.lt_trichotomy (k + 52) g with lt | eq | gt
    · have reaches := below (k + 52) (by omega)
      refine iff_of_true ?_ reaches
      split_ifs <;> omega
    · rw [eq]
      split_ifs <;> omega
    · have fails := above (k + 52) (by omega)
      refine iff_of_false ?_ (by omega)
      split_ifs <;> omega

/-! ### Quotients -/

/-- A quotient has no nearest number if its exponent is beyond the range, or is the last one and
rounding reaches the next power of two. -/
private theorem ofQuotient?_eq_none_iff_exponentFor (negative : Bool) :
    ofQuotient? negative num den = none ↔ 971 < exponentFor num den ∨
      exponentFor num den = 971 ∧ divRound num (den * twoPow 971) = twoPow 53 := by
  unfold ofQuotient?
  generalize exponentFor num den = exponent
  extract_lets e m
  have last : exponent = 971 → m = divRound num (den * twoPow 971) := by
    rintro rfl
    have one : twoPow 0 = 1 := rfl
    rw [show m = divRound (num * twoPow 0) (den * twoPow 971) from rfl, one, Nat.mul_one]
  have range : maxExponent < e ↔ 971 < exponent := by
    simp only [e, minExponent, maxExponent]
    omega
  by_cases carry : m = twoPow 53
  · have carried : maxExponent < e + 1 ↔ 971 < exponent ∨ exponent = 971 := by
      simp only [e, minExponent, maxExponent]
      omega
    rw [if_pos carry]
    simp only [ite_eq_left_iff, reduceCtorEq, imp_false, not_not, gt_iff_lt, carried]
    exact or_congr_right ⟨fun eq => ⟨eq, last eq ▸ carry⟩, And.left⟩
  · rw [if_neg carry]
    simp only [ite_eq_left_iff, reduceCtorEq, imp_false, not_not, gt_iff_lt]
    refine range.trans (or_iff_left ?_).symm
    rintro ⟨eq, reached⟩
    exact carry ((last eq).trans reached)

/-- A quotient is too large from halfway between the greatest number and the next power of two
on. -/
theorem ofQuotient?_eq_none_iff (negative : Bool) (numPos : num ≠ 0) (denPos : den ≠ 0) :
    ofQuotient? negative num den = none ↔ (twoPow 54 - 1) * twoPow 970 * den ≤ num := by
  obtain ⟨unit, unitEq⟩ : ∃ unit, unit = den * twoPow 970 := ⟨_, rfl⟩
  have scaled : ∀ k, den * twoPow (970 + k) = twoPow k * unit := fun k => by
    rw [unitEq, twoPow_add, Nat.mul_comm (twoPow k), Nat.mul_assoc]
  have threshold : (twoPow 54 - 1) * twoPow 970 * den = (twoPow 54 - 1) * unit := by
    rw [unitEq, Nat.mul_assoc, Nat.mul_comm den]
  have pos : 0 < twoPow 1 * unit :=
    scaled 1 ▸ Nat.mul_pos (Nat.pos_of_ne_zero denPos) (twoPow_pos _)
  have reaches971 : 971 ≤ exponentFor num den ↔ twoPow 53 * unit ≤ num :=
    scaled 53 ▸ le_exponentFor_iff numPos denPos 971
  have reaches972 : 972 ≤ exponentFor num den ↔ twoPow 54 * unit ≤ num :=
    scaled 54 ▸ le_exponentFor_iff numPos denPos 972
  have rounds := @le_divRound_iff num _ _ pos (twoPow_pos 53) (by decide)
  have bounded := @divRound_le num _ (twoPow 53) pos
  rw [ofQuotient?_eq_none_iff_exponentFor, show twoPow 971 = twoPow (970 + 1) from rfl, scaled,
    threshold]
  generalize divRound num (twoPow 1 * unit) = m at rounds bounded ⊢
  generalize exponentFor num den = e at reaches971 reaches972 ⊢
  rw [show twoPow 53 = 9007199254740992 from rfl] at reaches971 rounds bounded ⊢
  rw [show twoPow 54 = 18014398509481984 from rfl] at reaches972 ⊢
  rw [show twoPow 1 = 2 from rfl] at rounds bounded
  omega

end Binary64

/-! ### Decimals -/

namespace Decimal

/-- The **absolute value** of a decimal number. -/
def abs (d : Decimal) : ℚ := d.coefficient * 10 ^ d.exponent

/-- The power of ten that the digits of a number do not reach. -/
theorem abs_lt (d : Decimal) :
    d.abs < 10 ^ ((Nat.toDigits 10 d.coefficient).length + d.exponent) := by
  have digits : d.coefficient < 10 ^ (Nat.toDigits 10 d.coefficient).length :=
    (Nat.length_toDigits_le_iff (by decide) Nat.length_toDigits_pos).1 (Nat.le_refl _)
  rw [abs, zpow_add₀ (by norm_num), zpow_natCast]
  exact mul_lt_mul_of_pos_right (by exact_mod_cast digits) (by positivity)

/-- The power of ten that the digits of a number reach. -/
theorem le_abs (d : Decimal) (nonzero : d.coefficient ≠ 0) :
    10 ^ ((Nat.toDigits 10 d.coefficient).length - 1 + d.exponent) ≤ d.abs := by
  obtain ⟨n, length⟩ : ∃ n, (Nat.toDigits 10 d.coefficient).length = n + 1 :=
    Nat.exists_eq_succ_of_ne_zero Nat.length_toDigits_pos.ne'
  have digits : 10 ^ n ≤ d.coefficient := by
    rcases Nat.eq_zero_or_pos n with rfl | pos
    · exact Nat.pos_of_ne_zero nonzero
    · refine Nat.le_of_not_lt fun lt => ?_
      have short := (Nat.length_toDigits_le_iff (by decide) pos).2 lt
      omega
  rw [abs, length, Nat.cast_add_one, add_sub_cancel_right, zpow_add₀ (by norm_num), zpow_natCast]
  exact mul_le_mul_of_nonneg_right (by exact_mod_cast digits) (by positivity)

/-- A number as a quotient of integers. -/
theorem abs_eq_div (d : Decimal) : d.abs =
    (d.coefficient * tenPow d.exponent.toNat : ℕ) / (tenPow (-d.exponent).toNat : ℕ) := by
  simp only [abs, tenPow, Nat.pow_eq, Nat.cast_mul, Nat.cast_pow, Nat.cast_ofNat]
  rcases Int.le_total 0 d.exponent with le | le
  · obtain ⟨n, eq⟩ := Int.eq_ofNat_of_zero_le le
    simp [eq]
  · obtain ⟨n, eq⟩ := Int.eq_ofNat_of_zero_le (Int.neg_nonneg_of_nonpos le)
    have exponent : d.exponent = -n := by omega
    simp [exponent, div_eq_mul_inv]

end Decimal

namespace Binary64

/-- The least absolute value that has no nearest floating point number. -/
def overflowBound : ℚ := 2 ^ 1024 - 2 ^ 970

theorem overflowBound_eq : overflowBound = ((twoPow 54 - 1) * twoPow 970 : ℕ) := by
  have split : (2 : ℚ) ^ 1024 = 2 ^ 54 * 2 ^ 970 := pow_add 2 54 970
  have cast : ∀ n, ((twoPow n : ℕ) : ℚ) = 2 ^ n := fun n => by
    rw [twoPow, Nat.pow_eq, Nat.cast_pow, Nat.cast_ofNat]
  have ones : ((twoPow 54 - 1 : ℕ) : ℚ) = 2 ^ 54 - 1 := by norm_num [twoPow]
  rw [overflowBound, split, Nat.cast_mul, cast, ones, sub_mul, one_mul]

/-- **A decimal is too large** if it is at least halfway between the greatest floating point number
and the next power of two. -/
theorem ofDecimal?_eq_none_iff (d : Decimal) :
    ofDecimal? d = none ↔ overflowBound ≤ d.abs := by
  have one : 1 ≤ overflowBound := by
    rw [overflowBound_eq]
    exact_mod_cast Nat.mul_pos (by decide) (twoPow_pos 970)
  have digits : overflowBound ≤ 10 ^ magnitudeLimit := calc
    overflowBound ≤ 2 ^ 1024 := sub_le_self _ (by positivity)
    _ ≤ 2 ^ 1026 := pow_le_pow_right₀ (by norm_num) (by norm_num)
    _ = (2 ^ 3) ^ 342 := pow_mul 2 3 342
    _ ≤ 10 ^ 342 := pow_le_pow_left₀ (by norm_num) (by norm_num) 342
    _ ≤ 10 ^ 400 := pow_le_pow_right₀ (by norm_num) (by norm_num)
    _ = 10 ^ magnitudeLimit := (zpow_natCast 10 400).symm
  unfold ofDecimal?
  extract_lets magnitude
  by_cases small : d.coefficient = 0 ∨ magnitude < -magnitudeLimit
  · rw [if_pos small]
    refine iff_of_false (Option.some_ne_none _) (not_le.2 ?_)
    rcases small with zero | small
    · rw [Decimal.abs, zero, Nat.cast_zero, zero_mul]
      exact zero_lt_one.trans_le one
    · have limit : 0 ≤ magnitudeLimit := by decide
      exact (d.abs_lt.trans_le (zpow_le_one_of_nonpos₀ (by norm_num) (by omega))).trans_le one
  rw [if_neg small]
  have nonzero : d.coefficient ≠ 0 := fun zero => small (.inl zero)
  by_cases large : magnitude > magnitudeLimit
  · rw [if_pos large]
    refine iff_of_true rfl (digits.trans (le_trans ?_ (d.le_abs nonzero)))
    exact zpow_le_zpow_right₀ (by norm_num) (by omega)
  · have ten : ∀ n, tenPow n ≠ 0 := fun n => (Nat.pow_pos (by decide)).ne'
    rw [if_neg large, ofQuotient?_eq_none_iff _ (Nat.mul_ne_zero nonzero (ten _)) (ten _),
      d.abs_eq_div, overflowBound_eq, le_div_iff₀ (by exact_mod_cast Nat.pos_of_ne_zero (ten _))]
    exact_mod_cast Iff.rfl

end Binary64

end GraphQLCompiler
