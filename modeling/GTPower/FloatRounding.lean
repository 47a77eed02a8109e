import Mathlib.Data.Int.Log
import Mathlib.Data.Rat.Floor
import Mathlib.Algebra.Order.Field.Rat
import Mathlib.Tactic

/-! Rounding of a rational to a binary floating point number: to nearest, ties to even, with a number of significant
bits and no bound on the exponent. -/
namespace FloatRounding

section Integers

/-- The nearest integer, the even one of two. -/
def roundEven (x : ℚ) : ℤ :=
  if x - ⌊x⌋ < 1 / 2 then ⌊x⌋
  else if 1 / 2 < x - ⌊x⌋ then ⌊x⌋ + 1
  else if ⌊x⌋ % 2 = 0 then ⌊x⌋ else ⌊x⌋ + 1

theorem floor_le_roundEven (x : ℚ) : ⌊x⌋ ≤ roundEven x := by
  unfold roundEven
  split_ifs <;> omega

theorem roundEven_le (x : ℚ) : roundEven x ≤ ⌊x⌋ + 1 := by
  unfold roundEven
  split_ifs <;> omega

@[simp] theorem roundEven_intCast (n : ℤ) : roundEven n = n := by
  have none : (n : ℚ) - ⌊(n : ℚ)⌋ < 1 / 2 := by rw [Int.floor_intCast,sub_self]; norm_num
  rw [roundEven,if_pos none,Int.floor_intCast]

theorem roundEven_mono (order : x ≤ y) : roundEven x ≤ roundEven y := by
  rcases lt_or_eq_of_le (Int.floor_mono order) with less | same
  · have := roundEven_le x
    have := floor_le_roundEven y
    omega
  · -- the same two neighbours, and the part above the lower one does not shrink
    have part : x - ⌊x⌋ ≤ y - ⌊x⌋ := by linarith
    unfold roundEven
    rw [← same]
    split_ifs <;> first | omega | linarith

end Integers

section Precision
variable (precision : ℕ)

/-- Distance of the numbers with so many bits around a number. -/
def ulp (x : ℚ) : ℚ := 2 ^ (Int.log 2 |x| + 1 - precision)

def roundTo (x : ℚ) : ℚ := roundEven (x / ulp precision x) * ulp precision x

theorem ulp_pos (x : ℚ) : 0 < ulp precision x := zpow_pos (by norm_num) _

@[simp] theorem roundTo_zero : roundTo precision 0 = 0 := by
  have zero : roundEven 0 = 0 := by exact_mod_cast roundEven_intCast 0
  rw [roundTo,zero_div,zero,Int.cast_zero,zero_mul]

variable {precision}

/-- A positive number is between two powers of two, and is rounded to something between them. -/
theorem roundTo_between (bits : 0 < precision) (positive : 0 < x) :
    2 ^ Int.log 2 x ≤ roundTo precision x ∧ roundTo precision x ≤ 2 ^ (Int.log 2 x + 1) := by
  have unit := ulp_pos precision x
  have low := Int.zpow_log_le_self (b := 2) (by norm_num) positive
  have high := Int.lt_zpow_succ_log_self (b := 2) (by norm_num) x
  push_cast at low high
  have lower : (((2 : ℤ) ^ (precision - 1) : ℤ) : ℚ) * ulp precision x = 2 ^ Int.log 2 x := by
    rw [ulp,abs_of_pos positive,Int.cast_pow,Int.cast_ofNat,← zpow_natCast,← zpow_add₀ (by norm_num)]
    congr 1
    omega
  have upper : (((2 : ℤ) ^ precision : ℤ) : ℚ) * ulp precision x = 2 ^ (Int.log 2 x + 1) := by
    rw [ulp,abs_of_pos positive,Int.cast_pow,Int.cast_ofNat,← zpow_natCast,← zpow_add₀ (by norm_num)]
    congr 1
    omega
  have below : (((2 : ℤ) ^ (precision - 1) : ℤ) : ℚ) ≤ x / ulp precision x := by
    rw [le_div_iff₀ unit,lower]
    exact low
  have above : x / ulp precision x ≤ (((2 : ℤ) ^ precision : ℤ) : ℚ) := by
    rw [div_le_iff₀ unit,upper]
    exact le_of_lt high
  rw [← lower,← upper]
  have least := roundEven_mono below
  have most := roundEven_mono above
  rw [roundEven_intCast] at least most
  exact ⟨mul_le_mul_of_nonneg_right (by exact_mod_cast least) (le_of_lt unit),
    mul_le_mul_of_nonneg_right (by exact_mod_cast most) (le_of_lt unit)⟩

theorem roundTo_pos (bits : 0 < precision) (positive : 0 < x) : 0 < roundTo precision x :=
  lt_of_lt_of_le (zpow_pos (by norm_num) _) (roundTo_between bits positive).1

theorem roundTo_mono (bits : 0 < precision) (nonneg : 0 ≤ x) (order : x ≤ y) :
    roundTo precision x ≤ roundTo precision y := by
  rcases nonneg.eq_or_lt with rfl | positive
  · rcases order.eq_or_lt with rfl | above
    · exact le_refl _
    · rw [roundTo_zero]
      exact le_of_lt (roundTo_pos bits above)
  have positive' := lt_of_lt_of_le positive order
  rcases lt_or_eq_of_le (Int.log_mono_right (b := 2) positive order) with less | same
  · calc roundTo precision x ≤ 2 ^ (Int.log 2 x + 1) := (roundTo_between bits positive).2
      _ ≤ 2 ^ Int.log 2 y := zpow_le_zpow_right₀ (by norm_num) less
      _ ≤ roundTo precision y := (roundTo_between bits positive').1
  · have unit : ulp precision x = ulp precision y := by rw [ulp,ulp,abs_of_pos positive,abs_of_pos positive',same]
    rw [roundTo,roundTo,unit]
    refine mul_le_mul_of_nonneg_right (Int.cast_le.mpr (roundEven_mono ?_)) (le_of_lt (ulp_pos _ _))
    exact div_le_div_of_nonneg_right order (le_of_lt (ulp_pos _ _))

end Precision

/-- A number in single and in double precision. -/
def single (x : ℚ) : ℚ := roundTo 24 x

def double (x : ℚ) : ℚ := roundTo 53 x

example : single (10 ^ 7 + 1 / 3) = 10 ^ 7 := by decide +kernel

end FloatRounding
