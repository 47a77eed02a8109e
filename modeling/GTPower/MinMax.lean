import Mathlib.Algebra.Order.Group.Abs
import Mathlib.Algebra.Order.Ring.Rat
import Mathlib.Tactic.Linarith

/-! Early and late analysis, and the comparisons of delays for each. Delays are exact numbers. -/
namespace GTPower

inductive MinMax where
  | min
  | max
  deriving DecidableEq, Repr

section Fuzzy

/-- Equal up to a tolerance, which is relative unless one number is 0. -/
def fuzzyEqual (v1 v2 : ℚ) : Bool :=
  if v1 = v2 then true
  else if v1 = 0 then |v2| < 1 / 10 ^ 15
  else if v2 = 0 then |v1| < 1 / 10 ^ 15
  else |v1 - v2| < 1 / 10 ^ 6 * max |v1| |v2|

def fuzzyGreater (v1 v2 : ℚ) : Bool := v2 < v1 && !fuzzyEqual v1 v2

def fuzzyLess (v1 v2 : ℚ) : Bool := v1 < v2 && !fuzzyEqual v1 v2

def delayEqual (delay1 delay2 : ℚ) : Bool := fuzzyEqual delay1 delay2

theorem fuzzyEqual_self (v : ℚ) : fuzzyEqual v v = true := if_pos rfl

theorem fuzzyEqual_comm (v1 v2 : ℚ) : fuzzyEqual v1 v2 = fuzzyEqual v2 v1 := by
  unfold fuzzyEqual
  rw [abs_sub_comm,max_comm]
  by_cases same : v1 = v2
  · rw [same]
  · rw [if_neg same,if_neg (Ne.symm same)]
    by_cases zero1 : v1 = 0 <;> by_cases zero2 : v2 = 0 <;> simp_all

theorem not_fuzzyEqual_of_between {low mid high : ℚ} (less : low < mid) (less' : mid < high)
    (apart : fuzzyEqual mid low = false) (apart' : fuzzyEqual high mid = false) : fuzzyEqual high low = false := by
  unfold fuzzyEqual at apart apart' ⊢
  rw [if_neg less.ne'] at apart
  rw [if_neg less'.ne'] at apart'
  rw [if_neg (less.trans less').ne']
  rcases lt_trichotomy high 0 with negative | rfl | positive
  · have midNegative := less'.trans negative
    have lowNegative := less.trans midNegative
    rw [if_neg midNegative.ne,if_neg lowNegative.ne,abs_of_neg midNegative,abs_of_neg lowNegative,
      abs_of_pos (sub_pos.mpr less),
      max_eq_right (by linarith),decide_eq_false_iff_not] at apart
    rw [if_neg negative.ne,if_neg lowNegative.ne,abs_of_neg negative,abs_of_neg lowNegative,
      abs_of_pos (sub_pos.mpr (less.trans less')),
      max_eq_right (by linarith),decide_eq_false_iff_not]
    linarith
  · have lowNegative := less.trans less'
    rw [if_pos rfl,abs_of_neg less',decide_eq_false_iff_not] at apart'
    rw [if_pos rfl,abs_of_neg lowNegative,decide_eq_false_iff_not]
    linarith
  · rw [if_neg positive.ne',abs_of_pos positive]
    rcases lt_trichotomy low 0 with negative | rfl | lowPositive
    · rw [if_neg negative.ne,abs_of_neg negative,abs_of_pos (by linarith),decide_eq_false_iff_not,not_lt]
      rcases le_total high (-low) with order | order
      · rw [max_eq_right order]
        linarith
      · rw [max_eq_left order]
        linarith
    · rw [if_neg less.ne',if_pos rfl,abs_of_pos less,decide_eq_false_iff_not] at apart
      rw [if_pos rfl,decide_eq_false_iff_not]
      linarith
    · have midPositive := lowPositive.trans less
      rw [if_neg positive.ne',if_neg midPositive.ne',abs_of_pos positive,abs_of_pos midPositive,
        abs_of_pos (sub_pos.mpr less'),
        max_eq_left less'.le,decide_eq_false_iff_not] at apart'
      rw [if_neg lowPositive.ne',abs_of_pos lowPositive,abs_of_pos (sub_pos.mpr (less.trans less')),
        max_eq_left (less.trans less').le,
        decide_eq_false_iff_not]
      linarith

end Fuzzy

namespace MinMax

def initValue : MinMax → ℚ
  | .min => 10 ^ 30
  | .max => -10 ^ 30

/-- Worse for late paths is later and for early ones earlier. -/
def delayGreater (delay1 delay2 : ℚ) : MinMax → Bool
  | .max => fuzzyGreater delay1 delay2
  | .min => fuzzyLess delay1 delay2

/-- The same without a tolerance. -/
def exactDelayGreater (delay1 delay2 : ℚ) : MinMax → Bool
  | .max => delay2 < delay1
  | .min => delay1 < delay2

theorem delayGreater_eq_exact {delay1 delay2 : ℚ} (apart : delayEqual delay1 delay2 = true → delay1 = delay2)
    (minMax : MinMax) :
    delayGreater delay1 delay2 minMax = exactDelayGreater delay1 delay2 minMax := by
  have differ : delay1 ≠ delay2 → fuzzyEqual delay1 delay2 = false := fun ne => Bool.eq_false_iff.mpr fun same =>
    ne (apart same)
  cases minMax with
  | max =>
    by_cases greater : delay2 < delay1
    · simp [delayGreater,exactDelayGreater,fuzzyGreater,greater,differ greater.ne']
    · simp [delayGreater,exactDelayGreater,fuzzyGreater,greater]
  | min =>
    by_cases less : delay1 < delay2
    · simp [delayGreater,exactDelayGreater,fuzzyLess,less,differ less.ne]
    · simp [delayGreater,exactDelayGreater,fuzzyLess,less]

/-- Without a tolerance. -/
def delayGreaterEqual (delay1 delay2 : ℚ) : MinMax → Bool
  | .max => delay2 ≤ delay1
  | .min => delay1 ≤ delay2

end MinMax
end GTPower
