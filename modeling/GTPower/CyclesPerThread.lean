import GTPower.Gate
import Mathlib.Algebra.Order.Floor.Ring
import Mathlib.Tactic.Positivity
import Mathlib.Tactic.Linarith
import Mathlib.Tactic.FieldSimp

/-! How many cycles a thread gets when the events of a gate decide. -/
namespace GTPower

/-- Rounding to the nearest integer, half away from zero. -/
def llround (value : ℚ) : Int := if 0 ≤ value then ⌊value + 1 / 2⌋ else ⌈value - 1 / 2⌉

/-- The cycles with which a thread gets the target number of events at the density of the gate, above a density at which
there are as many threads as wanted. Without a cycle there is an error. -/
def setNCyclePerThreadByEventCount (pinWaveformSizes : List Int) (nCycle threadsTarget eTarget : Int) : Option Int :=
  let nEvent := pinWaveformSizes.sum
  if nCycle ≤ 0 ∨ nEvent < 0 then none
  else
    let nCycleTarget := max ((nCycle + threadsTarget - 1).tdiv threadsTarget) 1
    let rho : ℚ := nEvent / nCycle
    let rhoFloor : ℚ := eTarget / nCycleTarget
    let rhoEff := rho + rhoFloor
    let n := llround (eTarget / rhoEff)
    some (max (min n nCycle) 1)

section Rounding

theorem llround_of_nonneg (nonneg : 0 ≤ value) : llround value = ⌊value + 1 / 2⌋ := if_pos nonneg

theorem llround_mono (nonneg : 0 ≤ lower) (order : lower ≤ upper) : llround lower ≤ llround upper := by
  rw [llround_of_nonneg nonneg,llround_of_nonneg (nonneg.trans order)]
  exact Int.floor_le_floor (by linarith)

theorem llround_le (nonneg : 0 ≤ value) : (llround value : ℚ) ≤ value + 1 / 2 := by
  rw [llround_of_nonneg nonneg]
  exact Int.floor_le _

theorem llround_le_of_le {value : ℚ} {bound : Int} (nonneg : 0 ≤ value) (below : value ≤ bound) :
    llround value ≤ bound := by
  have less : (llround value : ℚ) < bound + 1 := by
    have := llround_le nonneg
    linarith
  have less : llround value < bound + 1 := by exact_mod_cast less
  omega

end Rounding

section Target
variable {nCycle threadsTarget eTarget nEvent : Int}

theorem tdiv_eq_ceil (cycles : 1 ≤ nCycle) (threads : 1 ≤ threadsTarget) :
    (nCycle + threadsTarget - 1).tdiv threadsTarget = ⌈(nCycle : ℚ) / threadsTarget⌉ := by
  have positive : (0 : ℚ) < threadsTarget := by exact_mod_cast threads
  rw [Int.tdiv_eq_ediv_of_nonneg (by omega)]
  have low := Int.mul_ediv_self_le (x := nCycle + threadsTarget - 1) (k := threadsTarget) (by omega)
  have high := Int.lt_mul_ediv_self_add (x := nCycle + threadsTarget - 1) (k := threadsTarget) (by omega)
  generalize (nCycle + threadsTarget - 1) / threadsTarget = quotient at low high
  symm
  rw [Int.ceil_eq_iff,lt_div_iff₀ positive,div_le_iff₀ positive]
  have low : threadsTarget * (quotient - 1) < nCycle := by
    rw [Int.mul_sub]
    omega
  have high : nCycle ≤ threadsTarget * quotient := by omega
  constructor
  · rw [mul_comm]
    exact_mod_cast low
  · rw [mul_comm]
    exact_mod_cast high

/-- Events that a thread of the rounded length has, where no clamp raises it. -/
theorem rounded_events (events : (0 : ℚ) ≤ rho) (target : 0 < e) (floor : 0 < rhoFloor) :
    (llround (e / (rho + rhoFloor)) : ℚ) * rho ≤ e + rho / 2 := by
  have eff : 0 < rho + rhoFloor := by linarith
  have nonneg : 0 ≤ e / (rho + rhoFloor) := by positivity
  have share : e / (rho + rhoFloor) * rho ≤ e := by
    rw [div_mul_eq_mul_div,div_le_iff₀ eff]
    have : 0 ≤ e * rhoFloor := by positivity
    linarith
  calc (llround (e / (rho + rhoFloor)) : ℚ) * rho
      ≤ (e / (rho + rhoFloor) + 1 / 2) * rho := mul_le_mul_of_nonneg_right (llround_le nonneg) events
    _ = e / (rho + rhoFloor) * rho + rho / 2 := by ring
    _ ≤ e + rho / 2 := by linarith

/-- The cycles of a thread are at least one and at most all, and leave about as many threads as wanted; more events
never give more cycles, and unless it is one cycle the events of a thread exceed the target by the rounding of half a
cycle at most. -/
theorem nCyclePerThread_spec {pinWaveformSizes : List Int} (cycles : 1 ≤ nCycle) (events : 0 ≤ pinWaveformSizes.sum)
    (threads : 1 ≤ threadsTarget) (target : 1 ≤ eTarget) :
    ∃ n, setNCyclePerThreadByEventCount pinWaveformSizes nCycle threadsTarget eTarget = some n ∧ 1 ≤ n ∧ n ≤ nCycle ∧
      n ≤ max 1 ⌈(nCycle : ℚ) / threadsTarget⌉ ∧
      (∀ moreSizes n', pinWaveformSizes.sum ≤ moreSizes.sum →
        setNCyclePerThreadByEventCount moreSizes nCycle threadsTarget eTarget = some n' → n' ≤ n) ∧
      (n ≠ 1 → (n : ℚ) * pinWaveformSizes.sum / nCycle ≤ eTarget + pinWaveformSizes.sum / (2 * nCycle)) := by
  have ceiling := tdiv_eq_ceil cycles threads
  have positive : 0 < (nCycle : ℚ) := by exact_mod_cast cycles
  have wanted : 0 < (eTarget : ℚ) := by exact_mod_cast target
  let nCycleTarget := max ⌈(nCycle : ℚ) / threadsTarget⌉ 1
  have some : 0 < (nCycleTarget : ℚ) := by exact_mod_cast lt_of_lt_of_le Int.one_pos (le_max_right ..)
  have rhoFloor : 0 < (eTarget : ℚ) / nCycleTarget := div_pos wanted some
  have run : ∀ sizes : List Int, 0 ≤ sizes.sum → setNCyclePerThreadByEventCount sizes nCycle threadsTarget eTarget =
      Option.some (max (min (llround (eTarget / ((sizes.sum : ℚ) / nCycle + eTarget / nCycleTarget))) nCycle) 1) := by
    intro sizes nonneg
    rw [setNCyclePerThreadByEventCount,if_neg (by omega),ceiling]
  refine ⟨_, run pinWaveformSizes events, le_max_right .., ?_, ?_, ?_, ?_⟩
  · omega
  · have bound : llround (eTarget / ((pinWaveformSizes.sum : ℚ) / nCycle + eTarget / nCycleTarget)) ≤ nCycleTarget := by
      have rho : (0 : ℚ) ≤ pinWaveformSizes.sum / nCycle := div_nonneg (by exact_mod_cast events) positive.le
      apply llround_le_of_le (by positivity)
      rw [div_le_iff₀ (by positivity),mul_add,mul_div_cancel₀ _ some.ne']
      have : 0 ≤ (nCycleTarget : ℚ) * (pinWaveformSizes.sum / nCycle) := by positivity
      linarith
    rw [max_comm 1]
    exact max_le ((min_le_left ..).trans bound) (le_max_right ..)
  · intro moreSizes n' more run'
    rw [run moreSizes (events.trans more),Option.some.injEq] at run'
    subst run'
    have rho : (0 : ℚ) ≤ pinWaveformSizes.sum / nCycle := div_nonneg (by exact_mod_cast events) positive.le
    have denser : (pinWaveformSizes.sum : ℚ) / nCycle ≤ moreSizes.sum / nCycle :=
      div_le_div_of_nonneg_right (by exact_mod_cast more) positive.le
    have shorter := llround_mono (div_nonneg wanted.le (by linarith))
      (div_le_div_of_nonneg_left wanted.le (by linarith) (add_le_add_left denser ((eTarget : ℚ) / nCycleTarget)))
    exact max_le_max_right 1 (min_le_min_right nCycle shorter)
  · intro several
    have rho : (0 : ℚ) ≤ pinWaveformSizes.sum / nCycle := div_nonneg (by exact_mod_cast events) positive.le
    have share := rounded_events rho wanted rhoFloor
    generalize llround (eTarget / ((pinWaveformSizes.sum : ℚ) / nCycle + eTarget / nCycleTarget)) =
      rounded at several share ⊢
    -- the clamps from below did not apply
    have below : max (min rounded nCycle) 1 ≤ rounded := by omega
    have below : ((max (min rounded nCycle) 1 : Int) : ℚ) ≤ rounded := by exact_mod_cast below
    calc ((max (min rounded nCycle) 1 : Int) : ℚ) * pinWaveformSizes.sum / nCycle
        = ((max (min rounded nCycle) 1 : Int) : ℚ) * (pinWaveformSizes.sum / nCycle) := by rw [mul_div_assoc]
      _ ≤ rounded * (pinWaveformSizes.sum / nCycle) := mul_le_mul_of_nonneg_right below rho
      _ ≤ eTarget + pinWaveformSizes.sum / nCycle / 2 := share
      _ = eTarget + pinWaveformSizes.sum / (2 * nCycle) := by rw [div_div,mul_comm (nCycle : ℚ)]

/-- Thirty events in ten cycles, with two threads wanted. -/
theorem nCyclePerThread_spec_ten :
    ∃ n, setNCyclePerThreadByEventCount [10, 20] 10 2 8 = some n ∧ 1 ≤ n ∧ n ≤ 10 ∧
    n ≤ max 1 ⌈((10 : Int) : ℚ) / (2 : Int)⌉ ∧
      (∀ moreSizes n', [10, 20].sum ≤ moreSizes.sum → setNCyclePerThreadByEventCount moreSizes 10 2 8 = some n' →
        n' ≤ n) ∧
      (n ≠ 1 → (n : ℚ) * ([10, 20].sum : Int) / (10 : Int) ≤ (8 : Int) + ([10, 20].sum : Int) / (2 * (10 : Int))) :=
  nCyclePerThread_spec (by decide) (by decide) (by decide) (by decide)

end Target

end GTPower
