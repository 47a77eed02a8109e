import GTPower.Bisect

/-! Value-change records, the clock raster and the toggle tables. Powers, energies, slews and
delays are exact rationals; times and record indices are naturals. -/
namespace GTPower

inductive RiseFall where
  | rise
  | fall
  deriving DecidableEq, Repr

def RiseFall.toNat : RiseFall → Nat
  | .rise => 0
  | .fall => 1

structure Event where
  time : Nat
  val : Int
  deriving DecidableEq, Repr

/-- Placeholders of the source for absent values. -/
def invalidNPeriodVal : Int := -1
def invalidPulseWidth : Int := -1
def invalidNToggleVal : ℚ := -1
def invalidVcdEventVal : Int := -1

/-- Result of a counter of type `short` after its value is stored. -/
def short (x : Int) : Int := Int.bmod x 65536

/-- The clock period, the VCD tick and the last time of the dump. -/
structure Clock where
  clkPeriod : ℚ
  vcdTimeScale : ℚ
  maxTime : Nat
  clkPeriod_pos : 0 < clkPeriod
  vcdTimeScale_pos : 0 < vcdTimeScale

namespace Clock
variable (clock : Clock)

/-- Ticks of one clock cycle, rounded up. -/
def vcdTimeUnitPerCycle : Nat := (Rat.ceil (clock.clkPeriod / clock.vcdTimeScale)).toNat

def clkedWaveformIdx (time : Nat) : Nat := time / clock.vcdTimeUnitPerCycle

theorem vcdTimeUnitPerCycle_pos : 0 < clock.vcdTimeUnitPerCycle := by
  have ratio : 0 < clock.clkPeriod / clock.vcdTimeScale := div_pos clock.clkPeriod_pos clock.vcdTimeScale_pos
  have positive : 0 < (clock.clkPeriod / clock.vcdTimeScale).ceil := Rat.lt_ceil_iff.mpr (by exact_mod_cast ratio)
  simp only [vcdTimeUnitPerCycle]
  omega

theorem clkedWaveformIdx_mono (order : a ≤ b) : clock.clkedWaveformIdx a ≤ clock.clkedWaveformIdx b :=
  Nat.div_le_div_right order

/-- A record is before a cycle exactly when its time is before the first tick of the cycle. -/
theorem clkedWaveformIdx_lt_iff : clock.clkedWaveformIdx time < cycle ↔ time < cycle * clock.vcdTimeUnitPerCycle :=
  Nat.div_lt_iff_lt_mul clock.vcdTimeUnitPerCycle_pos

theorem le_clkedWaveformIdx_iff : cycle ≤ clock.clkedWaveformIdx time ↔ cycle * clock.vcdTimeUnitPerCycle ≤ time :=
  Nat.le_div_iff_mul_le clock.vcdTimeUnitPerCycle_pos

end Clock

/-- Values are 0, 1 and 2 for unknown. Outside the table nothing rises. -/
def getNRise (prevVal curVal : Int) : ℚ :=
  match prevVal, curVal with
  | 0, 1 => 1
  | 0, 2 => 1 / 2
  | 2, 1 => 1 / 2
  | _, _ => 0

def getNToggle (prevVal curVal : Int) : ℚ :=
  match prevVal, curVal with
  | 0, 1 => 1
  | 0, 2 => 1 / 2
  | 1, 0 => 1
  | 1, 2 => 1 / 2
  | 2, 0 => 1 / 2
  | 2, 1 => 1 / 2
  | _, _ => 0

def getRiseFallEdge (prevVal curVal : Int) : RiseFall := if 0 < getNRise prevVal curVal then .rise else .fall

def isValidDelay (delay : ℚ) : Bool := 0 ≤ delay
def isValidSlew (slew : ℚ) : Bool := 0 ≤ slew

/-- A cast to an integer type drops the fraction. -/
def truncate (x : ℚ) : Int := if 0 ≤ x then x.floor else x.ceil

def getTimeBasedGlitchScalingRatio (pulseWidth sumSlew : ℚ) : ℚ :=
  if sumSlew = 0 then 1
  else
    let ratio := pulseWidth * 2 / sumSlew
    min 1 (ratio * ratio)

/-- First index of the range whose time is not before `time`; with `containsEqual`, first one after it. -/
def getEventIdxByTime (events : Nat → Event) (startPos endPos time : Nat) (containsEqual : Bool) : Nat :=
  Bisect.lowerBound (fun mid => (events mid).time < time || containsEqual && (events mid).time ≤ time) startPos endPos

/-- Nondecreasing times of the records of a range. -/
def SortedOn (events : Nat → Event) (start stop : Nat) : Prop :=
  ∀ i j, start ≤ i → i ≤ j → j < stop → (events i).time ≤ (events j).time

def StrictlySortedOn (events : Nat → Event) (start stop : Nat) : Prop :=
  ∀ i j, start ≤ i → i < j → j < stop → (events i).time < (events j).time

theorem StrictlySortedOn.sortedOn (strict : StrictlySortedOn events start stop) : SortedOn events start stop := by
  intro i j low order high
  rcases Nat.eq_or_lt_of_le order with rfl | less
  · exact Nat.le_refl _
  · exact Nat.le_of_lt (strict i j low less high)

section Search
variable (sorted : SortedOn events start stop)
include sorted

theorem partitioned_time (time : Nat) :
    Bisect.Partitioned (fun mid => (events mid).time < time || false && (events mid).time ≤ time) start stop := by
  intro i j low order high before
  have := sorted i j low order high
  simp only [Bool.false_and,Bool.or_false,decide_eq_true_eq] at before ⊢
  omega

theorem lt_getEventIdxByTime_iff (low : start ≤ i) (high : i < stop) :
    i < getEventIdxByTime events start stop time false ↔ (events i).time < time := by
  rw [getEventIdxByTime,Bisect.lt_lowerBound_iff (partitioned_time sorted time) low high]
  simp

theorem le_getEventIdxByTime (order : start ≤ stop) : start ≤ getEventIdxByTime events start stop time false :=
  Bisect.le_lowerBound (partitioned_time sorted time) order

theorem getEventIdxByTime_le (order : start ≤ stop) : getEventIdxByTime events start stop time false ≤ stop :=
  Bisect.lowerBound_le (partitioned_time sorted time) order

theorem getEventIdxByTime_mono (order : start ≤ stop) (later : time ≤ time') :
    getEventIdxByTime events start stop time false ≤ getEventIdxByTime events start stop time' false := by
  apply Bisect.lowerBound_mono (partitioned_time sorted time) (partitioned_time sorted time') order
  intro i _ _ before
  simp only [Bool.false_and,Bool.or_false,decide_eq_true_eq] at before ⊢
  omega

/-- The found index is the only one that separates earlier records from the others. -/
theorem getEventIdxByTime_eq (low : start ≤ k) (high : k ≤ stop)
    (before : ∀ i, start ≤ i → i < k → (events i).time < time)
    (after : ∀ i, k ≤ i → i < stop → time ≤ (events i).time) :
    getEventIdxByTime events start stop time false = k := by
  apply Bisect.lowerBound_eq (partitioned_time sorted time) low high
  · intro i lowi highi
    simpa using before i lowi highi
  · intro i lowi highi
    simpa using after i lowi highi

end Search

end GTPower
