import GTPower.LeakageWindows

/-! The powers a gate accumulates: for each component one value for the gate and one for each clock
cycle. A result adds up what the toggling records and the leakage windows contribute. -/
namespace GTPower

inductive Component where
  | leakage
  | internal
  | glitchInternal
  | switching
  | glitchSwitching
  deriving DecidableEq, Repr

/-- `none` is the value of the gate, `some cycle` the value of a clock cycle. -/
abbrev PowerResult := Component → Option Nat → ℚ

section Dynamic
variable (clock : Clock)

def spread (energy : ℚ) (cycleIdx : Nat) : Option Nat → ℚ
  | none => energy * (1 / (clock.maxTime * clock.vcdTimeScale))
  | some cycle => if cycle = cycleIdx then energy * (1 / clock.clkPeriod) else 0

/-- A toggle with a positive ratio is a glitch; its energies are scaled and booked apart. -/
def Contribution.powers (contribution : Contribution n) : PowerResult
  | .leakage => fun _ => 0
  | .internal => if 0 < contribution.glitchScalingRatio then fun _ => 0
      else spread clock contribution.internalEnergy contribution.cycleIdx
  | .glitchInternal => if 0 < contribution.glitchScalingRatio then
        spread clock (contribution.glitchScalingRatio * contribution.internalEnergy) contribution.cycleIdx
      else fun _ => 0
  | .switching => if 0 < contribution.glitchScalingRatio then fun _ => 0
      else spread clock contribution.switchingEnergy contribution.cycleIdx
  | .glitchSwitching => if 0 < contribution.glitchScalingRatio then
        spread clock (contribution.glitchScalingRatio * contribution.switchingEnergy) contribution.cycleIdx
      else fun _ => 0

def dynamicPowers (contributions : List (Contribution n)) : PowerResult :=
  (contributions.map (Contribution.powers clock)).sum

end Dynamic

section Leakage
variable (clock : Clock)

/-- The cycles the loop over a window visits: from the cycle of its start while they begin before its end. -/
def windowCycles (window : Window) : List Nat :=
  let stopTime := window.stop * clock.vcdTimeScale
  (List.range' (clock.clkedWaveformIdx window.start) ((stopTime / clock.clkPeriod).floor.toNat + 2)).takeWhile
    fun cycle => cycle * clock.clkPeriod ≤ stopTime

def cycleLeakage (window : Window) (cycle : Nat) : ℚ :=
  let left := max (cycle * clock.clkPeriod) (window.start * clock.vcdTimeScale)
  let right := min ((cycle + 1) * clock.clkPeriod) (window.stop * clock.vcdTimeScale)
  window.value * (right - left) / clock.clkPeriod

/-- What a window adds to the entry of a cycle. -/
def calculatePerCycleLeakagePower (window : Window) (cycle : Nat) : ℚ :=
  ((windowCycles clock window).map fun visited => if visited = cycle then cycleLeakage clock window visited else 0).sum

def windowPowers (window : Window) : PowerResult
  | .leakage => fun
    | none => window.value * ((window.stop : ℚ) - window.start) / clock.maxTime
    | some cycle => calculatePerCycleLeakagePower clock window cycle
  | _ => fun _ => 0

def leakagePowers (windows : List Window) : PowerResult := (windows.map (windowPowers clock)).sum

/-- What threads of the fused kernel add up to. -/
def threadPowers (threads : List (ThreadResult n)) : PowerResult :=
  dynamicPowers clock (threads.flatMap ThreadResult.contributions) +
    leakagePowers clock (threads.flatMap ThreadResult.windows)

/-- The loop over a window leaves no cycle out: it ends at a cycle that begins after the window. -/
theorem mem_windowCycles (window : Window) (cycle : Nat) : cycle ∈ windowCycles clock window ↔
    clock.clkedWaveformIdx window.start ≤ cycle ∧ cycle * clock.clkPeriod ≤ window.stop * clock.vcdTimeScale := by
  have positive := clock.clkPeriod_pos
  have begins : ∀ c : Nat, (c : ℚ) * clock.clkPeriod ≤ window.stop * clock.vcdTimeScale ↔
      c ≤ (window.stop * clock.vcdTimeScale / clock.clkPeriod).floor.toNat := by
    intro c
    have nonneg : 0 ≤ window.stop * clock.vcdTimeScale / clock.clkPeriod :=
      div_nonneg (mul_nonneg (Nat.cast_nonneg _) (le_of_lt clock.vcdTimeScale_pos)) (le_of_lt positive)
    have floor : 0 ≤ (window.stop * clock.vcdTimeScale / clock.clkPeriod).floor :=
      Rat.le_floor_iff.mpr (by exact_mod_cast nonneg)
    rw [← le_div_iff₀ positive,← Int.ofNat_le,Int.toNat_of_nonneg floor]
    rw [Rat.le_floor_iff]
    norm_cast
  simp only [windowCycles,begins]
  generalize (window.stop * clock.vcdTimeScale / clock.clkPeriod).floor.toNat = last
  generalize clock.clkedWaveformIdx window.start = first
  constructor
  · intro mem
    have low := List.mem_range'_1.mp ((List.takeWhile_prefix _).subset mem)
    have high := List.mem_takeWhile_imp mem
    exact ⟨low.1, by simpa using high⟩
  · rintro ⟨low, high⟩
    have shape : List.range' first (last + 2) =
        List.range' first (cycle - first + 1) ++ List.range' (cycle + 1) (last + 2 - (cycle - first + 1)) := by
      have joint : first + (cycle - first + 1) = cycle + 1 := by omega
      rw [← joint,List.range'_append_1]
      congr 1
      omega
    rw [shape,List.takeWhile_append_of_pos fun c mem => by
      have := List.mem_range'_1.mp mem
      exact decide_eq_true (by omega)]
    exact List.mem_append_left _ (List.mem_range'_1.mpr ⟨low, by omega⟩)

theorem windowCycles_nodup (window : Window) : (windowCycles clock window).Nodup :=
  (List.takeWhile_sublist _).nodup List.nodup_range'

theorem sum_map_ite (places : List Nat) (distinct : places.Nodup) (amount : Nat → ℚ) (place : Nat) :
    (places.map fun visited => if visited = place then amount visited else 0).sum =
      if place ∈ places then amount place else 0 := by
  induction places with
  | nil => simp
  | cons head rest ih =>
    obtain ⟨fresh, distinct⟩ := List.nodup_cons.mp distinct
    rw [List.map_cons,List.sum_cons,ih distinct]
    by_cases here : head = place
    · subst here; simp [fresh]
    · simp [here,Ne.symm here]

theorem calculatePerCycleLeakagePower_eq (window : Window) (cycle : Nat) :
    calculatePerCycleLeakagePower clock window cycle =
      if clock.clkedWaveformIdx window.start ≤ cycle ∧ cycle * clock.clkPeriod ≤ window.stop * clock.vcdTimeScale then
        cycleLeakage clock window cycle else 0 := by
  rw [calculatePerCycleLeakagePower,sum_map_ite _ (windowCycles_nodup clock window)]
  simp only [mem_windowCycles]

/-- The clock period is a whole number of ticks, so that cycles in ticks are cycles in time. -/
def WholeTicks (clock : Clock) : Prop := clock.clkPeriod = clock.vcdTimeUnitPerCycle * clock.vcdTimeScale

instance : Decidable (WholeTicks clock) := inferInstanceAs (Decidable (_ = _))

/-- Share of a tick in the average over a cycle. -/
def cycleWeight (cycle tick : Nat) : ℚ :=
  if clock.clkedWaveformIdx tick = cycle then 1 / clock.vcdTimeUnitPerCycle else 0

variable {clock}

theorem sum_cycleWeight (start stop cycle : Nat) :
    ∑ tick ∈ Finset.Ico start stop, cycleWeight clock cycle tick =
      ((min stop ((cycle + 1) * clock.vcdTimeUnitPerCycle) - max start (cycle * clock.vcdTimeUnitPerCycle) : Nat) : ℚ) /
        clock.vcdTimeUnitPerCycle := by
  have members : (Finset.Ico start stop).filter (fun tick => clock.clkedWaveformIdx tick = cycle) =
      Finset.Ico (max start (cycle * clock.vcdTimeUnitPerCycle))
        (min stop ((cycle + 1) * clock.vcdTimeUnitPerCycle)) := by
    ext tick
    have before : clock.clkedWaveformIdx tick < cycle + 1 ↔ tick < (cycle + 1) * clock.vcdTimeUnitPerCycle :=
      clock.clkedWaveformIdx_lt_iff
    have after : cycle ≤ clock.clkedWaveformIdx tick ↔ cycle * clock.vcdTimeUnitPerCycle ≤ tick :=
      clock.le_clkedWaveformIdx_iff
    simp only [Finset.mem_filter,Finset.mem_Ico]
    omega
  unfold cycleWeight
  rw [← Finset.sum_filter,members,Finset.sum_const,Nat.card_Ico,nsmul_eq_mul,mul_one_div]

theorem calculatePerCycleLeakagePower_whole (whole : WholeTicks clock) (window : Window)
    (forward : window.start ≤ window.stop) (cycle : Nat) : calculatePerCycleLeakagePower clock window cycle =
      ∑ tick ∈ Finset.Ico window.start window.stop, cycleWeight clock cycle tick * window.value := by
  have tick := clock.vcdTimeScale_pos
  have unit : (0 : ℚ) < clock.vcdTimeUnitPerCycle := Nat.cast_pos.mpr clock.vcdTimeUnitPerCycle_pos
  have begins : (cycle : ℚ) * clock.clkPeriod ≤ window.stop * clock.vcdTimeScale ↔
      cycle * clock.vcdTimeUnitPerCycle ≤ window.stop := by
    rw [whole,← mul_assoc,mul_le_mul_iff_left₀ tick]
    norm_cast
  have enters : clock.clkedWaveformIdx window.start ≤ cycle ↔
      window.start < (cycle + 1) * clock.vcdTimeUnitPerCycle := by
    rw [← clock.clkedWaveformIdx_lt_iff,Nat.lt_succ_iff]
  rw [calculatePerCycleLeakagePower_eq,← Finset.sum_mul,sum_cycleWeight]
  simp only [begins,enters]
  have grows : cycle * clock.vcdTimeUnitPerCycle ≤ (cycle + 1) * clock.vcdTimeUnitPerCycle :=
    Nat.mul_le_mul_right _ (Nat.le_succ _)
  split
  case isTrue inside =>
    have lengths : max ((cycle : ℚ) * clock.clkPeriod) (window.start * clock.vcdTimeScale) =
          max window.start (cycle * clock.vcdTimeUnitPerCycle) * clock.vcdTimeScale ∧
        min (((cycle : ℚ) + 1) * clock.clkPeriod) (window.stop * clock.vcdTimeScale) =
          min window.stop ((cycle + 1) * clock.vcdTimeUnitPerCycle) * clock.vcdTimeScale := by
      constructor
      · rw [whole,← mul_assoc,← max_mul_of_nonneg _ _ (le_of_lt tick),max_comm]
        push_cast
        rfl
      · rw [whole,← mul_assoc,← min_mul_of_nonneg _ _ (le_of_lt tick),min_comm]
        push_cast
        rfl
    have ordered : max window.start (cycle * clock.vcdTimeUnitPerCycle) ≤
        min window.stop ((cycle + 1) * clock.vcdTimeUnitPerCycle) := by omega
    unfold cycleLeakage
    simp only [lengths.1,lengths.2]
    rw [Nat.cast_sub ordered,whole,← sub_mul,← mul_assoc,mul_div_mul_right _ _ (ne_of_gt tick)]
    push_cast
    ring
  case isFalse outside =>
    have nothing : min window.stop ((cycle + 1) * clock.vcdTimeUnitPerCycle) -
        max window.start (cycle * clock.vcdTimeUnitPerCycle) = 0 := by omega
    rw [nothing]
    simp

theorem leakagePowers_of_dynamic (windows : List Window) (dynamic : component ≠ .leakage) (entry : Option Nat) :
    leakagePowers clock windows component entry = 0 := by
  induction windows with
  | nil => rfl
  | cons window rest ih =>
    have head : windowPowers clock window component entry = 0 := by
      cases component with
      | leakage => exact absurd rfl dynamic
      | internal | glitchInternal | switching | glitchSwitching => rfl
    have split : leakagePowers clock (window :: rest) component entry =
        windowPowers clock window component entry + leakagePowers clock rest component entry := rfl
    rw [split,head,ih,add_zero]

theorem leakagePowers_entry (windows : List Window) (entry : Option Nat) : leakagePowers clock windows .leakage entry =
    (windows.map fun window => windowPowers clock window .leakage entry).sum := by
  induction windows with
  | nil => rfl
  | cons window rest ih =>
    rw [List.map_cons,List.sum_cons,← ih]
    rfl

/-- The leakage of a chain of windows that trace the leakage of the ticks: of the gate, and with whole ticks
of every cycle. -/
theorem leakagePowers_chain (clock : Clock) (chain : Timeline.Chain first windows last)
    (traces : Timeline.Traces f windows) :
    leakagePowers clock windows .leakage none = (∑ tick ∈ Finset.Ico first last, f tick) / clock.maxTime ∧
    (WholeTicks clock → ∀ cycle, leakagePowers clock windows .leakage (some cycle) =
      ∑ tick ∈ Finset.Ico first last, cycleWeight clock cycle tick * f tick) := by
  constructor
  · rw [leakagePowers_entry,← chain.integral traces,Timeline.integral,div_eq_mul_inv,← List.sum_map_mul_right]
    rfl
  · intro whole cycle
    rw [leakagePowers_entry,← chain.sum_weighted traces]
    refine congrArg List.sum (List.map_congr_left fun window mem => ?_)
    exact calculatePerCycleLeakagePower_whole whole window (chain.inside mem).2.1 cycle

end Leakage
end GTPower
