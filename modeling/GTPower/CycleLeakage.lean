import GTPower.CyclePartition
import GTPower.PowerResult

/-! Spreading the leakage of a window over the cycles it meets. The first cycle comes from the raster of whole ticks,
the loop goes on in exact periods. The CPU carries the left end along, the kernel takes it from the cycle. -/
namespace GTPower

section Loops
variable (clock : Clock) (window : Window)

/-- Cycle and amount of every addition of the CPU loop, for as many rounds as `fuel`. -/
def hostLeakageLoop (leakageVal stopTime : ℚ) : Nat → ℚ → Nat → List (Nat × ℚ)
  | 0, _, _ => []
  | fuel + 1, left, curCycleIdx =>
    if curCycleIdx * clock.clkPeriod ≤ stopTime then
      let right := min ((curCycleIdx + 1) * clock.clkPeriod) stopTime
      (curCycleIdx, leakageVal * (right - left) / clock.clkPeriod) ::
        hostLeakageLoop leakageVal stopTime fuel ((curCycleIdx + 1) * clock.clkPeriod) (curCycleIdx + 1)
    else []

def hostPerCycleLeakage : List (Nat × ℚ) :=
  hostLeakageLoop clock window.value (window.stop * clock.vcdTimeScale)
    ((window.stop * clock.vcdTimeScale / clock.clkPeriod).floor.toNat + 2) (window.start * clock.vcdTimeScale)
    (clock.clkedWaveformIdx window.start)

def devicePerCycleLeakage : List (Nat × ℚ) :=
  (windowCycles clock window).map fun cycle => (cycle, cycleLeakage clock window cycle)

def cycleOverlap (cycle : Nat) : ℚ :=
  max 0 (min ((cycle + 1) * clock.clkPeriod) (window.stop * clock.vcdTimeScale) -
    max (cycle * clock.clkPeriod) (window.start * clock.vcdTimeScale))

/-- Additions that are nonnegative shares of the leakage, none longer than its cycle has of the window, and the whole
window together. -/
structure Conserved (additions : List (Nat × ℚ)) : Prop where
  shares : ∀ addition ∈ additions, ∃ share : ℚ, addition.2 = share * window.value ∧ 0 ≤ share ∧
    share * clock.clkPeriod ≤ cycleOverlap clock window addition.1
  total : (additions.map Prod.snd).sum * clock.clkPeriod =
    window.value * ((window.stop : ℚ) - window.start) * clock.vcdTimeScale

/-- The window starts in the cycle its tick is counted to, or where that cycle ends. -/
def StartsInCycle : Prop :=
  window.start * clock.vcdTimeScale ≤ (clock.clkedWaveformIdx window.start + 1) * clock.clkPeriod

instance : Decidable (StartsInCycle clock window) := inferInstanceAs (Decidable (_ ≤ _))

end Loops

section Results
variable {clock : Clock} {window : Window}

theorem cycle_begins_before (clock : Clock) (time : Nat) :
    clock.clkedWaveformIdx time * clock.clkPeriod ≤ time * clock.vcdTimeScale := by
  have tick := clock.vcdTimeScale_pos
  have unit : clock.clkPeriod ≤ clock.vcdTimeUnitPerCycle * clock.vcdTimeScale := by
    rw [← div_le_iff₀ tick]
    have ceil : 0 ≤ (clock.clkPeriod / clock.vcdTimeScale).ceil := by
      have := clock.vcdTimeUnitPerCycle_pos
      unfold Clock.vcdTimeUnitPerCycle at this
      omega
    have cast : ((clock.clkPeriod / clock.vcdTimeScale).ceil : ℚ) = clock.vcdTimeUnitPerCycle := by
      rw [Clock.vcdTimeUnitPerCycle,← Int.cast_natCast,Int.toNat_of_nonneg ceil]
    rw [← cast]
    exact Rat.le_ceil
  have counted : (clock.clkedWaveformIdx time * clock.vcdTimeUnitPerCycle : ℚ) ≤ time := by
    exact_mod_cast Nat.div_mul_le_self time clock.vcdTimeUnitPerCycle
  calc (clock.clkedWaveformIdx time : ℚ) * clock.clkPeriod
      ≤ clock.clkedWaveformIdx time * (clock.vcdTimeUnitPerCycle * clock.vcdTimeScale) :=
        mul_le_mul_of_nonneg_left unit (Nat.cast_nonneg _)
    _ = clock.clkedWaveformIdx time * clock.vcdTimeUnitPerCycle * clock.vcdTimeScale := by rw [mul_assoc]
    _ ≤ time * clock.vcdTimeScale := mul_le_mul_of_nonneg_right counted (le_of_lt tick)

theorem sum_hostLeakageLoop (enough : stopTime < (curCycleIdx + fuel : Nat) * clock.clkPeriod)
    (begun : curCycleIdx * clock.clkPeriod ≤ stopTime) :
    ((hostLeakageLoop clock leakageVal stopTime fuel left curCycleIdx).map Prod.snd).sum * clock.clkPeriod =
      leakageVal * (stopTime - left) := by
  have positive := clock.clkPeriod_pos
  induction fuel generalizing left curCycleIdx with
  | zero =>
    rw [Nat.add_zero] at enough
    exact absurd enough (not_lt.mpr begun)
  | succ fuel ih =>
    rw [hostLeakageLoop,if_pos begun,List.map_cons,List.sum_cons,add_mul,div_mul_cancel₀ _ (ne_of_gt positive)]
    have next : ((curCycleIdx + 1 : Nat) : ℚ) = curCycleIdx + 1 := by push_cast; rfl
    by_cases more : ((curCycleIdx : ℚ) + 1) * clock.clkPeriod ≤ stopTime
    · rw [ih (by rwa [Nat.add_right_comm,Nat.add_assoc]) (by rwa [next]),min_eq_left more]
      ring
    · have last : hostLeakageLoop clock leakageVal stopTime fuel ((curCycleIdx + 1) * clock.clkPeriod)
        (curCycleIdx + 1) = [] := by
        cases fuel with
        | zero => rfl
        | succ fuel => rw [hostLeakageLoop,if_neg (by rwa [next])]
      rw [last,min_eq_right (le_of_lt (not_le.mp more))]
      simp

/-- The CPU loop in closed form: the left end is where the cycle begins, after the first one. -/
theorem hostLeakageLoop_eq (fuel : Nat) (left : ℚ) (first : Nat) :
    hostLeakageLoop clock leakageVal stopTime fuel left first =
      ((List.range' first fuel).takeWhile fun cycle : Nat => (cycle : ℚ) * clock.clkPeriod ≤ stopTime).map fun cycle :
        Nat =>
        (cycle, leakageVal * (min (((cycle : ℚ) + 1) * clock.clkPeriod) stopTime -
          if cycle = first then left else (cycle : ℚ) * clock.clkPeriod) / clock.clkPeriod) := by
  induction fuel generalizing left first with
  | zero => rfl
  | succ fuel ih =>
    rw [List.range'_succ,List.takeWhile_cons,hostLeakageLoop]
    by_cases begun : first * clock.clkPeriod ≤ stopTime
    · rw [if_pos begun,if_pos (decide_eq_true begun),List.map_cons,if_pos rfl,ih]
      refine congrArg _ (List.map_congr_left fun cycle mem => ?_)
      have later := List.mem_range'_1.mp ((List.takeWhile_prefix _).subset mem)
      rw [if_neg (show cycle ≠ first by omega)]
      by_cases next : cycle = first + 1
      · subst next
        push_cast
        rw [if_pos rfl]
      · rw [if_neg next]
    · rw [if_neg begun,if_neg (by simpa using begun)]
      rfl

theorem hostPerCycleLeakage_eq (starts : StartsInCycle clock window) :
    hostPerCycleLeakage clock window = devicePerCycleLeakage clock window := by
  rw [hostPerCycleLeakage,hostLeakageLoop_eq]
  refine List.map_congr_left fun cycle mem => ?_
  have later := List.mem_range'_1.mp ((List.takeWhile_prefix _).subset mem)
  have left : (if cycle = clock.clkedWaveformIdx window.start then window.start * clock.vcdTimeScale
      else (cycle : ℚ) * clock.clkPeriod) = max (cycle * clock.clkPeriod) (window.start * clock.vcdTimeScale) := by
    split
    case isTrue first => rw [first,max_eq_right (cycle_begins_before clock window.start)]
    case isFalse after =>
      symm
      apply max_eq_left
      refine le_trans starts (mul_le_mul_of_nonneg_right ?_ (le_of_lt clock.clkPeriod_pos))
      exact_mod_cast (show clock.clkedWaveformIdx window.start + 1 ≤ cycle by omega)
  rw [left]
  rfl

theorem total_host (forward : window.start ≤ window.stop) :
    ((hostPerCycleLeakage clock window).map Prod.snd).sum * clock.clkPeriod =
      window.value * ((window.stop : ℚ) - window.start) * clock.vcdTimeScale := by
  have positive := clock.clkPeriod_pos
  have order : (window.start : ℚ) * clock.vcdTimeScale ≤ window.stop * clock.vcdTimeScale :=
    mul_le_mul_of_nonneg_right (Nat.cast_le.mpr forward) (le_of_lt clock.vcdTimeScale_pos)
  have begun := le_trans (cycle_begins_before clock window.start) order
  have enough : window.stop * clock.vcdTimeScale < ((clock.clkedWaveformIdx window.start +
      ((window.stop * clock.vcdTimeScale / clock.clkPeriod).floor.toNat + 2) : Nat) : ℚ) * clock.clkPeriod := by
    rw [← div_lt_iff₀ positive]
    by_contra reached
    have floor : ((clock.clkedWaveformIdx window.start +
      ((window.stop * clock.vcdTimeScale / clock.clkPeriod).floor.toNat + 2) : Nat) : Int) ≤
        (window.stop * clock.vcdTimeScale / clock.clkPeriod).floor :=
          Rat.le_floor_iff.mpr (by exact_mod_cast not_lt.mp reached)
    omega
  rw [hostPerCycleLeakage,sum_hostLeakageLoop enough begun]
  ring

theorem cycleLeakage_overlap (starts : StartsInCycle clock window) (forward : window.start ≤ window.stop)
    (visited : cycle ∈ windowCycles clock window) :
    cycleLeakage clock window cycle = window.value * cycleOverlap clock window cycle / clock.clkPeriod := by
  obtain ⟨reached, begun⟩ := (mem_windowCycles clock window cycle).mp visited
  have positive := clock.clkPeriod_pos
  have order : (window.start : ℚ) * clock.vcdTimeScale ≤ window.stop * clock.vcdTimeScale :=
    mul_le_mul_of_nonneg_right (Nat.cast_le.mpr forward) (le_of_lt clock.vcdTimeScale_pos)
  have cycles : ((clock.clkedWaveformIdx window.start : ℚ) + 1) * clock.clkPeriod ≤ (cycle + 1) * clock.clkPeriod := by
    refine mul_le_mul_of_nonneg_right ?_ (le_of_lt positive)
    exact_mod_cast Nat.succ_le_succ reached
  have grows : (cycle : ℚ) * clock.clkPeriod ≤ (cycle + 1) * clock.clkPeriod :=
    mul_le_mul_of_nonneg_right (by linarith) (le_of_lt positive)
  have meets : max (cycle * clock.clkPeriod) (window.start * clock.vcdTimeScale) ≤
      min (((cycle : ℚ) + 1) * clock.clkPeriod) (window.stop * clock.vcdTimeScale) :=
    max_le (le_min grows begun) (le_min (le_trans starts cycles) order)
  rw [cycleLeakage,cycleOverlap,max_eq_right (sub_nonneg.mpr meets)]

theorem conserved_of_starts (starts : StartsInCycle clock window) (forward : window.start ≤ window.stop) :
    Conserved clock window (devicePerCycleLeakage clock window) := by
  have positive := clock.clkPeriod_pos
  constructor
  · intro addition mem
    obtain ⟨cycle, visited, rfl⟩ := List.mem_map.mp mem
    refine ⟨cycleOverlap clock window cycle / clock.clkPeriod, ?_, div_nonneg (le_max_left _ _) (le_of_lt positive), ?_⟩
    · rw [cycleLeakage_overlap starts forward visited]
      ring
    · exact le_of_eq (div_mul_cancel₀ _ (ne_of_gt positive))
  · rw [← hostPerCycleLeakage_eq starts]
    exact total_host forward

theorem conserved_of_zero (zero : window.value = 0) {additions : List (Nat × ℚ)}
    (none : ∀ addition ∈ additions, addition.2 = 0) :
    Conserved clock window additions := by
  constructor
  · intro addition mem
    exact ⟨0, by rw [none addition mem,zero_mul], le_refl _, by rw [zero_mul]; exact le_max_left _ _⟩
  · have sum : (additions.map Prod.snd).sum = 0 := List.sum_eq_zero fun amount mem => by
      obtain ⟨addition, member, rfl⟩ := List.mem_map.mp mem
      exact none addition member
    rw [sum,zero]
    ring

/-- The first addition of a window that starts after the cycle its tick is counted to is negative. -/
theorem starts_of_conserved (conserved : Conserved clock window (devicePerCycleLeakage clock window))
    (forward : window.start ≤ window.stop) (leaks : window.value ≠ 0) : StartsInCycle clock window := by
  have positive := clock.clkPeriod_pos
  have order : (window.start : ℚ) * clock.vcdTimeScale ≤ window.stop * clock.vcdTimeScale :=
    mul_le_mul_of_nonneg_right (Nat.cast_le.mpr forward) (le_of_lt clock.vcdTimeScale_pos)
  have visited : clock.clkedWaveformIdx window.start ∈ windowCycles clock window :=
    (mem_windowCycles clock window _).mpr ⟨Nat.le_refl _, le_trans (cycle_begins_before clock window.start) order⟩
  obtain ⟨share, amount, nonneg, -⟩ := conserved.shares _ (List.mem_map.mpr ⟨_, visited, rfl⟩)
  dsimp only at amount
  rw [cycleLeakage,mul_div_assoc,mul_comm share] at amount
  have duration := mul_left_cancel₀ leaks amount
  by_contra late
  have first : min (((clock.clkedWaveformIdx window.start : ℚ) + 1) * clock.clkPeriod)
    (window.stop * clock.vcdTimeScale) <
      max (clock.clkedWaveformIdx window.start * clock.clkPeriod) (window.start * clock.vcdTimeScale) :=
    lt_of_le_of_lt (min_le_left _ _) (lt_of_lt_of_le (not_le.mp late) (le_max_right _ _))
  have negative := div_neg_of_neg_of_pos (sub_neg.mpr first) positive
  rw [duration] at negative
  exact absurd nonneg (not_le.mpr negative)

/-- Both sides spread the leakage of a window as it is, and alike, exactly when the window starts in its cycle or
does not leak. -/
theorem leakageConserved_iff (clock : Clock) (window : Window) (forward : window.start ≤ window.stop) :
    (Conserved clock window (hostPerCycleLeakage clock window) ∧
    Conserved clock window (devicePerCycleLeakage clock window) ∧
      hostPerCycleLeakage clock window = devicePerCycleLeakage clock window) ↔
    window.value = 0 ∨ StartsInCycle clock window := by
  constructor
  · rintro ⟨-, conserved, -⟩
    by_cases zero : window.value = 0
    · exact Or.inl zero
    · exact Or.inr (starts_of_conserved conserved forward zero)
  · rintro (zero | starts)
    · have host : hostPerCycleLeakage clock window = (windowCycles clock window).map fun cycle => (cycle, 0) := by
        rw [hostPerCycleLeakage,hostLeakageLoop_eq,zero]
        exact List.map_congr_left fun cycle _ => by rw [zero_mul,zero_div]
      have device : devicePerCycleLeakage clock window = (windowCycles clock window).map fun cycle => (cycle, 0) := by
        refine List.map_congr_left fun cycle _ => ?_
        rw [cycleLeakage,zero,zero_mul,zero_div]
      rw [host,device]
      have nothing : ∀ addition ∈ (windowCycles clock window).map fun cycle => (cycle, (0 : ℚ)), addition.2 = 0 := by
        intro addition mem
        obtain ⟨_, -, rfl⟩ := List.mem_map.mp mem
        rfl
      exact ⟨conserved_of_zero zero nothing, conserved_of_zero zero nothing, rfl⟩
    · rw [hostPerCycleLeakage_eq starts]
      exact ⟨conserved_of_starts starts forward, conserved_of_starts starts forward, rfl⟩

theorem leakageConserved_iff_twoCycles :
    Conserved (tenTickClock 20) ⟨5, 15, 1⟩ (hostPerCycleLeakage (tenTickClock 20) ⟨5, 15, 1⟩) ∧
    Conserved (tenTickClock 20) ⟨5, 15, 1⟩ (devicePerCycleLeakage (tenTickClock 20) ⟨5, 15, 1⟩) ∧
    hostPerCycleLeakage (tenTickClock 20) ⟨5, 15, 1⟩ = devicePerCycleLeakage (tenTickClock 20) ⟨5, 15, 1⟩ :=
  (leakageConserved_iff (tenTickClock 20) ⟨5, 15, 1⟩ (by decide)).mpr (Or.inr (by decide +kernel))

/-- A period of one and a half ticks makes cycles of two. Tick 5 is counted to cycle 2, which ends at 4.5 ticks. -/
theorem leakage_not_conserved : ∃ clock : Clock, clock.clkPeriod = 3 / 2 ∧ clock.vcdTimeScale = 1 ∧
    hostPerCycleLeakage clock ⟨5, 6, 1⟩ = [(2, -1 / 3), (3, 1), (4, 0)] ∧
    devicePerCycleLeakage clock ⟨5, 6, 1⟩ = [(2, -1 / 3), (3, 2 / 3), (4, 0)] ∧
    ¬ (Conserved clock ⟨5, 6, 1⟩ (hostPerCycleLeakage clock ⟨5, 6, 1⟩) ∧
      Conserved clock ⟨5, 6, 1⟩ (devicePerCycleLeakage clock ⟨5, 6, 1⟩) ∧
      hostPerCycleLeakage clock ⟨5, 6, 1⟩ = devicePerCycleLeakage clock ⟨5, 6, 1⟩) := by
  refine ⟨⟨3 / 2, 1, 6, by norm_num, by norm_num⟩, rfl, rfl, by decide +kernel, by decide +kernel, ?_⟩
  rintro ⟨-, -, same⟩
  exact absurd same (by decide +kernel)

end Results
end GTPower
