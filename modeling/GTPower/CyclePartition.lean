import GTPower.ThreadRounds

/-! Cycle basis: however many cycles each thread takes, the threads of a gate take together what one
thread over the whole interval takes. -/
namespace GTPower

section Count
variable {gate : Gate n} {interval : Periods}

theorem ceilDiv_bounds (positive : 0 < b) (some : 0 < a) :
    0 < ceilDiv a b ∧ (ceilDiv a b - 1) * b < a ∧ a ≤ ceilDiv a b * b := by
  have upper := Nat.div_mul_le_self (a + b - 1) b
  have lower := @Nat.lt_div_mul_add (a + b - 1) b positive
  have least : 0 < ceilDiv a b := Nat.div_pos (by omega) positive
  unfold ceilDiv at least ⊢
  refine ⟨least, ?_, by omega⟩
  have step : ((a + b - 1) / b - 1) * b + b = (a + b - 1) / b * b := by
    rw [← Nat.succ_mul]; congr 1; omega
  omega

end Count

section Run
variable {gate : Gate n} {events : Nat → Event} {clock : Clock} {interval : Periods}

theorem mapM_kernel1All (loaded : Loaded gate events clock interval) (periods : List Periods) :
    periods.mapM (kernel1All gate events clock interval) =
      some (periods.map (threadResult gate events clock interval)) := by
  have run : kernel1All gate events clock interval = fun p => some (threadResult gate events clock interval p) :=
    funext (kernel1All_eq loaded)
  rw [run]
  exact List.mapM_pure

theorem runCycleBasis_eq (loaded : Loaded gate events clock interval) : runCycleBasis gate events clock interval =
    some ((List.range (cycleThreadCount gate interval)).map fun thread =>
      threadResult gate events clock interval (cyclePeriods gate interval thread)) := by
  have run := mapM_kernel1All loaded ((List.range (cycleThreadCount gate interval)).map (cyclePeriods gate interval))
  rw [List.mapM_map,List.map_map] at run
  exact run

/-- The threads of the cycle basis take the records of the interval, once each and in one order. -/
theorem cycleRecords_join (loaded : Loaded gate events clock interval) (order : interval.start < interval.stop)
    (positive : 0 < gate.nCyclePerThread) :
    (List.range (cycleThreadCount gate interval)).flatMap
        (fun thread => threadRecords gate events clock interval (cyclePeriods gate interval thread)) =
      threadRecords gate events clock interval interval := by
  obtain ⟨least, last, cover⟩ := ceilDiv_bounds positive (by omega : 0 < interval.stop - interval.start)
  set threads := cycleThreadCount gate interval with count
  replace last : (threads - 1) * gate.nCyclePerThread < interval.stop - interval.start := last
  replace cover : interval.stop - interval.start ≤ threads * gate.nCyclePerThread := cover
  have join := threadRecords_join loaded (fun t => t * gate.nCyclePerThread + interval.start) threads
    (fun t _ => Nat.add_le_add_right (Nat.mul_le_mul_right _ (Nat.le_succ t)) _)
    (fun t less _ => by
      have : t * gate.nCyclePerThread ≤ (threads - 1) * gate.nCyclePerThread :=
        Nat.mul_le_mul_right _ (by omega)
      omega)
  refine join.trans ?_
  have unit := clock.vcdTimeUnitPerCycle_pos
  have reach : interval.stop ≤ threads * gate.nCyclePerThread + interval.start := by omega
  have whole : interval.stop * clock.vcdTimeUnitPerCycle < interval.endTime interval clock := by
    simp [Periods.endTime]
  have past : interval.stop * clock.vcdTimeUnitPerCycle <
      (⟨0 * gate.nCyclePerThread + interval.start, threads * gate.nCyclePerThread + interval.start⟩ : Periods).endTime
        interval clock := by
    simp only [Periods.endTime]
    rcases Nat.eq_or_lt_of_le reach with same | more
    · rw [if_pos same.symm,← same]; omega
    · have := Nat.mul_lt_mul_of_pos_right more unit
      omega
  have start : 0 * gate.nCyclePerThread + interval.start = interval.start := by omega
  simp only [threadRecords,start,Nat.ne_of_lt order,if_false,
    Nat.ne_of_lt (Nat.lt_of_lt_of_le order reach)] at past ⊢
  exact recordsBetween_late loaded past whole

/-- Every partition of an interval yields the contributions of a single thread, and takes every
record of the interval exactly once. -/
theorem cyclePartition_invariant (loaded : Loaded gate events clock interval) (order : interval.start < interval.stop)
    (positive : 0 < gate.nCyclePerThread) :
    ∃ threads whole, runCycleBasis gate events clock interval = some threads ∧
      kernel1All gate events clock interval interval = some whole ∧
      (threads.flatMap ThreadResult.contributions : Multiset (Contribution n)) = whole.contributions ∧
      ∀ pin range k, gate.pinWaveforms pin = some range → range.start < k → k < range.stop →
        interval.startTime clock ≤ (events k).time →
        ((threads.flatMap ThreadResult.processed).map Processed.key).count (pin, k) = 1 := by
  refine ⟨_, _, runCycleBasis_eq loaded, kernel1All_eq loaded interval, ?_, ?_⟩
  · have join := congrArg (List.filterMap (·.contribution)) (cycleRecords_join loaded order positive)
    rw [List.filterMap_flatMap] at join
    rw [List.flatMap_map]
    exact congrArg _ join
  · intro pin range k waveform first inside late
    rw [List.flatMap_map]
    simp only [threadResult]
    rw [cycleRecords_join loaded order positive]
    simp only [threadRecords,Nat.ne_of_lt order,if_false]
    refine recordsBetween_count loaded waveform first inside late ?_
    have := (loaded pin range waveform).inside k (Nat.le_of_lt first) inside
    simp only [Periods.endTime,if_true]
    omega

/-- An input and an output pin that toggle in both cycles of an interval. -/
def twoCycleEvents (eventIdx : Nat) : Event :=
  [⟨0, 0⟩, ⟨5, 1⟩, ⟨15, 0⟩, ⟨0, 0⟩, ⟨6, 1⟩, ⟨16, 0⟩].getD eventIdx ⟨0, 0⟩

def twoCycleGate : Gate 2 := Gate.bare 1 fun pin => some (if pin = 0 then ⟨0, 3⟩ else ⟨3, 6⟩)

def tenTickClock (maxTime : Nat) : Clock := ⟨10, 1, maxTime, by norm_num, by norm_num⟩

theorem cyclePartition_invariant_twoCycle :
    ∃ threads whole, runCycleBasis twoCycleGate twoCycleEvents (tenTickClock 20) ⟨0, 2⟩ = some threads ∧
      kernel1All twoCycleGate twoCycleEvents (tenTickClock 20) ⟨0, 2⟩ ⟨0, 2⟩ = some whole ∧
      (threads.flatMap ThreadResult.contributions : Multiset (Contribution 2)) = whole.contributions ∧
      ((threads.flatMap ThreadResult.processed).map Processed.key).count (1, 5) = 1 := by
  have loaded : Loaded twoCycleGate twoCycleEvents (tenTickClock 20) ⟨0, 2⟩ := by decide +kernel
  obtain ⟨threads, whole, run, single, same, once⟩ := cyclePartition_invariant loaded (by decide) (by decide)
  exact ⟨threads, whole, run, single, same, once 1 ⟨3, 6⟩ 5 rfl (by decide) (by decide) (by decide +kernel)⟩

end Run
end GTPower
