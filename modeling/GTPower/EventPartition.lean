import GTPower.LeakageShares
import GTPower.SeparateKernels

/-! Event basis: every thread takes the cycles between two counts of records. The last boundary is found by
a search for the number of records, so cycles without records at the end of an interval can get lost. A thread that
starts where the index in whole ticks is not the index by time adds a share of its own to earlier cycles. -/
namespace GTPower

section Partition
variable (gate : Gate n) (events : Nat → Event) (clock : Clock) (interval : Periods) (nEventPerThread : Nat)

def getAccuEventCountOfGateByPeriodIdx (periodIdx : Nat) : Nat :=
  ((List.finRange n).map fun pin => match gate.pinWaveforms pin with
    | none => 0
    | some range => getEventIdxByTime events range.start range.stop (periodIdx * clock.vcdTimeUnitPerCycle) false -
        range.start).sum

/-- First cycle of the interval with at least that many records before it, or the end of the interval. -/
def getCycleIndexByAccuEventCount (accuEventCount minPeriodIdx maxPeriodIdx : Nat) : Nat :=
  Bisect.lowerBound (fun mid => getAccuEventCountOfGateByPeriodIdx gate events clock mid < accuEventCount)
    minPeriodIdx maxPeriodIdx

def eventThreadCount : Nat := ceilDiv (waveformSize gate) nEventPerThread

/-- First cycle of a thread, where the thread before it ends. -/
def eventBoundary (thread : Nat) : Nat :=
  getCycleIndexByAccuEventCount gate events clock (thread * nEventPerThread) interval.start interval.stop

def eventPeriods (thread : Nat) : Periods :=
  ⟨eventBoundary gate events clock interval nEventPerThread thread,
    eventBoundary gate events clock interval nEventPerThread (thread + 1)⟩

def runEventBasis : Option (List (ThreadResult n)) :=
  (List.range (eventThreadCount gate nEventPerThread)).mapM fun thread =>
    kernel1All gate events clock interval (eventPeriods gate events clock interval nEventPerThread thread)

/-- The threads follow one another inside the interval, and each of its cycles belongs to one of them. -/
structure EventCovers : Prop where
  contiguous : ∀ thread, (eventPeriods gate events clock interval nEventPerThread thread).stop =
    (eventPeriods gate events clock interval nEventPerThread (thread + 1)).start
  inside : ∀ thread, interval.start ≤ (eventPeriods gate events clock interval nEventPerThread thread).start ∧
    (eventPeriods gate events clock interval nEventPerThread thread).start ≤
      (eventPeriods gate events clock interval nEventPerThread thread).stop ∧
    (eventPeriods gate events clock interval nEventPerThread thread).stop ≤ interval.stop
  once : ∀ period, interval.start ≤ period → period < interval.stop →
    ∃! thread, thread < eventThreadCount gate nEventPerThread ∧
      (eventPeriods gate events clock interval nEventPerThread thread).start ≤ period ∧
      period < (eventPeriods gate events clock interval nEventPerThread thread).stop

/-- The last thread does not stop early: there are records, and either their number leaves a rest or
the last cycle of the interval has one of them. -/
def LastThreadReaches : Prop :=
  0 < waveformSize gate ∧ (¬ nEventPerThread ∣ waveformSize gate ∨
    getAccuEventCountOfGateByPeriodIdx gate events clock (interval.stop - 1) < waveformSize gate)

instance : Decidable (LastThreadReaches gate events clock interval nEventPerThread) :=
  inferInstanceAs (Decidable (_ ∧ _))

/-- What the starts of the threads add to a cycle: the leakage of the states there, times how far the cycle ends before
the start if it is not before its index in whole ticks. -/
def eventStartShares (cycle : Nat) : ℚ :=
  startShares gate events clock (eventBoundary gate events clock interval nEventPerThread)
    (eventThreadCount gate nEventPerThread) cycle

end Partition

section Counts
variable {gate : Gate n} {events : Nat → Event} {clock : Clock} {interval : Periods} {nEventPerThread : Nat}

theorem getAccuEventCount_mono (loaded : Loaded gate events clock interval) :
    Monotone (getAccuEventCountOfGateByPeriodIdx gate events clock) := by
  intro a b order
  refine List.sum_le_sum fun pin _ => ?_
  cases waveform : gate.pinWaveforms pin with
  | none => exact Nat.le_refl _
  | some range =>
    have valid := loaded pin range waveform
    exact Nat.sub_le_sub_right (getEventIdxByTime_mono valid.sorted (Nat.le_of_lt valid.nonempty)
      (Nat.mul_le_mul_right _ order)) _

theorem getAccuEventCount_le (loaded : Loaded gate events clock interval) (periodIdx : Nat) :
    getAccuEventCountOfGateByPeriodIdx gate events clock periodIdx ≤ waveformSize gate := by
  refine List.sum_le_sum fun pin _ => ?_
  cases waveform : gate.pinWaveforms pin with
  | none => exact Nat.le_refl _
  | some range =>
    have valid := loaded pin range waveform
    exact Nat.sub_le_sub_right (getEventIdxByTime_le valid.sorted (Nat.le_of_lt valid.nonempty)) _

theorem partitioned_accuEventCount (loaded : Loaded gate events clock interval) (accuEventCount left right : Nat) :
    Bisect.Partitioned (fun mid => getAccuEventCountOfGateByPeriodIdx gate events clock mid < accuEventCount)
    left right := by
  intro i j _ order _ before
  have := getAccuEventCount_mono loaded order
  simp only [decide_eq_true_eq] at before ⊢
  omega

theorem eventBoundary_mono (loaded : Loaded gate events clock interval) (order : interval.start ≤ interval.stop) :
    Monotone (eventBoundary gate events clock interval nEventPerThread) := by
  intro a b later
  apply Bisect.lowerBound_mono (partitioned_accuEventCount loaded _ _ _) (partitioned_accuEventCount loaded _ _ _) order
  intro mid _ _ before
  have := Nat.mul_le_mul_right nEventPerThread later
  simp only [decide_eq_true_eq] at before ⊢
  omega

theorem eventBoundary_inside (nEventPerThread : Nat) (loaded : Loaded gate events clock interval)
    (order : interval.start ≤ interval.stop)
    (thread : Nat) : interval.start ≤ eventBoundary gate events clock interval nEventPerThread thread ∧
      eventBoundary gate events clock interval nEventPerThread thread ≤ interval.stop :=
  ⟨Bisect.le_lowerBound (partitioned_accuEventCount loaded _ _ _) order,
    Bisect.lowerBound_le (partitioned_accuEventCount loaded _ _ _) order⟩

theorem eventBoundary_zero (loaded : Loaded gate events clock interval) (order : interval.start ≤ interval.stop) :
    eventBoundary gate events clock interval nEventPerThread 0 = interval.start := by
  apply Bisect.lowerBound_eq (partitioned_accuEventCount loaded _ _ _) (Nat.le_refl _) order
  · intro i low high
    omega
  · intro i _ _
    simp

/-- Where the search for all records ends: at the end of the interval unless the last cycle is past them. -/
theorem eventBoundary_eq_stop_iff (loaded : Loaded gate events clock interval) (order : interval.start < interval.stop)
    (thread : Nat) : eventBoundary gate events clock interval nEventPerThread thread = interval.stop ↔
      getAccuEventCountOfGateByPeriodIdx gate events clock (interval.stop - 1) < thread * nEventPerThread := by
  have split := Bisect.lt_lowerBound_iff (partitioned_accuEventCount loaded (thread * nEventPerThread) interval.start
    interval.stop) (by omega : interval.start ≤ interval.stop - 1) (by omega)
  simp only [decide_eq_true_eq] at split
  rw [← split]
  have upper : eventBoundary gate events clock interval nEventPerThread thread ≤ interval.stop :=
    (eventBoundary_inside nEventPerThread loaded (Nat.le_of_lt order) thread).2
  unfold eventBoundary getCycleIndexByAccuEventCount at upper ⊢
  omega

/-- The last boundary reaches the end of the interval exactly when the last thread does not stop early. -/
theorem lastBoundary_eq_stop_iff (loaded : Loaded gate events clock interval) (order : interval.start < interval.stop)
    (positive : 0 < nEventPerThread) :
    eventBoundary gate events clock interval nEventPerThread (eventThreadCount gate nEventPerThread) = interval.stop ↔
      LastThreadReaches gate events clock interval nEventPerThread := by
  rcases Nat.eq_zero_or_pos (waveformSize gate) with none | some
  · have threads : eventThreadCount gate nEventPerThread = 0 := by
      rw [eventThreadCount,none,ceilDiv,Nat.zero_add]
      exact Nat.div_eq_of_lt (by omega)
    rw [threads,eventBoundary_zero loaded (Nat.le_of_lt order)]
    constructor
    · intro same; omega
    · rintro ⟨some, -⟩; omega
  · obtain ⟨-, -, cover⟩ := ceilDiv_bounds positive some
    have counted := getAccuEventCount_le loaded (interval.stop - 1)
    rw [eventBoundary_eq_stop_iff loaded order,LastThreadReaches,and_iff_right some]
    by_cases divides : nEventPerThread ∣ waveformSize gate
    · have whole : eventThreadCount gate nEventPerThread * nEventPerThread = waveformSize gate := by
        obtain ⟨quotient, same⟩ := divides
        have exactly : ceilDiv (waveformSize gate) nEventPerThread = quotient := by
          rw [ceilDiv,same,Nat.add_sub_assoc positive,Nat.mul_add_div positive,
            Nat.div_eq_of_lt (Nat.sub_lt positive Nat.one_pos)]
          rfl
        rw [eventThreadCount,exactly,same,Nat.mul_comm]
      rw [whole]
      exact ⟨Or.inr, fun h => h.resolve_left (not_not.mpr divides)⟩
    · have more : waveformSize gate < eventThreadCount gate nEventPerThread * nEventPerThread := by
        refine Nat.lt_of_le_of_ne cover fun same => divides ?_
        exact ⟨_, same.trans (Nat.mul_comm _ _)⟩
      exact ⟨fun _ => Or.inl divides, fun _ => by omega⟩

theorem eventCovers_iff (loaded : Loaded gate events clock interval) (order : interval.start < interval.stop)
    (positive : 0 < nEventPerThread) : EventCovers gate events clock interval nEventPerThread ↔
      LastThreadReaches gate events clock interval nEventPerThread := by
  have mono : Monotone (eventBoundary gate events clock interval nEventPerThread) :=
    eventBoundary_mono loaded (Nat.le_of_lt order)
  have inside : ∀ thread, interval.start ≤ eventBoundary gate events clock interval nEventPerThread thread ∧
      eventBoundary gate events clock interval nEventPerThread thread ≤ interval.stop :=
    eventBoundary_inside nEventPerThread loaded (Nat.le_of_lt order)
  rw [← lastBoundary_eq_stop_iff loaded order positive]
  constructor
  · intro covers
    obtain ⟨thread, ⟨less, -, reach⟩, -⟩ := covers.once (interval.stop - 1) (by omega) (by omega)
    have last := mono less
    have bound := (inside (eventThreadCount gate nEventPerThread)).2
    simp only [eventPeriods] at reach
    simp only [Nat.succ_eq_add_one] at last
    omega
  · intro reaches
    refine ⟨fun _ => rfl, fun thread => ⟨(inside thread).1, mono (Nat.le_succ _), (inside (thread + 1)).2⟩, ?_⟩
    intro period low high
    have first : eventBoundary gate events clock interval nEventPerThread 0 ≤ period := by
      rwa [eventBoundary_zero loaded (Nat.le_of_lt order)]
    exact Timeline.existsUnique_between mono first (lt_of_lt_of_eq high reaches.symm)

end Counts

section Results
variable {gate : Gate n} {events : Nat → Event} {clock : Clock} {interval : Periods} {nEventPerThread : Nat}

theorem runEventBasis_eq (loaded : Loaded gate events clock interval) :
    runEventBasis gate events clock interval nEventPerThread =
      some ((List.range (eventThreadCount gate nEventPerThread)).map fun thread =>
        threadResult gate events clock interval (eventPeriods gate events clock interval nEventPerThread thread)) := by
  have run := mapM_kernel1All loaded ((List.range (eventThreadCount gate nEventPerThread)).map
    (eventPeriods gate events clock interval nEventPerThread))
  rw [List.mapM_map,List.map_map] at run
  exact run

theorem startTime_le (within : (interval.stop - 1) * clock.vcdTimeUnitPerCycle ≤ clock.maxTime)
    (less : cycle < interval.stop) :
    cycle * clock.vcdTimeUnitPerCycle ≤ clock.maxTime :=
  Nat.le_trans (Nat.mul_le_mul_right _ (by omega)) within

/-- The threads that cover the interval take the records of a single thread over it. -/
theorem eventRecords_join (loaded : Loaded gate events clock interval) (order : interval.start < interval.stop)
    (reaches : eventBoundary gate events clock interval nEventPerThread (eventThreadCount gate nEventPerThread) =
      interval.stop) :
    (List.range (eventThreadCount gate nEventPerThread)).flatMap (fun thread => threadRecords gate events clock interval
      (eventPeriods gate events clock interval nEventPerThread thread)) =
      threadRecords gate events clock interval interval := by
  have inside := eventBoundary_inside nEventPerThread loaded (Nat.le_of_lt order)
  have join := threadRecords_join loaded (eventBoundary gate events clock interval nEventPerThread)
    (eventThreadCount gate nEventPerThread) (fun t _ => eventBoundary_mono loaded (Nat.le_of_lt order) (Nat.le_succ t))
    (fun t _ moves => Nat.lt_of_lt_of_le moves (inside (t + 1)).2)
  rw [eventBoundary_zero loaded (Nat.le_of_lt order),reaches] at join
  exact join

theorem eventWindows_join (loaded : Loaded gate events clock interval) (order : interval.start < interval.stop)
    (within : (interval.stop - 1) * clock.vcdTimeUnitPerCycle ≤ clock.maxTime)
    (reaches : eventBoundary gate events clock interval nEventPerThread (eventThreadCount gate nEventPerThread) =
      interval.stop) :
    let windows := (List.range (eventThreadCount gate nEventPerThread)).flatMap fun thread =>
      threadWindows gate events clock interval (eventPeriods gate events clock interval nEventPerThread thread)
    Timeline.Chain (interval.startTime clock) windows (min (interval.endTime interval clock) clock.maxTime) ∧
    Timeline.Traces (tickLeakage gate events) windows := by
  have inside := eventBoundary_inside nEventPerThread loaded (Nat.le_of_lt order)
  obtain ⟨-, -, chained⟩ := threadWindows_join loaded (eventBoundary gate events clock interval nEventPerThread)
    (eventThreadCount gate nEventPerThread) (fun t _ => eventBoundary_mono loaded (Nat.le_of_lt order) (Nat.le_succ t))
    (fun t _ moves => Nat.lt_of_lt_of_le moves (inside (t + 1)).2)
    (fun t _ moves => startTime_le within (Nat.lt_of_lt_of_le moves (inside (t + 1)).2))
  rw [eventBoundary_zero loaded (Nat.le_of_lt order),reaches] at chained
  exact chained order

/-- To a cycle they add what the single thread adds and the shares of their starts. -/
theorem eventWindows_shares (loaded : Loaded gate events clock interval) (order : interval.start < interval.stop)
    (within : (interval.stop - 1) * clock.vcdTimeUnitPerCycle ≤ clock.maxTime)
    (reaches : eventBoundary gate events clock interval nEventPerThread (eventThreadCount gate nEventPerThread) =
      interval.stop) (cycle : Nat) :
    cycleShares clock cycle ((List.range (eventThreadCount gate nEventPerThread)).flatMap fun thread =>
        threadWindows gate events clock interval (eventPeriods gate events clock interval nEventPerThread thread)) =
      cycleShares clock cycle (threadWindows gate events clock interval interval) +
        eventStartShares gate events clock interval nEventPerThread cycle := by
  have inside := eventBoundary_inside nEventPerThread loaded (Nat.le_of_lt order)
  obtain ⟨-, shares⟩ := threadWindows_shares loaded (eventBoundary gate events clock interval nEventPerThread)
    (eventThreadCount gate nEventPerThread) cycle
    (fun t _ => eventBoundary_mono loaded (Nat.le_of_lt order) (Nat.le_succ t))
    (fun t _ moves => Nat.lt_of_lt_of_le moves (inside (t + 1)).2)
    (fun t _ moves => startTime_le within (Nat.lt_of_lt_of_le moves (inside (t + 1)).2))
  rw [eventBoundary_zero loaded (Nat.le_of_lt order),reaches] at shares
  exact shares

/-- Event basis against one thread of the cycle basis. The ranges of the threads cover the interval exactly when
the last thread does not stop early. They do and every power is the one of the single thread exactly when also the
starts of the threads add nothing to any cycle. -/
theorem eventPartition_agrees (nEventPerThread : Nat) (loaded : Loaded gate events clock interval)
    (order : interval.start < interval.stop) (within : (interval.stop - 1) * clock.vcdTimeUnitPerCycle ≤ clock.maxTime)
    (positive : 0 < nEventPerThread) :
    ∃ threads whole, runEventBasis gate events clock interval nEventPerThread = some threads ∧
      kernel1All gate events clock interval interval = some whole ∧
      (EventCovers gate events clock interval nEventPerThread ↔
        LastThreadReaches gate events clock interval nEventPerThread) ∧
      (EventCovers gate events clock interval nEventPerThread ∧
          threadPowers clock threads = threadPowers clock [whole] ↔
        LastThreadReaches gate events clock interval nEventPerThread ∧
          ∀ cycle, eventStartShares gate events clock interval nEventPerThread cycle = 0) := by
  refine ⟨_, _, runEventBasis_eq loaded, kernel1All_eq loaded interval, eventCovers_iff loaded order positive, ?_⟩
  rw [eventCovers_iff loaded order positive]
  refine and_congr_right fun holds => ?_
  have reaches := (lastBoundary_eq_stop_iff loaded order positive).mpr holds
  have records := congrArg (List.filterMap (·.contribution)) (eventRecords_join loaded order reaches)
  rw [List.filterMap_flatMap] at records
  obtain ⟨chain, traces⟩ := eventWindows_join loaded order within reaches
  have first : interval.startTime clock ≤ clock.maxTime := startTime_le within order
  obtain ⟨chain', traces'⟩ := threadWindows_spec loaded interval order first
  have gateLeakage := (leakagePowers_chain clock chain traces).1.trans (leakagePowers_chain clock chain' traces').1.symm
  have cycles := eventWindows_shares loaded order within reaches
  have dynamic := congrArg (dynamicPowers clock) records
  simp only [threadPowers,List.flatMap_map,List.flatMap_singleton,threadResult,ThreadResult.contributions]
  have split : ∀ first second third fourth : PowerResult, first = second →
    (first + third = second + fourth ↔ third = fourth) :=
    fun first _ _ _ same => same ▸ add_right_inj first
  refine (split _ _ _ _ dynamic).trans ⟨fun same cycle => ?_, fun nothing => funext fun component =>
    funext fun entry => ?_⟩
  · have entry := congrFun (congrFun same .leakage) (some cycle)
    rw [leakagePowers_shares chain' cycle] at entry
    have windows := (leakagePowers_shares chain cycle).trans (cycles cycle)
    exact left_eq_add.mp (entry.symm.trans windows)
  · by_cases leaks : component = .leakage
    · subst leaks
      cases entry with
      | none => exact gateLeakage
      | some cycle =>
        rw [leakagePowers_shares chain' cycle]
        have windows := (leakagePowers_shares chain cycle).trans (cycles cycle)
        rwa [nothing cycle,add_zero] at windows
    · exact (leakagePowers_of_dynamic _ leaks entry).trans (leakagePowers_of_dynamic _ leaks entry).symm

theorem eventStartShares_eq_zero
    (exactly : ∀ thread < eventThreadCount gate nEventPerThread,
      (eventBoundary gate events clock interval nEventPerThread thread * clock.vcdTimeUnitPerCycle : Nat) *
      clock.vcdTimeScale < (eventBoundary gate events clock interval nEventPerThread thread + 1) * clock.clkPeriod)
    (cycle : Nat) :
    eventStartShares gate events clock interval nEventPerThread cycle = 0 := by
  refine List.sum_eq_zero fun share mem => ?_
  obtain ⟨thread, less, rfl⟩ := List.mem_map.mp mem
  have here := exactly thread (List.mem_range.mp less)
  have index : clock.clkedWaveformIdx (eventBoundary gate events clock interval nEventPerThread thread *
    clock.vcdTimeUnitPerCycle) =
      eventBoundary gate events clock interval nEventPerThread thread :=
    Nat.mul_div_cancel _ clock.vcdTimeUnitPerCycle_pos
  split
  · rw [backlog_eq_zero (by rw [index]; exact here),mul_zero]
  · rfl

/-- One pin that rises at 4, where the clock period is one and a half ticks. -/
def oddTickClock : Clock := { tenTickClock 6 with clkPeriod := 3 / 2, clkPeriod_pos := by norm_num }

def oddTickEvents (eventIdx : Nat) : Event := [⟨0, 0⟩, ⟨4, 1⟩].getD eventIdx ⟨0, 0⟩

def oddTickGate : Gate 1 := Gate.bare 1 fun _ => some ⟨0, 2⟩

/-- The second thread starts at tick 2, in cycle 1 by either index. -/
theorem eventPartition_agrees_oddTick :
    EventCovers oddTickGate oddTickEvents oddTickClock ⟨0, 3⟩ 1 ∧
    ∃ threads whole, runEventBasis oddTickGate oddTickEvents oddTickClock ⟨0, 3⟩ 1 = some threads ∧
      kernel1All oddTickGate oddTickEvents oddTickClock ⟨0, 3⟩ ⟨0, 3⟩ = some whole ∧
      threadPowers oddTickClock threads = threadPowers oddTickClock [whole] := by
  have loaded : Loaded oddTickGate oddTickEvents oddTickClock ⟨0, 3⟩ := by decide +kernel
  obtain ⟨threads, whole, run, single, -, agrees⟩ := eventPartition_agrees 1 loaded (by decide)
    (by decide +kernel) (by decide)
  have holds : LastThreadReaches oddTickGate oddTickEvents oddTickClock ⟨0, 3⟩ 1 := by decide +kernel
  obtain ⟨covers, same⟩ := agrees.mpr ⟨holds, eventStartShares_eq_zero (by decide +kernel)⟩
  exact ⟨covers, threads, whole, run, single, same⟩

/-- All six records lie in the first two of three cycles: a single thread takes them and the third cycle is lost. -/
theorem eventPartition_loses_cycle : Loaded twoCycleGate twoCycleEvents (tenTickClock 30) ⟨0, 3⟩ ∧
    (∀ thread < eventThreadCount twoCycleGate 6,
      (eventPeriods twoCycleGate twoCycleEvents (tenTickClock 30) ⟨0, 3⟩ 6 thread).stop ≤ 2) ∧
    (runEventBasis twoCycleGate twoCycleEvents (tenTickClock 30) ⟨0, 3⟩ 6).map
        (fun threads => threadPowers (tenTickClock 30) threads .leakage none) ≠
      (kernel1All twoCycleGate twoCycleEvents (tenTickClock 30) ⟨0, 3⟩ ⟨0, 3⟩).map
        fun whole => threadPowers (tenTickClock 30) [whole] .leakage none := by
  decide +kernel

end Results
end GTPower
