import GTPower.LeakageWindows
import GTPower.CyclePartition

/-! Leakage over a whole run. The dump is cut into slices whose records are loaded one after the other,
and each slice is shared out among threads. The windows tile the dump exactly when no slice before the
last one ends inside it: the last thread of a slice runs at least one tick past the slice. -/
namespace GTPower

/-- One slice of a run: its cycles, where the records of the pins were loaded, and the cycles a thread of
the gate takes. -/
structure Slice (n : Nat) where
  periods : Periods
  pinWaveforms : Fin n → Option WaveformRange
  events : Nat → Event
  nCyclePerThread : Nat

def Gate.onSlice (gate : Gate n) (slice : Slice n) : Gate n :=
  { gate with pinWaveforms := slice.pinWaveforms, nCyclePerThread := slice.nCyclePerThread }

@[simp] theorem Gate.onSlice_nCyclePerThread (gate : Gate n) (slice : Slice n) :
    (gate.onSlice slice).nCyclePerThread = slice.nCyclePerThread := rfl

section Run
variable (gate : Gate n) (clock : Clock)

def runSlice (slice : Slice n) : Option (List (ThreadResult n)) :=
  runCycleBasis (gate.onSlice slice) slice.events clock slice.periods

/-- The slices of a run in order, all windows together. -/
def runWindows (run : List (Slice n)) : Option (List Window) :=
  (run.mapM (runSlice gate clock)).map fun results => results.flatMap fun threads => threads.flatMap (·.windows)

/-- What the windows add to the leakage power of the gate. -/
def leakagePower (windows : List Window) : ℚ :=
  (windows.map fun window => window.value * ((window.stop : ℚ) - window.start) / clock.maxTime).sum

/-- Slices follow one another from the cycle `first`. -/
def Contiguous : Nat → List (Slice n) → Prop
  | _, [] => True
  | first, slice :: rest => slice.periods.start = first ∧ slice.periods.start < slice.periods.stop ∧
      Contiguous slice.periods.stop rest

def runEnd : Nat → List (Slice n) → Nat
  | first, [] => first
  | _, slice :: rest => runEnd slice.periods.stop rest

/-- A slice holds the records of its pins, and they give the pin states of its ticks. -/
structure SliceLoaded (states : Nat → Fin n → Int) (slice : Slice n) : Prop where
  loaded : Loaded (gate.onSlice slice) slice.events clock slice.periods
  perThread : 0 < slice.nCyclePerThread
  follows : ∀ tick, slice.periods.startTime clock ≤ tick →
    tick < slice.periods.stop * clock.vcdTimeUnitPerCycle →
    tickStates (gate.onSlice slice) slice.events tick = states tick

structure RunLoaded (states : Nat → Fin n → Int) (run : List (Slice n)) : Prop where
  contiguous : Contiguous 0 run
  covers : clock.maxTime ≤ runEnd 0 run * clock.vcdTimeUnitPerCycle
  each : ∀ slice ∈ run, SliceLoaded gate clock states slice

/-- Every instant of the dump lies in one window, no window runs backward, and the leakage is the
average over the instants. -/
structure TilesDump (states : Nat → Fin n → Int) (windows : List Window) : Prop where
  once : ∀ instant < clock.maxTime, Timeline.covering instant windows = 1
  forward : ∀ window ∈ windows, window.start ≤ window.stop
  average : leakagePower clock windows =
    (∑ instant ∈ Finset.range clock.maxTime, gate.findLeakageVal (states instant)) / clock.maxTime

/-- No slice with a successor ends inside the dump, and no thread starts after it. -/
structure StaysInside (run : List (Slice n)) : Prop where
  ends : ∀ front slice next rest, run = front ++ slice :: next :: rest →
    clock.maxTime ≤ slice.periods.stop * clock.vcdTimeUnitPerCycle
  starts : ∀ slice ∈ run, ∀ thread < cycleThreadCount (gate.onSlice slice) slice.periods,
    (cyclePeriods (gate.onSlice slice) slice.periods thread).startTime clock ≤ clock.maxTime

def sliceWindows (slice : Slice n) : List Window :=
  (List.range (cycleThreadCount (gate.onSlice slice) slice.periods)).flatMap fun thread =>
    threadWindows (gate.onSlice slice) slice.events clock slice.periods
      (cyclePeriods (gate.onSlice slice) slice.periods thread)

end Run

section Join
variable {gate : Gate n} {events : Nat → Event} {clock : Clock} {interval : Periods}

theorem threadWindows_spec (loaded : Loaded gate events clock interval) (periods : Periods)
    (order : periods.start < periods.stop) (begun : periods.startTime clock ≤ clock.maxTime) :
    Timeline.Chain (periods.startTime clock) (threadWindows gate events clock interval periods)
      (min (periods.endTime interval clock) clock.maxTime) ∧
    Timeline.Traces (tickLeakage gate events) (threadWindows gate events clock interval periods) := by
  have lower : periods.startTime clock ≤ periods.endTime interval clock :=
    Nat.le_trans (Nat.mul_le_mul_right _ (Nat.le_of_lt order)) (Nat.le_add_right _ _)
  simp only [threadWindows,Nat.ne_of_lt order,if_false]
  exact windowsBetween_spec loaded (Nat.le_min.mpr ⟨lower, begun⟩)

theorem threadWindows_join (loaded : Loaded gate events clock interval) (bounds : Nat → Nat) (threads : Nat)
    (order : ∀ t < threads, bounds t ≤ bounds (t + 1))
    (inner : ∀ t < threads, bounds t < bounds (t + 1) → bounds t < interval.stop)
    (begun : ∀ t < threads, bounds t < bounds (t + 1) → bounds t * clock.vcdTimeUnitPerCycle ≤ clock.maxTime) :
    let windows := (List.range threads).flatMap fun t =>
      threadWindows gate events clock interval ⟨bounds t, bounds (t + 1)⟩
    bounds 0 ≤ bounds threads ∧ (bounds 0 = bounds threads → windows = []) ∧
    (bounds 0 < bounds threads →
      Timeline.Chain (bounds 0 * clock.vcdTimeUnitPerCycle) windows
        (min ((⟨bounds 0, bounds threads⟩ : Periods).endTime interval clock) clock.maxTime) ∧
      Timeline.Traces (tickLeakage gate events) windows) := by
  induction threads with
  | zero => exact ⟨Nat.le_refl _, fun _ => rfl, fun less => absurd less (Nat.lt_irrefl _)⟩
  | succ threads ih =>
    obtain ⟨lower, none, chained⟩ := ih (fun t less => order t (by omega)) (fun t less => inner t (by omega))
      (fun t less => begun t (by omega))
    have last := order threads (by omega)
    simp only [List.range_succ,List.flatMap_append,List.flatMap_singleton]
    refine ⟨Nat.le_trans lower last, fun same => ?_, fun more => ?_⟩
    · have stay : bounds threads = bounds (threads + 1) := by omega
      simp only [none (by omega)]
      simp [threadWindows,stay]
    rcases Nat.eq_or_lt_of_le last with stay | moves
    · obtain ⟨chain, traces⟩ := chained (by omega)
      simp only [← stay] at chain ⊢
      simpa [threadWindows] using And.intro chain traces
    have early := inner threads (by omega) moves
    have started := begun threads (by omega) moves
    obtain ⟨chain, traces⟩ := threadWindows_spec loaded ⟨bounds threads, bounds (threads + 1)⟩ moves started
    rcases Nat.eq_or_lt_of_le lower with same | before
    · simp only [none same,List.nil_append]
      rw [same]
      exact ⟨chain, traces⟩
    · obtain ⟨front, traces'⟩ := chained before
      have joint : min ((⟨bounds 0, bounds threads⟩ : Periods).endTime interval clock) clock.maxTime =
          bounds threads * clock.vcdTimeUnitPerCycle := by
        simp only [Periods.endTime,Nat.ne_of_lt early,if_false,Nat.add_zero]
        exact Nat.min_eq_left started
      rw [joint] at front
      exact ⟨front.append chain, Timeline.traces_append.mpr ⟨traces', traces⟩⟩

end Join

section Slices
variable {gate : Gate n} {clock : Clock} {states : Nat → Fin n → Int}

theorem runWindows_eq (loaded : ∀ slice ∈ run, SliceLoaded gate clock states slice) :
    runWindows gate clock run = some (run.flatMap (sliceWindows gate clock)) := by
  have results : run.mapM (runSlice gate clock) = some (run.map fun slice =>
      (List.range (cycleThreadCount (gate.onSlice slice) slice.periods)).map fun thread =>
        threadResult (gate.onSlice slice) slice.events clock slice.periods
          (cyclePeriods (gate.onSlice slice) slice.periods thread)) := by
    induction run with
    | nil => rfl
    | cons slice rest ih =>
      have head : runSlice gate clock slice = _ := runCycleBasis_eq (loaded slice (List.mem_cons_self ..)).loaded
      rw [List.mapM_cons,head,ih fun other mem => loaded other (List.mem_cons_of_mem _ mem)]
      rfl
  rw [runWindows,results,Option.map_some,List.flatMap_map]
  simp only [List.flatMap_map]
  rfl

theorem cyclePeriods_last (gate : Gate n) (perThread : 0 < slice.nCyclePerThread)
    (order : slice.periods.start < slice.periods.stop) :
    let threads := cycleThreadCount (Gate.onSlice gate slice) slice.periods
    0 < threads ∧ (threads - 1) * slice.nCyclePerThread + slice.periods.start < slice.periods.stop ∧
    slice.periods.stop ≤ threads * slice.nCyclePerThread + slice.periods.start := by
  obtain ⟨least, last, cover⟩ := ceilDiv_bounds perThread (by omega : 0 < slice.periods.stop - slice.periods.start)
  simp only [cycleThreadCount,Gate.onSlice_nCyclePerThread]
  omega

theorem endTime_after (clock : Clock) {interval periods : Periods} (reach : interval.stop ≤ periods.stop) :
    interval.stop * clock.vcdTimeUnitPerCycle < periods.endTime interval clock := by
  have unit := clock.vcdTimeUnitPerCycle_pos
  simp only [Periods.endTime]
  rcases Nat.eq_or_lt_of_le reach with same | more
  · rw [if_pos same.symm,← same]; omega
  · have := Nat.mul_lt_mul_of_pos_right more unit
    omega

theorem sliceWindows_spec (held : SliceLoaded gate clock states slice)
    (order : slice.periods.start < slice.periods.stop)
    (begun : ∀ thread < cycleThreadCount (gate.onSlice slice) slice.periods,
      (cyclePeriods (gate.onSlice slice) slice.periods thread).startTime clock ≤ clock.maxTime) :
    ∃ stop, slice.periods.stop * clock.vcdTimeUnitPerCycle < stop ∧
      Timeline.Chain (slice.periods.startTime clock) (sliceWindows gate clock slice) (min stop clock.maxTime) ∧
      Timeline.Traces (tickLeakage (gate.onSlice slice) slice.events) (sliceWindows gate clock slice) := by
  obtain ⟨least, last, cover⟩ := cyclePeriods_last gate held.perThread order
  obtain ⟨-, -, chained⟩ := threadWindows_join held.loaded
    (fun t => t * slice.nCyclePerThread + slice.periods.start)
    (cycleThreadCount (gate.onSlice slice) slice.periods)
    (fun t _ => Nat.add_le_add_right (Nat.mul_le_mul_right _ (Nat.le_succ t)) _)
    (fun t less _ => by
      have : t * slice.nCyclePerThread ≤
          (cycleThreadCount (gate.onSlice slice) slice.periods - 1) * slice.nCyclePerThread :=
        Nat.mul_le_mul_right _ (by omega)
      omega)
    (fun t less _ => begun t less)
  simp only [Nat.zero_mul,Nat.zero_add] at chained
  obtain ⟨chain, traces⟩ := chained (by omega)
  exact ⟨_, endTime_after clock cover, chain, traces⟩

/-- A slice that ends inside the dump has a window over its first tick and one over the tick after its
last one. -/
theorem covering_sliceWindows (held : SliceLoaded gate clock states slice)
    (order : slice.periods.start < slice.periods.stop) :
    (slice.periods.startTime clock < clock.maxTime →
      1 ≤ Timeline.covering (slice.periods.startTime clock) (sliceWindows gate clock slice)) ∧
    (slice.periods.stop * clock.vcdTimeUnitPerCycle < clock.maxTime →
      1 ≤ Timeline.covering (slice.periods.stop * clock.vcdTimeUnitPerCycle) (sliceWindows gate clock slice)) := by
  obtain ⟨least, last, cover⟩ := cyclePeriods_last gate held.perThread order
  have unit := clock.vcdTimeUnitPerCycle_pos
  have one : ∀ thread < cycleThreadCount (gate.onSlice slice) slice.periods, ∀ instant,
      (cyclePeriods (gate.onSlice slice) slice.periods thread).startTime clock ≤ instant →
      instant < (cyclePeriods (gate.onSlice slice) slice.periods thread).endTime slice.periods clock →
      instant < clock.maxTime → 1 ≤ Timeline.covering instant (sliceWindows gate clock slice) := by
    intro thread inside instant low high bound
    have grows : (cyclePeriods (gate.onSlice slice) slice.periods thread).start <
        (cyclePeriods (gate.onSlice slice) slice.periods thread).stop := by
      simp only [cyclePeriods,Gate.onSlice_nCyclePerThread,Nat.succ_mul]
      have := held.perThread
      omega
    obtain ⟨chain, -⟩ := threadWindows_spec held.loaded _ grows (by omega)
    have here := chain.covering instant
    rw [if_pos ⟨low, Nat.lt_min.mpr ⟨high, bound⟩⟩] at here
    rw [sliceWindows,Timeline.covering_flatMap]
    have mem : 1 ∈ (List.range (cycleThreadCount (gate.onSlice slice) slice.periods)).map fun thread =>
        Timeline.covering instant (threadWindows (gate.onSlice slice) slice.events clock slice.periods
          (cyclePeriods (gate.onSlice slice) slice.periods thread)) :=
      List.mem_map.mpr ⟨thread, List.mem_range.mpr inside, here⟩
    exact List.le_sum_of_mem mem
  constructor
  · intro bound
    refine one 0 least _ (by simp [cyclePeriods,Periods.startTime]) ?_ bound
    refine Nat.lt_of_lt_of_le (Nat.mul_lt_mul_of_pos_right ?_ unit) (Nat.le_add_right _ _)
    have := held.perThread
    simp only [cyclePeriods,Gate.onSlice_nCyclePerThread]
    omega
  · intro bound
    refine one (cycleThreadCount (gate.onSlice slice) slice.periods - 1) (by omega) _ ?_ ?_ bound
    · exact Nat.mul_le_mul_right _ (Nat.le_of_lt last)
    · refine endTime_after clock ?_
      simp only [cyclePeriods,Gate.onSlice_nCyclePerThread]
      rw [Nat.sub_add_cancel least]
      exact cover

/-- A thread that starts after the dump has a window that runs backward. -/
theorem backward_window (held : SliceLoaded gate clock states slice)
    (inside : thread < cycleThreadCount (gate.onSlice slice) slice.periods)
    (late : clock.maxTime < (cyclePeriods (gate.onSlice slice) slice.periods thread).startTime clock) :
    ∃ window ∈ sliceWindows gate clock slice, ¬ window.start ≤ window.stop := by
  have differ : (cyclePeriods (gate.onSlice slice) slice.periods thread).start ≠
      (cyclePeriods (gate.onSlice slice) slice.periods thread).stop := by
    simp only [cyclePeriods,Gate.onSlice_nCyclePerThread,Nat.succ_mul]
    have := held.perThread
    omega
  obtain ⟨window, single, back⟩ : ∃ window : Window, threadWindows (gate.onSlice slice) slice.events clock
      slice.periods (cyclePeriods (gate.onSlice slice) slice.periods thread) = [window] ∧
      ¬ window.start ≤ window.stop := by
    refine ⟨_, by simp only [threadWindows,differ,if_false]; exact windowsBetween_after held.loaded late, ?_⟩
    simp only
    omega
  refine ⟨window, List.mem_flatMap.mpr ⟨thread, List.mem_range.mpr inside, ?_⟩, back⟩
  rw [single]
  exact List.mem_singleton.mpr rfl

end Slices

section Runs
variable {gate : Gate n} {clock : Clock} {states : Nat → Fin n → Int} {run : List (Slice n)}

theorem Contiguous.of_mem (contiguous : Contiguous first run) (mem : slice ∈ run) :
    first ≤ slice.periods.start ∧ slice.periods.start < slice.periods.stop := by
  induction run generalizing first with
  | nil => cases mem
  | cons head rest ih =>
    obtain ⟨here, order, later⟩ := contiguous
    rcases List.mem_cons.mp mem with rfl | mem
    · exact ⟨Nat.le_of_eq here.symm, order⟩
    · have := ih later mem
      omega

theorem Contiguous.adjacent (front : List (Slice n))
    (contiguous : Contiguous first (front ++ slice :: next :: rest)) :
    next.periods.start = slice.periods.stop := by
  induction front generalizing first with
  | nil => exact contiguous.2.2.1
  | cons head front ih => exact ih contiguous.2.2

theorem leakagePower_eq (clock : Clock) (windows : List Window) :
    leakagePower clock windows = Timeline.integral windows / clock.maxTime := by
  simp only [leakagePower,Timeline.integral,div_eq_mul_inv]
  rw [List.sum_map_mul_right]

/-- The tick after a slice that ends inside the dump is covered by its last thread and by the first
thread of the next slice. -/
theorem covered_twice (loaded : RunLoaded gate clock states (front ++ slice :: next :: rest))
    (ends : slice.periods.stop * clock.vcdTimeUnitPerCycle < clock.maxTime) :
    2 ≤ Timeline.covering (slice.periods.stop * clock.vcdTimeUnitPerCycle)
      ((front ++ slice :: next :: rest).flatMap (sliceWindows gate clock)) := by
  have memSlice : slice ∈ front ++ slice :: next :: rest := by simp
  have memNext : next ∈ front ++ slice :: next :: rest := by simp
  have last := (covering_sliceWindows (loaded.each slice memSlice) (loaded.contiguous.of_mem memSlice).2).2 ends
  have joint := loaded.contiguous.adjacent
  have first := (covering_sliceWindows (loaded.each next memNext) (loaded.contiguous.of_mem memNext).2).1
  simp only [Periods.startTime,joint] at first
  have := first ends
  simp only [List.flatMap_append,List.flatMap_cons,Timeline.covering_append]
  omega

theorem StaysInside.chain (loaded : RunLoaded gate clock states run) (inside : StaysInside gate clock run) :
    Timeline.Chain 0 (run.flatMap (sliceWindows gate clock)) clock.maxTime ∧
    Timeline.Traces (fun instant => gate.findLeakageVal (states instant)) (run.flatMap (sliceWindows gate clock)) := by
  cases run with
  | nil =>
    have none : clock.maxTime = 0 := by simpa [runEnd] using loaded.covers
    rw [none]
    exact ⟨.nil, fun span mem => by cases mem⟩
  | cons slice rest =>
    have held := loaded.each slice (List.mem_cons_self ..)
    obtain ⟨first, order, later⟩ := loaded.contiguous
    obtain ⟨stop, past, chain, traces⟩ := sliceWindows_spec held order (inside.starts slice (List.mem_cons_self ..))
    have reach : clock.maxTime ≤ slice.periods.stop * clock.vcdTimeUnitPerCycle := by
      cases rest with
      | nil => exact loaded.covers
      | cons next rest => exact inside.ends [] slice next rest rfl
    rw [Nat.min_eq_right (by omega),Periods.startTime,first,Nat.zero_mul] at chain
    have idle : ∀ other ∈ rest, Timeline.Chain clock.maxTime (sliceWindows gate clock other) clock.maxTime := by
      intro other mem
      obtain ⟨after, ordered⟩ := later.of_mem mem
      have started := inside.starts other (List.mem_cons_of_mem _ mem)
      have held := loaded.each other (List.mem_cons_of_mem _ mem)
      obtain ⟨least, -, -⟩ := cyclePeriods_last gate held.perThread ordered
      have begin := started 0 least
      simp only [cyclePeriods,Periods.startTime,Nat.zero_mul,Nat.zero_add] at begin
      have low := Nat.mul_le_mul_right clock.vcdTimeUnitPerCycle after
      have high := Nat.mul_le_mul_right clock.vcdTimeUnitPerCycle (Nat.le_of_lt ordered)
      obtain ⟨stop, past, chain, -⟩ := sliceWindows_spec held ordered started
      rw [Nat.min_eq_right (by omega),Periods.startTime,Nat.le_antisymm begin (by omega)] at chain
      exact chain
    have tail := Timeline.Chain.flatMap_self idle
    rw [List.flatMap_cons]
    refine ⟨chain.append tail, Timeline.traces_append.mpr ⟨?_, tail.traces_self _⟩⟩
    intro span mem instant low high
    obtain ⟨-, -, bound⟩ := chain.inside mem
    rw [← traces span mem instant low high,tickLeakage,
      held.follows instant (by simp [Periods.startTime,first]) (by omega)]
    rfl

/-- The windows of a run tile the dump exactly when the slices before the last one end after it. -/
theorem leakage_tiles_iff (loaded : RunLoaded gate clock states run) :
    ∃ windows, runWindows gate clock run = some windows ∧
      (TilesDump gate clock states windows ↔ StaysInside gate clock run) := by
  refine ⟨_, runWindows_eq loaded.each, fun tiles => ⟨?_, ?_⟩, fun inside => ?_⟩
  · rintro front slice next rest rfl
    by_contra ends
    have twice := covered_twice loaded (by omega)
    have once := tiles.once (slice.periods.stop * clock.vcdTimeUnitPerCycle) (by omega)
    omega
  · intro slice mem thread less
    by_contra late
    obtain ⟨window, member, back⟩ := backward_window (loaded.each slice mem) less (by omega)
    exact back (tiles.forward window (List.mem_flatMap.mpr ⟨slice, mem, member⟩))
  · obtain ⟨chain, traces⟩ := inside.chain loaded
    refine ⟨fun instant bound => ?_, fun window mem => (chain.inside mem).2.1, ?_⟩
    · rw [chain.covering,if_pos ⟨Nat.zero_le _, bound⟩]
    · rw [leakagePower_eq,chain.integral traces,Nat.Ico_zero_eq_range]

/-- A gate with one pin and no activity, and a dump of 15 ticks with cycles of 10. -/
def idleSlice (periods : Periods) : Slice 1 := ⟨periods, fun _ => none, fun _ => ⟨0, 0⟩, 1⟩

def idleGate : Gate 1 := Gate.bare 1 fun _ => none

theorem idleSlice_loaded (periods : Periods) :
    SliceLoaded idleGate (tenTickClock 15) (fun _ _ => 2) (idleSlice periods) :=
  ⟨fun _ _ waveform => (by cases waveform), Nat.one_pos, fun _ _ _ => rfl⟩

theorem leakage_tiles_iff_idle :
    ∃ windows, runWindows idleGate (tenTickClock 15) [idleSlice ⟨0, 2⟩] = some windows ∧
      (TilesDump idleGate (tenTickClock 15) (fun _ _ => 2) windows ↔
        StaysInside idleGate (tenTickClock 15) [idleSlice ⟨0, 2⟩]) :=
  leakage_tiles_iff ⟨by simp [Contiguous,idleSlice], by decide +kernel,
    fun slice mem => by rw [List.mem_singleton.mp mem]; exact idleSlice_loaded _⟩

/-- Cut after its first cycle, the same dump has tick 10 in two windows. -/
theorem leakage_counted_twice :
    RunLoaded idleGate (tenTickClock 15) (fun _ _ => 2) [idleSlice ⟨0, 1⟩, idleSlice ⟨1, 2⟩] ∧
    ∃ windows, runWindows idleGate (tenTickClock 15) [idleSlice ⟨0, 1⟩, idleSlice ⟨1, 2⟩] = some windows ∧
      Timeline.covering 10 windows = 2 ∧ leakagePower (tenTickClock 15) windows = 16 / 15 ∧
      ¬ TilesDump idleGate (tenTickClock 15) (fun _ _ => 2) windows := by
  have run : runWindows idleGate (tenTickClock 15) [idleSlice ⟨0, 1⟩, idleSlice ⟨1, 2⟩] =
      some [⟨0, 11, 1⟩, ⟨10, 15, 1⟩] := by decide +kernel
  have twice : Timeline.covering 10 [(⟨0, 11, 1⟩ : Window), ⟨10, 15, 1⟩] = 2 := by decide
  refine ⟨⟨by simp [Contiguous,idleSlice], by decide +kernel, ?_⟩, _, run, twice, ?_, fun tiles => ?_⟩
  · intro slice mem
    simp only [List.mem_cons,List.not_mem_nil,or_false] at mem
    rcases mem with rfl | rfl <;> exact idleSlice_loaded _
  · norm_num [leakagePower,tenTickClock]
  · have := tiles.once 10 (by decide)
    omega

end Runs
end GTPower
