import GTPower.CpuEngine
import GTPower.CycleLeakage
import GTPower.EventPartition
import GTPower.FloatRounding
import GTPower.SeparateAgree

/-! Sizes of the waveforms per cycle against the cycles that are written, with times and periods in the floating point
of the code: double precision on the CPU, single precision on the device, and a period in single precision on both.
Results that are too large or too small for the exponents are left out. -/
namespace GTPower

open FloatRounding (single double roundTo_mono roundTo_pos)

namespace FloatClock
variable (clock : Clock)

def clkPeriod : ℚ := single clock.clkPeriod

/-- The tick of the dump, and what the device and the raster take it to be. -/
def vcdTimeScale : ℚ := double clock.vcdTimeScale

def deviceTimeScale : ℚ := single (vcdTimeScale clock)

def vcdTimeUnitPerCycle : Nat := (Rat.ceil (single (clkPeriod clock / deviceTimeScale clock))).toNat

def hostNPeriod : Nat :=
  (Rat.ceil (double (double (double clock.maxTime * vcdTimeScale clock) / clkPeriod clock))).toNat

def deviceNPeriod : Nat := ceilDiv clock.maxTime (vcdTimeUnitPerCycle clock)

/-- The tests of the loops over a window: a cycle begins at or before a time. -/
def HostBegins (cycle time : Nat) : Prop :=
  double (double cycle * clkPeriod clock) ≤ double (double time * vcdTimeScale clock)

def DeviceBegins (cycle time : Nat) : Prop :=
  single (single cycle * clkPeriod clock) ≤ single (single time * deviceTimeScale clock)

instance (cycle time : Nat) : Decidable (HostBegins clock cycle time) := inferInstanceAs (Decidable (_ ≤ _))

instance (cycle time : Nat) : Decidable (DeviceBegins clock cycle time) := inferInstanceAs (Decidable (_ ≤ _))

variable {clock}

theorem single_pos (positive : 0 < x) : 0 < single x := roundTo_pos (by decide) positive

theorem single_mono (nonneg : 0 ≤ x) (order : x ≤ y) : single x ≤ single y := roundTo_mono (by decide) nonneg order

theorem double_pos (positive : 0 < x) : 0 < double x := roundTo_pos (by decide) positive

theorem double_mono (nonneg : 0 ≤ x) (order : x ≤ y) : double x ≤ double y := roundTo_mono (by decide) nonneg order

theorem clkPeriod_pos (clock : Clock) : 0 < clkPeriod clock := single_pos clock.clkPeriod_pos

theorem vcdTimeScale_pos (clock : Clock) : 0 < vcdTimeScale clock := double_pos clock.vcdTimeScale_pos

theorem deviceTimeScale_pos (clock : Clock) : 0 < deviceTimeScale clock := single_pos (vcdTimeScale_pos clock)

theorem vcdTimeUnitPerCycle_pos (clock : Clock) : 0 < vcdTimeUnitPerCycle clock := by
  have ratio := single_pos (div_pos (clkPeriod_pos clock) (deviceTimeScale_pos clock))
  have positive : 0 < (single (clkPeriod clock / deviceTimeScale clock)).ceil :=
    Rat.lt_ceil_iff.mpr (by exact_mod_cast ratio)
  simp only [vcdTimeUnitPerCycle]
  omega

theorem HostBegins.mono (begins : HostBegins clock cycle time) (earlier : cycle' ≤ cycle) (later : time ≤ time') :
    HostBegins clock cycle' time' := by
  have period := le_of_lt (clkPeriod_pos clock)
  have scale := le_of_lt (vcdTimeScale_pos clock)
  have product : ∀ {small large : Nat} {factor : ℚ}, 0 ≤ factor → small ≤ large →
      double (double small * factor) ≤ double (double large * factor) := fun {small large factor} nonneg order => by
    have zero : (0 : ℚ) ≤ double small := by
      have := double_mono (le_refl 0) (Nat.cast_nonneg (α := ℚ) small)
      rwa [double,FloatRounding.roundTo_zero] at this
    refine double_mono (mul_nonneg zero nonneg) (mul_le_mul_of_nonneg_right ?_ nonneg)
    exact double_mono (Nat.cast_nonneg _) (Nat.cast_le.mpr order)
  exact le_trans (product period earlier) (le_trans begins (product scale later))

theorem DeviceBegins.mono (begins : DeviceBegins clock cycle time) (earlier : cycle' ≤ cycle) (later : time ≤ time') :
    DeviceBegins clock cycle' time' := by
  have period := le_of_lt (clkPeriod_pos clock)
  have scale := le_of_lt (deviceTimeScale_pos clock)
  have product : ∀ {small large : Nat} {factor : ℚ}, 0 ≤ factor → small ≤ large →
      single (single small * factor) ≤ single (single large * factor) := fun {small large factor} nonneg order => by
    have zero : (0 : ℚ) ≤ single small := by
      have := single_mono (le_refl 0) (Nat.cast_nonneg (α := ℚ) small)
      rwa [single,FloatRounding.roundTo_zero] at this
    refine single_mono (mul_nonneg zero nonneg) (mul_le_mul_of_nonneg_right ?_ nonneg)
    exact single_mono (Nat.cast_nonneg _) (Nat.cast_le.mpr order)
  exact le_trans (product period earlier) (le_trans begins (product scale later))

/-- A run takes from the period no more than the ticks of a cycle: the clock with a period of so many ticks. -/
def counted (clock : Clock) : Clock :=
  { clock with
    clkPeriod := vcdTimeUnitPerCycle clock * clock.vcdTimeScale
    clkPeriod_pos := mul_pos (Nat.cast_pos.mpr (vcdTimeUnitPerCycle_pos clock)) clock.vcdTimeScale_pos }

theorem counted_unit (clock : Clock) : (counted clock).vcdTimeUnitPerCycle = vcdTimeUnitPerCycle clock := by
  have ticks : ((vcdTimeUnitPerCycle clock : ℚ)).ceil = vcdTimeUnitPerCycle clock := by
    exact_mod_cast Rat.ceil_intCast (vcdTimeUnitPerCycle clock)
  simp only [Clock.vcdTimeUnitPerCycle,counted]
  rw [mul_div_cancel_right₀ _ (ne_of_gt clock.vcdTimeScale_pos),ticks]
  rfl

end FloatClock

open FloatClock (counted HostBegins DeviceBegins)

section Sizes
variable (clock : Clock)

/-- The loop over a window gets to a cycle: from the cycle of its start on all begin by its end. -/
def Visits (begins : Nat → Nat → Prop) (window : Window) (cycle : Nat) : Prop :=
  (counted clock).clkedWaveformIdx window.start ≤ cycle ∧
    ∀ visited < cycle + 1, (counted clock).clkedWaveformIdx window.start ≤ visited → begins visited window.stop

instance (begins : Nat → Nat → Prop) [DecidableRel begins] (window : Window) (cycle : Nat) :
    Decidable (Visits clock begins window cycle) := inferInstanceAs (Decidable (_ ∧ _))

def HostRun.Writes (run : HostRun n) (idx : Nat) : Prop :=
  (∃ added ∈ run.contributions, added.cycleIdx = idx) ∨
    ∃ window ∈ run.windows, Visits clock (HostBegins clock) window idx

instance (run : HostRun n) (idx : Nat) : Decidable (run.Writes clock idx) := inferInstanceAs (Decidable (_ ∨ _))

def ThreadResult.Writes (result : ThreadResult n) (idx : Nat) : Prop :=
  (∃ added ∈ result.contributions, added.cycleIdx = idx) ∨
    ∃ window ∈ result.windows, Visits clock (DeviceBegins clock) window idx

instance (result : ThreadResult n) (idx : Nat) : Decidable (result.Writes clock idx) :=
  inferInstanceAs (Decidable (_ ∨ _))

/-- The threads of a kernel end and write below a size. -/
def WriteBelow (threads : Option (List α)) (writes : α → Nat → Prop) (size : Nat) : Prop :=
  ∃ results, threads = some results ∧ ∀ result ∈ results, ∀ idx, writes result idx → idx < size

variable (gate : Gate n) (slice : Slice n) (nEventPerThread : Nat)

/-- The kernels write below a size in a slice: the fused one with threads by cycles or by events, the dynamic one and
the leakage one. -/
structure SliceBelow (size : Nat) : Prop where
  cycleBasis : WriteBelow (runSlice gate (counted clock) slice) (ThreadResult.Writes clock) size
  eventBasis : WriteBelow (runEventBasis (gate.onSlice slice) slice.events (counted clock) slice.periods
    nEventPerThread)
    (ThreadResult.Writes clock) size
  dynamic : ∀ added ∈ runDynamic (gate.onSlice slice) slice.events (counted clock) slice.periods, added.cycleIdx < size
  leakage : WriteBelow (runLeakage (gate.onSlice slice) slice.events (counted clock) slice.periods)
    (fun windows idx => ∃ window ∈ windows, Visits clock (DeviceBegins clock) window idx) size

/-- The records of every slice of a run are loaded, and the slices cover the dump. -/
structure RunCovers (run : List (Slice n)) : Prop where
  contiguous : Contiguous 0 run
  covers : clock.maxTime ≤ runEnd 0 run * (counted clock).vcdTimeUnitPerCycle
  loaded : ∀ slice ∈ run, Loaded (gate.onSlice slice) slice.events (counted clock) slice.periods
  perThread : ∀ slice ∈ run, 0 < slice.nCyclePerThread

/-- No event of the gate is behind the ticks of the entries on the CPU, and the cycle behind them has not begun. -/
structure HostFits {κ α : Type} (gate : HostGate κ α n) : Prop where
  toggles : ∀ pin k, 1 ≤ k → k < gate.nEvent pin →
    gate.eventTime pin k < FloatClock.hostNPeriod clock * FloatClock.vcdTimeUnitPerCycle clock
  last : ¬ HostBegins clock (FloatClock.hostNPeriod clock) clock.maxTime

/-- The same on the device, for the toggles of the slices. -/
structure DeviceFits (run : List (Slice n)) : Prop where
  toggles : ∀ slice ∈ run, ∀ pin range k, (gate.onSlice slice).pinWaveforms pin = some range → range.start < k →
    k < range.stop →
    slice.periods.startTime (counted clock) ≤ (slice.events k).time → togglesAt slice.events k →
      (slice.events k).time < FloatClock.deviceNPeriod clock * FloatClock.vcdTimeUnitPerCycle clock
  last : ¬ DeviceBegins clock (FloatClock.deviceNPeriod clock) clock.maxTime

end Sizes

section Host
variable {κ α : Type} {gate : HostGate κ α n} {clock : Clock}

theorem idx_lt_iff (clock : Clock) : (counted clock).clkedWaveformIdx time < size ↔
    time < size * FloatClock.vcdTimeUnitPerCycle clock := by
  rw [Clock.clkedWaveformIdx_lt_iff,FloatClock.counted_unit]

theorem visits_lt {begins : Nat → Nat → Prop}
    (mono : ∀ {cycle time cycle' time'}, begins cycle time → cycle' ≤ cycle → time ≤ time' → begins cycle' time')
    (last : ¬ begins size maxTime) (inside : window.stop ≤ maxTime) (visits : Visits clock begins window idx) :
    idx < size := by
  by_contra beyond
  exact last (mono (visits.2 idx (Nat.lt_succ_self _) visits.1) (Nat.le_of_not_lt beyond) inside)

theorem visits_of_begins {begins : Nat → Nat → Prop}
    (mono : ∀ {cycle time cycle' time'}, begins cycle time → cycle' ≤ cycle → time ≤ time' → begins cycle' time')
    (stop : window.stop = maxTime) (low : (counted clock).clkedWaveformIdx window.start ≤ size)
    (last : begins size maxTime) :
    Visits clock begins window size :=
  ⟨low, fun _ before _ => stop ▸ mono last (Nat.le_of_lt_succ before) (Nat.le_refl _)⟩

theorem hostWrites_iff (dumped : gate.Dumped (counted clock))
    (ran : gate.findTimeBasedAllPower (counted clock) = some run) :
    (∀ idx, run.Writes clock idx → idx < FloatClock.hostNPeriod clock) ↔ HostFits clock gate := by
  obtain ⟨st, final, started, finished, known, attained, rfl⟩ := HostGate.finished_of_run dumped ran
  obtain ⟨chain, -⟩ := finished.chain dumped started
  have accounts := finished.accounts dumped started known
  have booked : ∀ pin k, 1 ≤ k → k < gate.nEvent pin → ∃ added ∈ final.contributions,
      added.cycleIdx = (counted clock).clkedWaveformIdx (gate.eventTime pin k) := by
    intro pin k later inside
    obtain ⟨added, mem, key⟩ := List.mem_map.mp ((accounts.every pin k).mpr ⟨later, inside⟩)
    obtain ⟨rfl, rfl⟩ := Prod.mk.inj key
    exact ⟨added, mem, (HostGate.toggle_fields (accounts.evaluated added mem)).2.2.2⟩
  constructor
  · intro below
    have toggles : ∀ pin k, 1 ≤ k → k < gate.nEvent pin →
        gate.eventTime pin k < FloatClock.hostNPeriod clock * FloatClock.vcdTimeUnitPerCycle clock := by
      intro pin k later inside
      obtain ⟨added, mem, cycle⟩ := booked pin k later inside
      have := below _ (Or.inl ⟨added, mem, rfl⟩)
      rw [cycle] at this
      exact (idx_lt_iff clock).mp this
    refine ⟨toggles, fun begins => ?_⟩
    -- the last window starts at 0 or at an event, so no later than the cycle behind the entries
    have start : (counted clock).clkedWaveformIdx final.prevTime ≤ FloatClock.hostNPeriod clock := by
      rcases attained with zero | ⟨pin, k, later, inside, time⟩
      · rw [zero,Clock.clkedWaveformIdx,Nat.zero_div]
        exact Nat.zero_le _
      · rw [← time]
        exact Nat.le_of_lt ((idx_lt_iff clock).mpr (toggles pin k later inside))
    have visits : Visits clock (FloatClock.HostBegins clock) ⟨final.prevTime, clock.maxTime,
      gate.findLeakageVal final.prevPinStates⟩ _ :=
      visits_of_begins FloatClock.HostBegins.mono rfl start begins
    exact lt_irrefl _ (below _ (Or.inr ⟨_, List.mem_append_right _ (List.mem_singleton_self _), visits⟩))
  · rintro ⟨toggles, last⟩ idx (⟨added, mem, rfl⟩ | ⟨window, mem, visits⟩)
    · have inside := (accounts.every added.pin added.eventIdx).mp (List.mem_map.mpr ⟨added, mem, rfl⟩)
      rw [(HostGate.toggle_fields (accounts.evaluated added mem)).2.2.2]
      exact (idx_lt_iff clock).mpr (toggles _ _ inside.1 inside.2)
    · exact visits_lt FloatClock.HostBegins.mono last (chain.inside mem).2.2 visits

end Host

section Device
variable {gate : Gate n} {events : Nat → Event} {clock : Clock} {interval : Periods}

theorem roundTime_le (loaded : Loaded gate events clock interval) (mem : entry ∈ roundsBetween gate events start stop) :
    entry.1 ≤ clock.maxTime := by
  obtain ⟨next, onward⟩ := Frontier.nextTime?_of_mem mem
  obtain ⟨⟨pin, -, hit⟩, -⟩ := Frontier.nextTime?_eq_some_iff.mp next
  obtain ⟨more, time⟩ := Frontier.due_iff.mp hit
  obtain ⟨range, waveform, first, inside, -, -⟩ := pending_record loaded (onward pin) more
  rw [← time]
  exact (loaded pin range waveform).bounded _ (Nat.le_of_lt first) inside

theorem mem_windowsFrom (mem : window ∈ windowsFrom gate events prevTime rounds) :
    ∃ entry ∈ rounds, window.stop = entry.1 := by
  induction rounds generalizing prevTime with
  | nil => cases mem
  | cons entry rest ih =>
    rcases List.mem_cons.mp mem with rfl | later
    · exact ⟨entry, List.mem_cons_self .., rfl⟩
    · obtain ⟨entry', there, stop⟩ := ih later
      exact ⟨entry', List.mem_cons_of_mem _ there, stop⟩

theorem windowStop_le (loaded : Loaded gate events clock interval) (periods : Periods)
    (mem : window ∈ threadWindows gate events clock interval periods) : window.stop ≤ clock.maxTime := by
  rw [threadWindows] at mem
  by_cases empty : periods.start = periods.stop
  · rw [if_pos empty] at mem
    cases mem
  rw [if_neg empty,windowsBetween] at mem
  rcases List.mem_append.mp mem with rounds | final
  · obtain ⟨entry, there, stop⟩ := mem_windowsFrom rounds
    exact stop ▸ roundTime_le loaded there
  · obtain rfl := List.mem_singleton.mp final
    exact Nat.min_le_right _ _

theorem cycleIdx_of_record (loaded : Loaded gate events clock interval)
    (mem : record ∈ recordsBetween gate events clock start stop) :
    (∀ added ∈ record.contribution, added.cycleIdx = clock.clkedWaveformIdx (events record.eventIdx).time) ∧
      ∀ added ∈ dynamicRecord gate events clock record.pin record.eventIdx,
        added.cycleIdx = clock.clkedWaveformIdx (events record.eventIdx).time := by
  obtain ⟨now, pos, range, turn, -, -, time, -, -, -, -, -, -, shape, -, -⟩ := recordsBetween_round loaded mem
  constructor
  · intro added adds
    rw [congrArg Processed.contribution shape,Option.mem_def] at adds
    simp only [recordAt] at adds
    split at adds
    · cases adds
    · obtain rfl := Option.some.inj adds
      rw [time]
      rfl
  · intro added adds
    rw [dynamicRecord,Option.mem_def] at adds
    split at adds
    · cases adds
    · obtain rfl := Option.some.inj adds
      rfl

end Device

section Threads
variable {gate : Gate n} {clock : Clock} {run : List (Slice n)} {slice : Slice n}

theorem exists_slice (contiguous : Contiguous first run) (low : first ≤ cycle) (high : cycle < runEnd first run) :
    ∃ slice ∈ run, slice.periods.start ≤ cycle ∧ cycle < slice.periods.stop := by
  induction run generalizing first with
  | nil => exact absurd low (Nat.not_le.mpr high)
  | cons slice rest ih =>
    obtain ⟨start, -, later⟩ := contiguous
    by_cases here : cycle < slice.periods.stop
    · exact ⟨slice, List.mem_cons_self .., start ▸ low, here⟩
    · obtain ⟨other, mem, inside⟩ := ih later (Nat.le_of_not_lt here) high
      exact ⟨other, List.mem_cons_of_mem _ mem, inside⟩

theorem exists_thread (gate : Gate n) {interval : Periods} (positive : 0 < gate.nCyclePerThread)
    (low : interval.start ≤ cycle) (high : cycle < interval.stop) :
    ∃ thread < cycleThreadCount gate interval, (cyclePeriods gate interval thread).start ≤ cycle ∧
      cycle < (cyclePeriods gate interval thread).stop := by
  have before := Nat.div_mul_le_self (cycle - interval.start) gate.nCyclePerThread
  have after := @Nat.lt_div_mul_add (cycle - interval.start) gate.nCyclePerThread positive
  obtain ⟨-, -, cover⟩ := ceilDiv_bounds positive (show 0 < interval.stop - interval.start by omega)
  refine ⟨(cycle - interval.start) / gate.nCyclePerThread, ?_, ?_, ?_⟩
  · by_contra beyond
    have := Nat.mul_le_mul_right gate.nCyclePerThread (Nat.le_of_not_lt beyond)
    rw [cycleThreadCount] at this
    omega
  · simp only [cyclePeriods]
    omega
  · simp only [cyclePeriods,Nat.add_mul,Nat.one_mul]
    omega

theorem slice_order (contiguous : Contiguous first run) (mem : slice ∈ run) :
    slice.periods.start < slice.periods.stop := by
  induction run generalizing first with
  | nil => cases mem
  | cons head rest ih =>
    rcases List.mem_cons.mp mem with rfl | later
    · exact contiguous.2.1
    · exact ih contiguous.2.2 later

theorem maxTime_le (clock : Clock) :
    clock.maxTime ≤ FloatClock.deviceNPeriod clock * FloatClock.vcdTimeUnitPerCycle clock := by
  rcases Nat.eq_zero_or_pos clock.maxTime with zero | positive
  · exact zero ▸ Nat.zero_le _
  · exact (ceilDiv_bounds (FloatClock.vcdTimeUnitPerCycle_pos clock) positive).2.2

theorem threadWritesBelow (loaded : Loaded (gate.onSlice slice) slice.events (counted clock) slice.periods)
    (fits : DeviceFits clock gate run) (mem : slice ∈ run) (periods : Periods)
    (inside : slice.periods.start ≤ periods.start) :
    ∀ idx, (threadResult (gate.onSlice slice) slice.events (counted clock) slice.periods periods).Writes clock idx →
      idx < FloatClock.deviceNPeriod clock := by
  rintro idx (⟨added, contributes, rfl⟩ | ⟨window, held, visits⟩)
  · obtain ⟨record, taken, adds⟩ := List.mem_filterMap.mp contributes
    simp only [threadResult,threadRecords] at taken
    by_cases empty : periods.start = periods.stop
    · rw [if_pos empty] at taken
      cases taken
    rw [if_neg empty] at taken
    have toggles := (recordsBetween_toggles loaded taken).1.mp (by rw [adds]; rfl)
    obtain ⟨range, waveform, first, last, late, -⟩ := recordsBetween_booked loaded taken
    rw [(cycleIdx_of_record loaded taken).1 added adds]
    refine (idx_lt_iff clock).mpr (fits.toggles slice mem _ range _ waveform first last (Nat.le_trans ?_ late) toggles)
    exact Nat.mul_le_mul_right _ inside
  · have early : window.stop ≤ (counted clock).maxTime := windowStop_le loaded periods held
    exact visits_lt FloatClock.DeviceBegins.mono fits.last early visits

theorem threadsWriteBelow (loaded : Loaded (gate.onSlice slice) slice.events (counted clock) slice.periods)
    (fits : DeviceFits clock gate run) (mem : slice ∈ run) (threads : List Nat) (periods : Nat → Periods)
    (inside : ∀ thread, slice.periods.start ≤ (periods thread).start) :
    WriteBelow (some (threads.map fun thread =>
    threadResult (gate.onSlice slice) slice.events (counted clock) slice.periods
      (periods thread))) (ThreadResult.Writes clock) (FloatClock.deviceNPeriod clock) := by
  refine ⟨_, rfl, fun result ran => ?_⟩
  obtain ⟨thread, -, rfl⟩ := List.mem_map.mp ran
  exact threadWritesBelow loaded fits mem _ (inside thread)

theorem sliceBelow (covers : RunCovers clock gate run) (fits : DeviceFits clock gate run) (mem : slice ∈ run)
    (nEventPerThread : Nat) : SliceBelow clock gate slice nEventPerThread (FloatClock.deviceNPeriod clock) := by
  have loaded := covers.loaded slice mem
  have order := slice_order covers.contiguous mem
  constructor
  · rw [runSlice,runCycleBasis_eq loaded]
    exact threadsWriteBelow loaded fits mem _ _ fun thread => Nat.le_add_left _ _
  · rw [runEventBasis_eq loaded]
    exact threadsWriteBelow loaded fits mem _ _ fun thread =>
      (eventBoundary_inside nEventPerThread loaded (Nat.le_of_lt order) thread).1
  · intro added adds
    rw [runDynamic_eq] at adds
    obtain ⟨⟨pin, k⟩, simulated, adds⟩ := List.mem_filterMap.mp adds
    obtain ⟨record, taken, key⟩ := List.mem_map.mp ((simulated_perm loaded).subset simulated)
    obtain ⟨rfl, rfl⟩ := Prod.mk.inj key
    have toggles := (recordsBetween_toggles loaded taken).2.mp (by rw [adds]; rfl)
    obtain ⟨range, waveform, first, last, late, -⟩ := recordsBetween_booked loaded taken
    rw [(cycleIdx_of_record loaded taken).2 added adds]
    exact (idx_lt_iff clock).mpr (fits.toggles slice mem _ range _ waveform first last late toggles)
  · rw [runLeakage_eq loaded]
    refine ⟨_, rfl, fun windows ran idx visited => ?_⟩
    obtain ⟨thread, -, rfl⟩ := List.mem_map.mp ran
    obtain ⟨window, held, visits⟩ := visited
    have early : window.stop ≤ (counted clock).maxTime := windowStop_le loaded _ held
    exact visits_lt FloatClock.DeviceBegins.mono fits.last early visits

theorem dynamic_toggles (loaded : Loaded (gate.onSlice slice) slice.events (counted clock) slice.periods)
    (waveform : (gate.onSlice slice).pinWaveforms pin = some range) (first : range.start < k) (last : k < range.stop)
    (late : slice.periods.startTime (counted clock) ≤ (slice.events k).time) (toggles : togglesAt slice.events k) :
    ∃ added ∈ runDynamic (gate.onSlice slice) slice.events (counted clock) slice.periods,
      added.cycleIdx = (counted clock).clkedWaveformIdx (slice.events k).time := by
  have inside := (loaded pin range waveform).inside k (Nat.le_of_lt first) last
  have simulated : (pin, k) ∈ (pinRecords (gate.onSlice slice) (List.finRange n)).filter
      (isSimulated (gate.onSlice slice) slice.events (counted clock) slice.periods) := by
    refine List.mem_filter.mpr ⟨mem_pinRecords.mpr ⟨range, waveform, Nat.le_of_lt first, last⟩,
      isSimulated_iff.mpr ⟨?_, ?_⟩⟩
    · simp only [waveform,Option.any_some,decide_eq_true_eq]
      omega
    · omega
  obtain ⟨record, taken, key⟩ := List.mem_map.mp ((simulated_perm loaded).subset simulated)
  obtain ⟨rfl, rfl⟩ := Prod.mk.inj key
  obtain ⟨added, adds⟩ := Option.isSome_iff_exists.mp ((recordsBetween_toggles loaded taken).2.mpr toggles)
  refine ⟨added, ?_, (cycleIdx_of_record loaded taken).2 added adds⟩
  rw [runDynamic_eq]
  exact List.mem_filterMap.mpr ⟨_, simulated, adds⟩

theorem exists_lastWindow (covers : RunCovers clock gate run) (positive : 0 < clock.maxTime) :
    ∃ slice ∈ run, ∀ threads, runSlice gate (counted clock) slice = some threads →
      ∃ result ∈ threads, ∃ window ∈ result.windows, window.start ≤ clock.maxTime ∧ window.stop = clock.maxTime := by
  have same : (counted clock).maxTime = clock.maxTime := rfl
  have inside : (counted clock).clkedWaveformIdx (clock.maxTime - 1) < runEnd 0 run :=
    (counted clock).clkedWaveformIdx_lt_iff.mpr (by have := covers.covers; omega)
  obtain ⟨slice, mem, low, high⟩ := exists_slice covers.contiguous (Nat.zero_le _) inside
  obtain ⟨thread, less, first, last⟩ := exists_thread (gate.onSlice slice) (covers.perThread slice mem) low high
  refine ⟨slice, mem, fun threads ran => ?_⟩
  have loaded := covers.loaded slice mem
  rw [runSlice,runCycleBasis_eq loaded] at ran
  obtain rfl := Option.some.inj ran
  refine ⟨_, List.mem_map.mpr ⟨thread, List.mem_range.mpr less, rfl⟩, ?_⟩
  generalize cyclePeriods (gate.onSlice slice) slice.periods thread = periods at first last
  have begun := (counted clock).le_clkedWaveformIdx_iff.mp first
  have ends := (counted clock).clkedWaveformIdx_lt_iff.mp last
  have order : periods.start < periods.stop := Nat.lt_of_le_of_lt first last
  have whole : min (periods.endTime slice.periods (counted clock)) (counted clock).maxTime = clock.maxTime := by
    have : periods.stop * (counted clock).vcdTimeUnitPerCycle ≤ periods.endTime slice.periods (counted clock) :=
      Nat.le_add_right _ _
    omega
  obtain ⟨chain, -⟩ := threadWindows_spec loaded periods order (by rw [Periods.startTime]; omega)
  have held : ∃ window ∈ threadWindows (gate.onSlice slice) slice.events (counted clock) slice.periods periods,
      window.stop = clock.maxTime := by
    rw [threadWindows,if_neg (Nat.ne_of_lt order),windowsBetween,whole]
    exact ⟨⟨_, clock.maxTime, _⟩, List.mem_append_right _ (List.mem_singleton_self _), rfl⟩
  obtain ⟨window, held, stop⟩ := held
  exact ⟨window, held, stop ▸ (chain.inside held).2.1, stop⟩

/-- The kernels write below their size exactly when the toggles of the slices fit and so does the end of the dump. -/
theorem deviceWrites_iff (covers : RunCovers clock gate run) (positive : 0 < clock.maxTime) (nEventPerThread : Nat) :
    (∀ slice ∈ run, SliceBelow clock gate slice nEventPerThread (FloatClock.deviceNPeriod clock)) ↔
    DeviceFits clock gate run := by
  constructor
  · intro below
    refine ⟨fun slice mem pin range k waveform first last late toggles => ?_, fun begins => ?_⟩
    · obtain ⟨added, adds, cycle⟩ := dynamic_toggles (covers.loaded slice mem) waveform first last late toggles
      have := (below slice mem).dynamic added adds
      rw [cycle] at this
      exact (idx_lt_iff clock).mp this
    · obtain ⟨slice, mem, ends⟩ := exists_lastWindow covers positive
      obtain ⟨threads, ran, small⟩ := (below slice mem).cycleBasis
      obtain ⟨result, listed, window, held, start, stop⟩ := ends threads ran
      have low : (counted clock).clkedWaveformIdx window.start ≤ FloatClock.deviceNPeriod clock := by
        rw [Clock.clkedWaveformIdx,FloatClock.counted_unit]
        exact Nat.div_le_of_le_mul (by rw [Nat.mul_comm]; exact Nat.le_trans start (maxTime_le clock))
      have visits := visits_of_begins FloatClock.DeviceBegins.mono stop low begins
      exact lt_irrefl _ (small result listed _ (Or.inr ⟨window, held, visits⟩))
  · exact fun fits slice mem => sliceBelow covers fits mem nEventPerThread

/-- Every cycle written is below the size allocated for it exactly when the events fit the ticks of that many cycles and
the loop tests of the last window end there. -/
theorem cycleIdx_lt_iff {κ α : Type} {hostGate : HostGate κ α m} (dumped : hostGate.Dumped (counted clock))
    (ran : hostGate.findTimeBasedAllPower (counted clock) = some hostRun) (covers : RunCovers clock gate run)
    (positive : 0 < clock.maxTime) (nEventPerThread : Nat) :
    ((∀ idx, hostRun.Writes clock idx → idx < FloatClock.hostNPeriod clock) ∧
      ∀ slice ∈ run, SliceBelow clock gate slice nEventPerThread (FloatClock.deviceNPeriod clock)) ↔
    HostFits clock hostGate ∧ DeviceFits clock gate run :=
  and_congr (hostWrites_iff dumped ran) (deviceWrites_iff covers positive nEventPerThread)

end Threads

section Examples

/-- One slice with the records of the two-cycle gate, two threads of a cycle each. -/
def twoCycleSlice : Slice 2 := ⟨⟨0, 2⟩, twoCycleGate.pinWaveforms, twoCycleEvents, 1⟩

theorem covers_twoCycleSlice (short : maxTime ≤ 20)
    (loaded : Loaded (twoCycleGate.onSlice twoCycleSlice) twoCycleEvents (counted (tenTickClock maxTime)) ⟨0, 2⟩) :
    RunCovers (tenTickClock maxTime) twoCycleGate [twoCycleSlice] where
  contiguous := ⟨rfl, by decide, trivial⟩
  covers := by
    have unit : (counted (tenTickClock 0)).vcdTimeUnitPerCycle = 10 := by decide +kernel
    change maxTime ≤ 2 * (counted (tenTickClock 0)).vcdTimeUnitPerCycle
    rw [unit]
    exact short
  loaded := List.forall_mem_singleton.mpr loaded
  perThread := List.forall_mem_singleton.mpr (by decide)

theorem dumped_pair_tenTick (late : 7 ≤ maxTime) : HostGate.cpuPair.Dumped (counted (tenTickClock maxTime)) where
  stored := HostGate.dumped_cpuPair.stored
  within := by
    have early : ∀ pin, ∀ entry ∈ HostGate.cpuPair.vcdValues pin, entry.time ≤ 7 := by decide
    exact fun pin entry mem => Nat.le_trans (early pin entry mem) late

/-- The dump ends inside its second cycle. -/
theorem cycleIdx_lt_partial : ∃ hostRun, HostGate.cpuPair.findTimeBasedAllPower (counted (tenTickClock 18)) =
    some hostRun ∧
    (∀ idx, hostRun.Writes (tenTickClock 18) idx → idx < FloatClock.hostNPeriod (tenTickClock 18)) ∧
    SliceBelow (tenTickClock 18) twoCycleGate twoCycleSlice 4 (FloatClock.deviceNPeriod (tenTickClock 18)) := by
  have ends : (HostGate.cpuPair.findTimeBasedAllPower (counted (tenTickClock 18))).isSome := by decide +kernel
  obtain ⟨hostRun, ran⟩ := Option.isSome_iff_exists.mp ends
  have covers := @covers_twoCycleSlice 18 (by decide) (by decide +kernel)
  have hostFits : HostFits (tenTickClock 18) HostGate.cpuPair := by
    refine ⟨fun pin k _ inside => ?_, by decide +kernel⟩
    have ticks : FloatClock.hostNPeriod (tenTickClock 18) * FloatClock.vcdTimeUnitPerCycle (tenTickClock 18) = 20 := by
      decide +kernel
    have dumped : HostGate.cpuPair.Dumped (counted (tenTickClock 18)) := dumped_pair_tenTick (by decide)
    have := dumped.eventTime_le inside
    have end18 : (counted (tenTickClock 18)).maxTime = 18 := rfl
    omega
  have deviceFits : DeviceFits (tenTickClock 18) twoCycleGate [twoCycleSlice] := by
    refine ⟨List.forall_mem_singleton.mpr fun pin range k waveform first last _ _ => ?_, by decide +kernel⟩
    have ticks : FloatClock.deviceNPeriod (tenTickClock 18) * FloatClock.vcdTimeUnitPerCycle (tenTickClock 18) =
      20 := by decide +kernel
    have := (covers.loaded twoCycleSlice (List.mem_singleton_self _) pin range waveform).bounded k
      (Nat.le_of_lt first) last
    have end18 : (counted (tenTickClock 18)).maxTime = 18 := rfl
    omega
  obtain ⟨host, device⟩ :=
    (cycleIdx_lt_iff (dumped_pair_tenTick (by decide)) ran covers (by decide) 4).mpr ⟨hostFits, deviceFits⟩
  exact ⟨hostRun, ran, host, device twoCycleSlice (List.mem_singleton_self _)⟩

/-- The dump ends where its second cycle does: both engines write a third entry. -/
theorem cycleIdx_past_size : HostGate.cpuPair.Dumped (counted (tenTickClock 20)) ∧
    RunCovers (tenTickClock 20) twoCycleGate [twoCycleSlice] ∧
    FloatClock.hostNPeriod (tenTickClock 20) = 2 ∧ FloatClock.deviceNPeriod (tenTickClock 20) = 2 ∧
    (HostGate.cpuPair.findTimeBasedAllPower (counted (tenTickClock 20))).any (fun run =>
    run.Writes (tenTickClock 20) 2) ∧
    (runSlice twoCycleGate (counted (tenTickClock 20)) twoCycleSlice).any fun threads =>
      threads.any fun result => result.Writes (tenTickClock 20) 2 := by
  refine ⟨dumped_pair_tenTick (by decide), covers_twoCycleSlice (by decide) (by decide +kernel), ?_, ?_, ?_, ?_⟩
  · decide +kernel
  · decide +kernel
  · decide +kernel
  · decide +kernel

end Examples
end GTPower
