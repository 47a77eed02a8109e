import GTPower.KernelRounds

/-! One thread in closed form. Between two cycle boundaries a thread takes the records of that time
span, whatever other threads do, so the records and the leakage of consecutive threads join. -/
namespace GTPower

/-- The records of one pin as the loader leaves them: the carried or initial record first, times that do
not decrease, none after the interval or after the dump. -/
structure RangeLoaded (events : Nat → Event) (clock : Clock) (interval : Periods) (range : WaveformRange) : Prop where
  nonempty : range.start < range.stop
  sorted : SortedOn events range.start range.stop
  inside : ∀ k, range.start ≤ k → k < range.stop → (events k).time ≤ interval.stop * clock.vcdTimeUnitPerCycle
  bounded : ∀ k, range.start ≤ k → k < range.stop → (events k).time ≤ clock.maxTime

def Loaded (gate : Gate n) (events : Nat → Event) (clock : Clock) (interval : Periods) : Prop :=
  ∀ pin range, gate.pinWaveforms pin = some range → RangeLoaded events clock interval range

instance : Decidable (RangeLoaded events clock interval range) :=
  decidable_of_iff (range.start < range.stop ∧
      (∀ j < range.stop, ∀ i ≤ j, range.start ≤ i → (events i).time ≤ (events j).time) ∧
      ∀ k < range.stop, range.start ≤ k →
        (events k).time ≤ interval.stop * clock.vcdTimeUnitPerCycle ∧ (events k).time ≤ clock.maxTime)
    ⟨fun ⟨nonempty, sorted, upper⟩ => ⟨nonempty, fun i j low order high => sorted j high i order low,
        fun k low high => (upper k high low).1, fun k low high => (upper k high low).2⟩,
      fun valid => ⟨valid.nonempty, fun j high i order low => valid.sorted i j low order high,
        fun k high low => ⟨valid.inside k low high, valid.bounded k low high⟩⟩⟩

instance : Decidable (Loaded gate events clock interval) :=
  inferInstanceAs (Decidable (∀ pin, ∀ range ∈ gate.pinWaveforms pin, RangeLoaded events clock interval range))

section Closed
variable (gate : Gate n) (events : Nat → Event) (clock : Clock)

/-- First record a thread that starts at `time` takes from each pin. -/
def firstEventIdxes (time : Nat) (pin : Fin n) : Nat :=
  match gate.pinWaveforms pin with
  | none => 0
  | some range => max (range.start + 1) (pinEventIdxes gate events time pin)

def roundsBetween (start stop : Nat) : List (Nat × (Fin n → Nat)) :=
  Frontier.schedule (List.finRange n) (recordTime events) (pinEventIdxes gate events stop)
    (firstEventIdxes gate events start)

/-- Records taken from `start` up to and without `stop`. -/
def recordsBetween (start stop : Nat) : List (Processed n) :=
  (roundsBetween gate events start stop).flatMap (roundProcessed gate events clock (pinEventIdxes gate events stop))

def threadRecords (interval periods : Periods) : List (Processed n) :=
  if periods.start = periods.stop then []
  else recordsBetween gate events clock (periods.startTime clock) (periods.endTime interval clock)

def finalStates (start stop : Nat) : Fin n → Int :=
  statesAt gate events fun pin => max (firstEventIdxes gate events start pin) (pinEventIdxes gate events stop pin)

def windowsBetween (start stop : Nat) : List Window :=
  windowsFrom gate events start (roundsBetween gate events start stop) ++
    [⟨lastTime start (roundsBetween gate events start stop), min stop clock.maxTime,
      gate.findLeakageVal (finalStates gate events start stop)⟩]

def threadWindows (interval periods : Periods) : List Window :=
  if periods.start = periods.stop then []
  else windowsBetween gate events clock (periods.startTime clock) (periods.endTime interval clock)

def threadResult (interval periods : Periods) : ThreadResult n :=
  ⟨threadRecords gate events clock interval periods, threadWindows gate events clock interval periods⟩

end Closed

section Search
variable {gate : Gate n} {events : Nat → Event} {clock : Clock} {interval : Periods}

theorem initPin_eq (time : Nat) (pin : Fin n) : initPin gate events time pin =
    (statesAt gate events (firstEventIdxes gate events time) pin, firstEventIdxes gate events time pin) := by
  unfold initPin statesAt firstEventIdxes
  cases gate.pinWaveforms pin with
  | none => rfl
  | some range =>
    simp only [Prod.mk.injEq]
    constructor
    · congr 2; omega
    · split <;> omega

theorem initState_reached (gate : Gate n) (events : Nat → Event) (clock : Clock) (time : Nat) :
    Reached gate events clock (firstEventIdxes gate events time)
    (firstEventIdxes gate events time) (initState gate events time) := by
  refine ⟨funext fun pin => by simp [initState,initPin_eq], funext fun pin => by simp [initState,initPin_eq], ?_⟩
  intro pin cycle _ _
  rw [if_neg (by simp [initState,invalidNPeriodVal])]
  exact toggleCount_eq_zero fun k low less => by omega

theorem pinEventIdxes_le (loaded : Loaded gate events clock interval)
    (waveform : gate.pinWaveforms pin = some range) : pinEventIdxes gate events time pin ≤ range.stop := by
  have valid := loaded pin range waveform
  simp only [pinEventIdxes,waveform]
  exact getEventIdxByTime_le valid.sorted (Nat.le_of_lt valid.nonempty)

theorem lt_pinEventIdxes_iff (loaded : Loaded gate events clock interval) (time : Nat)
    (waveform : gate.pinWaveforms pin = some range) (low : range.start ≤ k) (high : k < range.stop) :
    k < pinEventIdxes gate events time pin ↔ (events k).time < time := by
  simp only [pinEventIdxes,waveform]
  exact lt_getEventIdxByTime_iff (loaded pin range waveform).sorted low high

theorem pinEventIdxes_mono (loaded : Loaded gate events clock interval) (later : time ≤ time') (pin : Fin n) :
    pinEventIdxes gate events time pin ≤ pinEventIdxes gate events time' pin := by
  cases waveform : gate.pinWaveforms pin with
  | none => simp [pinEventIdxes,waveform]
  | some range =>
    have valid := loaded pin range waveform
    simp only [pinEventIdxes,waveform]
    exact getEventIdxByTime_mono valid.sorted (Nat.le_of_lt valid.nonempty) later

theorem silent_pinEventIdxes (pin : Fin n) (waveform : gate.pinWaveforms pin = none) :
    pinEventIdxes gate events time pin = 0 := by simp [pinEventIdxes,waveform]

theorem le_firstEventIdxes (pin : Fin n) :
    pinEventIdxes gate events time pin ≤ firstEventIdxes gate events time pin := by
  cases waveform : gate.pinWaveforms pin with
  | none => simp [pinEventIdxes,waveform]
  | some range => simp only [firstEventIdxes,waveform]; omega

/-- A pending record has a waveform, lies in its range behind the first record and is not early. -/
theorem pending_record (loaded : Loaded gate events clock interval) (low : firstEventIdxes gate events start pin ≤ k)
    (high : k < pinEventIdxes gate events stop pin) : ∃ range, gate.pinWaveforms pin = some range ∧
      range.start < k ∧ k < range.stop ∧ start ≤ (events k).time ∧ (events k).time < stop := by
  cases waveform : gate.pinWaveforms pin with
  | none => rw [silent_pinEventIdxes pin waveform] at high; omega
  | some range =>
    have inside := Nat.lt_of_lt_of_le high (pinEventIdxes_le loaded waveform)
    have first : range.start + 1 ≤ k := by simp only [firstEventIdxes,waveform] at low; omega
    have reached : ¬ k < pinEventIdxes gate events start pin := by
      have : pinEventIdxes gate events start pin ≤ firstEventIdxes gate events start pin := le_firstEventIdxes pin
      omega
    refine ⟨range, rfl, first, inside, ?_, ?_⟩
    · rw [lt_pinEventIdxes_iff loaded _ waveform (by omega) inside] at reached; omega
    · rwa [lt_pinEventIdxes_iff loaded _ waveform (by omega) inside] at high

theorem sorted_pending (loaded : Loaded gate events clock interval) (start stop : Nat) :
    Frontier.Sorted (recordTime events) (firstEventIdxes gate events start) (pinEventIdxes gate events stop) := by
  intro pin j k low order high
  obtain ⟨range, waveform, first, inside, -⟩ := pending_record loaded (Nat.le_trans low order) high
  have firstj : range.start + 1 ≤ j := by simp only [firstEventIdxes,waveform] at low; omega
  exact (loaded pin range waveform).sorted j k (by omega) order inside

/-- A frontier with the records before `time` behind it and the others of the thread ahead stands where
a thread that starts at `time` begins. -/
theorem positions_eq (loaded : Loaded gate events clock interval) (early : start ≤ time) (before : time ≤ stop)
    (low : ∀ pin, firstEventIdxes gate events start pin ≤ pos pin)
    (high : ∀ pin, pos pin ≤ max (firstEventIdxes gate events start pin) (pinEventIdxes gate events stop pin))
    (passed : ∀ pin k, firstEventIdxes gate events start pin ≤ k → k < pos pin → (events k).time < time)
    (ahead : ∀ pin k, pos pin ≤ k → k < pinEventIdxes gate events stop pin → time ≤ (events k).time) :
    pos = firstEventIdxes gate events time := by
  funext pin
  have mono := pinEventIdxes_mono loaded early pin
  have later := pinEventIdxes_mono loaded before pin
  have lowest := low pin
  have highest := high pin
  cases waveform : gate.pinWaveforms pin with
  | none =>
    simp only [firstEventIdxes,waveform,silent_pinEventIdxes pin waveform] at lowest highest ⊢
    omega
  | some range =>
    have nonempty := (loaded pin range waveform).nonempty
    have inside : pinEventIdxes gate events time pin ≤ range.stop := pinEventIdxes_le loaded waveform
    have bound : pinEventIdxes gate events stop pin ≤ range.stop := pinEventIdxes_le loaded waveform
    simp only [firstEventIdxes,waveform] at lowest highest ⊢
    rcases Nat.lt_trichotomy (pos pin) (max (range.start + 1) (pinEventIdxes gate events time pin)) with
      less | same | more
    · have next := ahead pin (pos pin) (Nat.le_refl _) (by omega)
      have found := (lt_pinEventIdxes_iff loaded time waveform (by omega : range.start ≤ pos pin)
        (by omega)).mp (by omega)
      omega
    · exact same
    · have behind := passed pin (max (range.start + 1) (pinEventIdxes gate events time pin))
        (by simp only [firstEventIdxes,waveform]; omega) more
      have missed := (lt_pinEventIdxes_iff loaded time waveform
        (by omega : range.start ≤ max (range.start + 1) (pinEventIdxes gate events time pin))
        (by omega)).mpr behind
      omega

theorem Loaded.lanes (loaded : Loaded gate events clock interval) (cycle stop : Nat) :
    Lanes gate events clock (firstEventIdxes gate events (cycle * clock.vcdTimeUnitPerCycle))
      (pinEventIdxes gate events stop) := by
  constructor
  · exact silent_pinEventIdxes
  · exact sorted_pending loaded _ _
  · intro pin k low high
    obtain ⟨range, waveform, first, inside, -⟩ := pending_record loaded low high
    have := (loaded pin range waveform).bounded k (by omega) inside
    simp only [Clock.sentinel]
    omega
  · intro pin range k waveform low high
    obtain ⟨range', waveform', first, inside, late, -⟩ := pending_record loaded low high
    obtain rfl : range' = range := Option.some.inj (waveform'.symm.trans waveform)
    have valid := loaded pin range' waveform
    unfold toggleRank toggleCount
    rw [Nat.count_eq_card_filter_range,Nat.count_eq_card_filter_range]
    congr 1
    refine Finset.filter_congr fun j mem => and_congr_left fun ⟨_, same⟩ => ?_
    have upto : j ≤ k := by have := Finset.mem_range.mp mem; omega
    simp only [firstEventIdxes,waveform]
    refine ⟨fun h => by omega, fun h => ?_⟩
    by_contra outside
    -- a record before the first cycle of the thread is in an earlier cycle
    have early : j < pinEventIdxes gate events (cycle * clock.vcdTimeUnitPerCycle) pin := by omega
    rw [lt_pinEventIdxes_iff loaded _ waveform (by omega) (by omega)] at early
    have before : cycleOf events clock j < cycle := clock.clkedWaveformIdx_lt_iff.mpr early
    have after : cycle ≤ cycleOf events clock k := clock.le_clkedWaveformIdx_iff.mpr late
    omega

theorem kernel1All_eq (loaded : Loaded gate events clock interval) (periods : Periods) :
    kernel1All gate events clock interval periods = some (threadResult gate events clock interval periods) := by
  by_cases empty : periods.start = periods.stop
  · simp [kernel1All,threadResult,threadRecords,threadWindows,empty]
  have lanes := loaded.lanes periods.start (periods.endTime interval clock)
  have reached := initState_reached gate events clock (periods.startTime clock)
  obtain ⟨st, run, final, processed, windows, prevTime⟩ := mainLoop_spec lanes _ _ reached (fun _ => Nat.le_refl _)
    (loopFuel (pinEventIdxes gate events (periods.endTime interval clock))
      (initState gate events (periods.startTime clock)))
    (Nat.lt_succ_of_le (by
      rw [show (initState gate events (periods.startTime clock)).pinFrontierEventIdxes =
        firstEventIdxes gate events (periods.startTime clock) from reached.frontier]
      exact Frontier.schedule_length_le))
  simp only [kernel1All,empty,if_false,run,Option.map_some]
  simp only [threadResult,threadRecords,threadWindows,empty,if_false,processed,windows,prevTime,final.states]
  rfl

end Search

section Join
variable {gate : Gate n} {events : Nat → Event} {clock : Clock} {interval : Periods}

theorem firstEventIdxes_later (loaded : Loaded gate events clock interval) (order : start ≤ middle) :
    (fun pin => max (firstEventIdxes gate events start pin) (pinEventIdxes gate events middle pin)) =
      firstEventIdxes gate events middle := by
  funext pin
  have mono := pinEventIdxes_mono loaded order pin
  cases waveform : gate.pinWaveforms pin with
  | none => simp [firstEventIdxes,waveform,silent_pinEventIdxes]
  | some range => simp only [firstEventIdxes,waveform]; omega

/-- The records before a time are cut off by the search for it. -/
theorem cutAt_pinEventIdxes (loaded : Loaded gate events clock interval) (high : middle ≤ stop) :
    Frontier.CutAt (recordTime events) (firstEventIdxes gate events start) (pinEventIdxes gate events middle)
      (pinEventIdxes gate events stop) middle := by
  refine ⟨pinEventIdxes_mono loaded high, fun pin k first less => ?_, fun pin k first reached less => ?_⟩
  · obtain ⟨-, -, -, -, -, early⟩ := pending_record loaded first less
    exact early
  · obtain ⟨range, waveform, low, inside, -⟩ := pending_record loaded first less
    have late := (lt_pinEventIdxes_iff loaded middle waveform (Nat.le_of_lt low) inside).not.mp (by omega)
    simp only [recordTime]
    omega

theorem roundsBetween_append (loaded : Loaded gate events clock interval) (low : start ≤ middle)
    (high : middle ≤ stop) :
    roundsBetween gate events start stop =
      roundsBetween gate events start middle ++ roundsBetween gate events middle stop := by
  unfold roundsBetween
  rw [Frontier.schedule_append List.mem_finRange (cutAt_pinEventIdxes loaded high),firstEventIdxes_later loaded low]

theorem roundProcessed_earlier (loaded : Loaded gate events clock interval) (high : middle ≤ stop)
    (mem : entry ∈ roundsBetween gate events start middle) :
    roundProcessed gate events clock (pinEventIdxes gate events stop) entry =
      roundProcessed gate events clock (pinEventIdxes gate events middle) entry := by
  simp only [roundProcessed,triggeredPins,(cutAt_pinEventIdxes loaded high).due_eq_of_mem mem]

theorem recordsBetween_append (loaded : Loaded gate events clock interval) (low : start ≤ middle)
    (high : middle ≤ stop) :
    recordsBetween gate events clock start stop =
      recordsBetween gate events clock start middle ++ recordsBetween gate events clock middle stop := by
  unfold recordsBetween
  rw [roundsBetween_append loaded low high,List.flatMap_append]
  congr 1
  exact List.flatMap_congr fun entry mem => roundProcessed_earlier loaded high mem

theorem pinEventIdxes_late (loaded : Loaded gate events clock interval)
    (late : interval.stop * clock.vcdTimeUnitPerCycle < stop)
    (late' : interval.stop * clock.vcdTimeUnitPerCycle < stop') :
    pinEventIdxes gate events stop = pinEventIdxes gate events stop' := by
  funext pin
  cases waveform : gate.pinWaveforms pin with
  | none => simp [pinEventIdxes,waveform]
  | some range =>
    have valid := loaded pin range waveform
    have every : ∀ time, interval.stop * clock.vcdTimeUnitPerCycle < time →
        getEventIdxByTime events range.start range.stop time false = range.stop := fun time late =>
      getEventIdxByTime_eq valid.sorted (Nat.le_of_lt valid.nonempty) (Nat.le_refl _)
        (fun k low high => Nat.lt_of_le_of_lt (valid.inside k low high) late) (fun k low high => by omega)
    simp only [pinEventIdxes,waveform,every stop late,every stop' late']

theorem recordsBetween_late (loaded : Loaded gate events clock interval)
    (late : interval.stop * clock.vcdTimeUnitPerCycle < stop)
    (late' : interval.stop * clock.vcdTimeUnitPerCycle < stop') :
    recordsBetween gate events clock start stop = recordsBetween gate events clock start stop' := by
  simp only [recordsBetween,roundsBetween,pinEventIdxes_late loaded late late']

/-- Threads on consecutive boundaries take together what one thread from the first to the last
boundary takes, provided that no thread starts at the end of the interval. -/
theorem threadRecords_join (loaded : Loaded gate events clock interval) (bounds : Nat → Nat) (threads : Nat)
    (order : ∀ t < threads, bounds t ≤ bounds (t + 1))
    (inner : ∀ t < threads, bounds t < bounds (t + 1) → bounds t < interval.stop) :
    (List.range threads).flatMap (fun t => threadRecords gate events clock interval ⟨bounds t, bounds (t + 1)⟩) =
      threadRecords gate events clock interval ⟨bounds 0, bounds threads⟩ := by
  induction threads with
  | zero => simp [threadRecords]
  | succ threads ih =>
    have ordered : ∀ t ≤ threads, bounds 0 ≤ bounds t := by
      intro t
      induction t with
      | zero => intro _; exact Nat.le_refl _
      | succ t iht => intro le; exact Nat.le_trans (iht (by omega)) (order t (by omega))
    rw [List.range_succ,List.flatMap_append,ih (fun t less => order t (by omega)) (fun t less => inner t (by omega)),
      List.flatMap_singleton]
    have last := order threads (by omega)
    have lower := ordered threads (Nat.le_refl _)
    rcases Nat.eq_or_lt_of_le last with same | moves
    · simp [threadRecords,same]
    rcases Nat.eq_or_lt_of_le lower with same | before
    · simp [threadRecords,same]
    have early := inner threads (by omega) moves
    have joint : (⟨bounds 0, bounds threads⟩ : Periods).endTime interval clock =
        (⟨bounds threads, bounds (threads + 1)⟩ : Periods).startTime clock := by
      simp [Periods.endTime,Periods.startTime,Nat.ne_of_lt early]
    have unit := clock.vcdTimeUnitPerCycle_pos
    simp only [threadRecords,Nat.ne_of_lt before,Nat.ne_of_lt moves,Nat.ne_of_lt (Nat.lt_trans before moves),if_false]
    rw [joint]
    refine (recordsBetween_append loaded ?_ ?_).symm
    · exact Nat.mul_le_mul_right _ (Nat.le_of_lt before)
    · exact Nat.le_trans (Nat.mul_le_mul_right _ (Nat.le_of_lt moves)) (Nat.le_add_right _ _)

end Join

section Keys
variable {gate : Gate n} {events : Nat → Event} {clock : Clock} {interval : Periods}

def Processed.key (record : Processed n) : Fin n × Nat := (record.pin, record.eventIdx)

theorem takeRecords_keys (pins : List (Fin n)) (states : Fin n → Int) :
    (takeRecords gate events clock before now pos states pins).map Processed.key = pins.map fun pin =>
    (pin, pos pin) := by
  induction pins generalizing states with
  | nil => rfl
  | cons pin rest ih => simp [takeRecords,ih,recordAt,Processed.key]

/-- The records taken are the visits of the schedule, up to the order inside a round. -/
theorem recordsBetween_keys (start stop : Nat) :
    ((recordsBetween gate events clock start stop).map Processed.key).Perm
      (Frontier.visits (List.finRange n) (recordTime events) (pinEventIdxes gate events stop)
        (firstEventIdxes gate events start)) := by
  unfold recordsBetween Frontier.visits roundsBetween
  rw [List.map_flatMap]
  refine List.Perm.flatMap_left _ fun _ _ => ?_
  rw [roundProcessed,takeRecords_keys]
  exact (sortTriggered_perm _ _).map _

theorem recordsBetween_count (loaded : Loaded gate events clock interval)
    (waveform : gate.pinWaveforms pin = some range) (first : range.start < k) (inside : k < range.stop)
    (late : start ≤ (events k).time) (early : (events k).time < stop) :
    ((recordsBetween gate events clock start stop).map Processed.key).count (pin, k) = 1 := by
  rw [(recordsBetween_keys start stop).count_eq]
  refine List.count_eq_one_of_mem (Frontier.visits_nodup (List.nodup_finRange n)) ?_
  refine (Frontier.mem_visits (List.mem_finRange pin)).mpr ⟨?_, ?_⟩
  · simp only [firstEventIdxes,waveform]
    have := (lt_pinEventIdxes_iff loaded start waveform (Nat.le_of_lt first) inside).not.mpr (by omega)
    omega
  · exact (lt_pinEventIdxes_iff loaded _ waveform (Nat.le_of_lt first) inside).mpr early

end Keys
end GTPower
