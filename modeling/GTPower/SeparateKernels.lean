import GTPower.ThreadRounds

/-! The two separate kernels: one thread per record for the dynamic powers, each of which rebuilds the
states and the cycle of its record by searches, and a thread per cycle range for the leakage. -/
namespace GTPower

section Dynamic
variable (gate : Gate n) (events : Nat → Event) (clock : Clock)

/-- First record of the range in a cycle not before `targetPeriod`. -/
def lowerBoundEventIdxByPeriod (start stop targetPeriod : Nat) : Nat :=
  Bisect.lowerBound (fun mid => clock.clkedWaveformIdx (events mid).time < targetPeriod) start stop

/-- Records of the cycle of `eventIdx` in the range. -/
def periodRange (range : WaveformRange) (eventIdx : Nat) : WaveformRange :=
  let curPeriod := clock.clkedWaveformIdx (events eventIdx).time
  ⟨lowerBoundEventIdxByPeriod events clock range.start range.stop curPeriod,
    lowerBoundEventIdxByPeriod events clock range.start range.stop (curPeriod + 1)⟩

def getGlitchScalingRatioClockCycle_EventCentric (eventIdx : Nat) (pin : Fin n) : ℚ :=
  if gate.pinIsClocks pin then invalidNToggleVal
  else
    match gate.pinWaveforms pin with
    | none => invalidNToggleVal
    | some range =>
      if eventIdx < range.start ∨ range.stop ≤ eventIdx then invalidNToggleVal
      else
        let period := periodRange events clock range eventIdx
        if eventIdx < period.start ∨ period.stop ≤ eventIdx then invalidNToggleVal
        else
          let pos := eventIdx - period.start
          let nInPeriod := period.stop - period.start
          gate.glitchScalingRatio clock pin (Gate.selectPulseWidth (short (pos + 1))
            (if 1 ≤ pos then (events eventIdx).time - (events (eventIdx - 1)).time else invalidPulseWidth)
            (if pos + 1 < nInPeriod then some ((events (eventIdx + 1)).time - (events eventIdx).time) else none)
            (pos + 2 < nInPeriod))

/-- The pin and the record behind an index into the records of all pins in pin order. -/
def mapFlattenedEventToPinAndEventIdx : List (Fin n) → Nat → Option (Fin n × Nat)
  | [], _ => none
  | pin :: rest, linear =>
    match gate.pinWaveforms pin with
    | none => mapFlattenedEventToPinAndEventIdx rest linear
    | some range =>
      if linear < range.stop - range.start then some (pin, range.start + linear)
      else mapFlattenedEventToPinAndEventIdx rest (linear - (range.stop - range.start))

/-- Values of the records from `sameTimeIdx` on that have the current time and an index below `eventIdx`,
the last one winning. -/
def applySameTime (stop curTime eventIdx : Nat) : Nat → Nat → Int → Int
  | 0, _, state => state
  | fuel + 1, sameTimeIdx, state =>
    if sameTimeIdx < stop ∧ (events sameTimeIdx).time = curTime then
      if eventIdx ≤ sameTimeIdx then state
      else applySameTime stop curTime eventIdx fuel (sameTimeIdx + 1) (events sameTimeIdx).val
    else state

/-- State of a pin before the time of a record, and as the record sees it. -/
def statesSeen (curTime eventIdx : Nat) (pin : Fin n) : Int × Int :=
  match gate.pinWaveforms pin with
  | none => (gate.getPinDefaultState pin, gate.getPinDefaultState pin)
  | some range =>
    let pos := getEventIdxByTime events range.start range.stop curTime false
    let before := (events (if range.start < pos then pos - 1 else range.start)).val
    (before, applySameTime events range.stop curTime eventIdx (range.stop - pos) pos before)

def dynamicRecord (pin : Fin n) (eventIdx : Nat) : Option (Contribution n) :=
  let curTime := (events eventIdx).time
  let before := fun p => (statesSeen gate events curTime eventIdx p).1
  let prevPinStates := fun p => (statesSeen gate events curTime eventIdx p).2
  if getNToggle (prevPinStates pin) (events eventIdx).val = 0 then none
  else some (contributionOf gate events clock before prevPinStates curTime pin eventIdx (prevPinStates pin)
    (getGlitchScalingRatioClockCycle_EventCentric gate events clock eventIdx pin))

/-- One thread of the dynamic kernel. Threads past the last record, those of initial records and those
of records outside the interval add nothing. -/
def kernel1_1 (interval : Periods) (thread : Nat) : Option (Contribution n) :=
  match mapFlattenedEventToPinAndEventIdx gate (List.finRange n) thread with
  | none => none
  | some (pin, eventIdx) =>
    if (gate.pinWaveforms pin).any fun range => range.start = eventIdx then none
    else
      let curTime := (events eventIdx).time
      if curTime < interval.startTime clock ∨ interval.stop * clock.vcdTimeUnitPerCycle + 1 ≤ curTime then none
      else dynamicRecord gate events clock pin eventIdx

def waveformSize : Nat := ((List.finRange n).map fun pin =>
  match gate.pinWaveforms pin with
  | none => 0
  | some range => range.stop - range.start).sum

def runDynamic (interval : Periods) : List (Contribution n) :=
  (List.range (waveformSize gate)).filterMap (kernel1_1 gate events clock interval)

end Dynamic

section Leakage
variable (gate : Gate n) (events : Nat → Event) (clock : Clock)

structure LeakageState (n : Nat) where
  prevPinStates : Fin n → Int
  pinStates : Fin n → Int
  pinFrontierEventIdxes : Fin n → Nat
  prevTime : Nat
  windows : List Window

def isPending (pinEndEventIdxes : Fin n → Nat) (st : LeakageState n) (pin : Fin n) : Bool :=
  gate.pinWaveforms pin ≠ none && st.pinFrontierEventIdxes pin < pinEndEventIdxes pin

def leakageScan (pinEndEventIdxes : Fin n → Nat) (st : LeakageState n) : Nat :=
  (List.finRange n).foldl (fun curTime pin =>
    if isPending gate pinEndEventIdxes st pin then min (events (st.pinFrontierEventIdxes pin)).time curTime
    else curTime) clock.sentinel

def leakagePin (pinEndEventIdxes : Fin n → Nat) (curTime : Nat) (st : LeakageState n) (pin : Fin n) : LeakageState n :=
  if isPending gate pinEndEventIdxes st pin && (events (st.pinFrontierEventIdxes pin)).time = curTime then
    { st with
      pinStates := Function.update st.pinStates pin (events (st.pinFrontierEventIdxes pin)).val
      pinFrontierEventIdxes := Function.update st.pinFrontierEventIdxes pin (st.pinFrontierEventIdxes pin + 1) }
  else st

def leakageRound (pinEndEventIdxes : Fin n → Nat) (curTime : Nat) (st : LeakageState n) : LeakageState n :=
  let st' := (List.finRange n).foldl (leakagePin gate events pinEndEventIdxes curTime) st
  { st' with
    windows := st.windows ++ [⟨st.prevTime, curTime, gate.findLeakageVal st.prevPinStates⟩]
    prevTime := curTime
    prevPinStates := st'.pinStates }

def leakageLoop (pinEndEventIdxes : Fin n → Nat) : Nat → LeakageState n → Option (LeakageState n)
  | 0, _ => none
  | fuel + 1, st =>
    let curTime := leakageScan gate events clock pinEndEventIdxes st
    if curTime = clock.sentinel then some st
    else leakageLoop pinEndEventIdxes fuel (leakageRound gate events pinEndEventIdxes curTime st)

def initLeakage (startTime : Nat) : LeakageState n where
  prevPinStates pin := (initPin gate events startTime pin).1
  pinStates pin := (initPin gate events startTime pin).1
  pinFrontierEventIdxes pin := (initPin gate events startTime pin).2
  prevTime := startTime
  windows := []

def kernel1_2 (interval periods : Periods) : Option (List Window) :=
  if periods.start = periods.stop then some []
  else
    let stops := pinEventIdxes gate events (periods.endTime interval clock)
    let st := initLeakage gate events (periods.startTime clock)
    let fuel := ((List.finRange n).map fun pin => stops pin - st.pinFrontierEventIdxes pin).sum + 1
    (leakageLoop gate events clock stops fuel st).map fun st =>
      st.windows ++ [⟨st.prevTime, min (periods.endTime interval clock) clock.maxTime,
        gate.findLeakageVal st.prevPinStates⟩]

def runLeakage (interval : Periods) : Option (List (List Window)) :=
  (List.range (cycleThreadCount gate interval)).mapM fun thread =>
    kernel1_2 gate events clock interval (cyclePeriods gate interval thread)

end Leakage

section Refines
variable {gate : Gate n} {events : Nat → Event} {clock : Clock} {stops pos : Fin n → Nat}

/-- The loop variables of the leakage kernel at a position of the frontier. -/
structure LeakageAt (gate : Gate n) (events : Nat → Event) (pos : Fin n → Nat) (st : LeakageState n) : Prop where
  prevPinStates : st.prevPinStates = statesAt gate events pos
  pinStates : st.pinStates = statesAt gate events pos
  frontier : st.pinFrontierEventIdxes = pos

theorem isPending_iff (silent : ∀ pin, gate.pinWaveforms pin = none → stops pin = 0)
    (frontier : st.pinFrontierEventIdxes = pos) : isPending gate stops st pin ↔ pos pin < stops pin := by
  rw [isPending,frontier]
  simp only [Bool.and_eq_true,decide_eq_true_eq,ne_eq,and_iff_right_iff_imp]
  intro pending none
  have := silent pin none
  omega

theorem leakageScan_eq (clock : Clock) (silent : ∀ pin, gate.pinWaveforms pin = none → stops pin = 0)
    (early : ∀ pin, pos pin < stops pin → (events (pos pin)).time < clock.sentinel)
    (frontier : st.pinFrontierEventIdxes = pos) :
    leakageScan gate events clock stops st =
      (Frontier.nextTime? (List.finRange n) (recordTime events) stops pos).getD clock.sentinel := by
  have scanning : ∀ pins : List (Fin n), ∀ bound : Nat, pins.foldl (fun curTime pin =>
      if isPending gate stops st pin then min (events (st.pinFrontierEventIdxes pin)).time curTime else curTime) bound =
      ((pins.filter fun pin => pos pin < stops pin).map fun pin => (events (pos pin)).time).foldl min bound := by
    intro pins
    induction pins with
    | nil => intro bound; rfl
    | cons pin rest ih =>
      intro bound
      rw [List.foldl_cons,ih]
      by_cases pending : pos pin < stops pin
      · simp [isPending_iff silent frontier,pending,frontier,Nat.min_comm]
      · simp [isPending_iff silent frontier,pending]
  rw [leakageScan,scanning]
  unfold Frontier.nextTime?
  have bounded : ∀ time ∈ ((List.finRange n).filter fun pin => pos pin < stops pin).map
      fun pin => (events (pos pin)).time, time < clock.sentinel := by
    intro time mem
    obtain ⟨pin, pending, rfl⟩ := List.mem_map.mp mem
    exact early pin (by simpa using (List.mem_filter.mp pending).2)
  change List.foldl min clock.sentinel _ = ((List.map (fun pin => (events (pos pin)).time) _).min?).getD _
  generalize ((List.finRange n).filter fun pin => pos pin < stops pin).map
    (fun pin => (events (pos pin)).time) = times at bounded ⊢
  cases times with
  | nil => rfl
  | cons first rest =>
    have head := bounded first (List.mem_cons_self ..)
    rw [List.foldl_cons,Nat.min_eq_right (Nat.le_of_lt head)]
    rfl

theorem leakagePins_spec (silent : ∀ pin, gate.pinWaveforms pin = none → stops pin = 0) (pins : List (Fin n))
    (distinct : pins.Nodup) (now : Nat) (st : LeakageState n) (pos : Fin n → Nat)
    (frontier : st.pinFrontierEventIdxes = pos) (states : st.pinStates = statesAt gate events pos) :
    let st' := pins.foldl (leakagePin gate events stops now) st
    let pos' := fun pin => if pin ∈ pins then Frontier.advance (recordTime events) stops pos now pin else pos pin
    st'.pinFrontierEventIdxes = pos' ∧ st'.pinStates = statesAt gate events pos' ∧
    st'.windows = st.windows ∧ st'.prevTime = st.prevTime ∧ st'.prevPinStates = st.prevPinStates := by
  induction pins generalizing st pos with
  | nil => exact ⟨by simpa using frontier, by simpa using states, rfl, rfl, rfl⟩
  | cons pin rest ih =>
    obtain ⟨fresh, distinct⟩ := List.nodup_cons.mp distinct
    by_cases hit : Frontier.due (recordTime events) stops pos now pin
    · obtain ⟨more, time⟩ := Frontier.due_iff.mp hit
      obtain ⟨range, waveform⟩ : ∃ range, gate.pinWaveforms pin = some range := by
        cases waveform : gate.pinWaveforms pin with
        | none => have := silent pin waveform; omega
        | some range => exact ⟨range, rfl⟩
      have step : leakagePin gate events stops now st pin = { st with
          pinStates := Function.update st.pinStates pin (events (pos pin)).val
          pinFrontierEventIdxes := Function.update st.pinFrontierEventIdxes pin (pos pin + 1) } := by
        simp only [recordTime] at time
        simp [leakagePin,isPending_iff silent frontier,frontier,more,time]
      have next := ih distinct (leakagePin gate events stops now st pin) (Function.update pos pin (pos pin + 1))
        (by rw [step,frontier]) (by rw [step,states,statesAt_update waveform])
      have moved : (fun other => if other ∈ rest then
            Frontier.advance (recordTime events) stops (Function.update pos pin (pos pin + 1)) now other
          else Function.update pos pin (pos pin + 1) other) = fun other =>
            if other ∈ pin :: rest then Frontier.advance (recordTime events) stops pos now other else pos other := by
        funext other
        by_cases same : other = pin
        · subst same; simp [fresh,Frontier.advance_of_due hit]
        · simp [same,Frontier.advance,Frontier.due]
      rw [moved] at next
      rw [List.foldl_cons]
      refine ⟨next.1, next.2.1, ?_⟩
      rw [next.2.2.1,next.2.2.2.1,next.2.2.2.2,step]
      exact ⟨rfl, rfl, rfl⟩
    · have step : leakagePin gate events stops now st pin = st := by
        have miss : ¬ (pos pin < stops pin ∧ (events (pos pin)).time = now) := fun h => hit (Frontier.due_iff.mpr h)
        simp only [leakagePin,frontier]
        rw [if_neg]
        simpa [isPending_iff silent frontier] using miss
      have next := ih distinct st pos frontier states
      have moved : (fun other => if other ∈ rest then Frontier.advance (recordTime events) stops pos now other
          else pos other) = fun other =>
            if other ∈ pin :: rest then Frontier.advance (recordTime events) stops pos now other else pos other := by
        funext other
        by_cases same : other = pin
        · subst same; simp [fresh,Frontier.advance_of_not_due hit]
        · simp [same]
      rw [moved] at next
      rw [List.foldl_cons,step]
      exact next

theorem leakageLoop_spec (silent : ∀ pin, gate.pinWaveforms pin = none → stops pin = 0) (pos : Fin n → Nat)
    (early : ∀ pin k, pos pin ≤ k → k < stops pin → (events k).time < clock.sentinel)
    (st : LeakageState n) (held : LeakageAt gate events pos st) (fuel : Nat)
    (enough : (Frontier.schedule (List.finRange n) (recordTime events) stops pos).length < fuel) :
    ∃ st', leakageLoop gate events clock stops fuel st = some st' ∧
      st'.prevPinStates = statesAt gate events (fun pin => max (pos pin) (stops pin)) ∧
      st'.windows = st.windows ++ windowsFrom gate events st.prevTime
        (Frontier.schedule (List.finRange n) (recordTime events) stops pos) ∧
      st'.prevTime = lastTime st.prevTime (Frontier.schedule (List.finRange n) (recordTime events) stops pos) := by
  induction pos using Frontier.schedule_induction (List.finRange n) (recordTime events) stops generalizing st fuel with
  | done pos next =>
    obtain ⟨fuel, rfl⟩ : ∃ m, fuel = m + 1 := ⟨fuel - 1, by omega⟩
    rw [Frontier.schedule_of_none next,Frontier.max_stop_of_done List.mem_finRange next]
    refine ⟨st, ?_, held.prevPinStates, by simp [windowsFrom], rfl⟩
    have scan := leakageScan_eq clock silent (fun pin => early pin _ (Nat.le_refl _)) held.frontier
    rw [next] at scan
    simp [leakageLoop,scan]
  | round pos now next ih =>
    rw [Frontier.schedule_of_some next] at enough ⊢
    obtain ⟨fuel, rfl⟩ : ∃ m, fuel = m + 1 := ⟨fuel - 1, by omega⟩
    have scan := leakageScan_eq clock silent (fun pin => early pin _ (Nat.le_refl _)) held.frontier
    rw [next,Option.getD_some] at scan
    obtain ⟨⟨pin, -, hit⟩, -⟩ := Frontier.nextTime?_eq_some_iff.mp next
    obtain ⟨more, time⟩ := Frontier.due_iff.mp hit
    have inside : now < clock.sentinel := time ▸ early pin _ (Nat.le_refl _) more
    obtain ⟨frontier, states, windows, -, -⟩ :=
      leakagePins_spec silent (List.finRange n) (List.nodup_finRange n) now st pos
      held.frontier held.pinStates
    simp only [List.mem_finRange,if_true] at frontier states
    obtain ⟨st', run, final, windows', prevTime'⟩ := ih
      (fun pin k low high => early pin k (Nat.le_trans Frontier.le_advance low) high)
      (leakageRound gate events stops now st) ⟨states, states, frontier⟩ fuel (by simpa using enough)
    rw [Frontier.max_advance_stop] at final
    refine ⟨st', ?_, final, ?_, prevTime'⟩
    · simp only [leakageLoop,scan]
      rw [if_neg (by omega)]
      exact run
    · rw [windows']
      simp only [leakageRound,windowsFrom,held.prevPinStates,List.append_assoc,List.singleton_append]

theorem kernel1_2_eq (loaded : Loaded gate events clock interval) (periods : Periods) :
    kernel1_2 gate events clock interval periods = some (threadWindows gate events clock interval periods) := by
  by_cases empty : periods.start = periods.stop
  · simp [kernel1_2,threadWindows,empty]
  have lanes := loaded.lanes periods.start (periods.endTime interval clock)
  have held : LeakageAt gate events (firstEventIdxes gate events (periods.startTime clock))
      (initLeakage gate events (periods.startTime clock)) :=
    ⟨funext fun pin => by simp [initLeakage,initPin_eq], funext fun pin => by simp [initLeakage,initPin_eq],
      funext fun pin => by simp [initLeakage,initPin_eq]⟩
  obtain ⟨st, run, final, windows, prevTime⟩ := leakageLoop_spec lanes.silent _ lanes.early _ held
    (((List.finRange n).map fun pin => pinEventIdxes gate events (periods.endTime interval clock) pin -
      (initLeakage gate events (periods.startTime clock)).pinFrontierEventIdxes pin).sum + 1)
    (Nat.lt_succ_of_le (by
      rw [held.frontier]
      exact Frontier.schedule_length_le))
  simp only [kernel1_2,empty,if_false,run,Option.map_some,threadWindows,windows,prevTime,final]
  rfl

end Refines
end GTPower
