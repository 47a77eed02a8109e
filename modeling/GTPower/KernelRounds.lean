import GTPower.Frontier
import GTPower.FusedKernel

/-! The main loop of the fused kernel is a schedule of the pins' records. What a round does depends on
the frontier positions alone: the pin states are the values just behind them, and the toggle counters
count the toggles of the current cycle from its first record on. -/
namespace GTPower

section Closed
variable (gate : Gate n) (events : Nat → Event) (clock : Clock)

def recordTime : Fin n → Nat → Nat := fun _ eventIdx => (events eventIdx).time

def togglesAt (eventIdx : Nat) : Prop := getNToggle (events (eventIdx - 1)).val (events eventIdx).val ≠ 0

instance : Decidable (togglesAt events eventIdx) := inferInstanceAs (Decidable (_ ≠ _))

def cycleOf (eventIdx : Nat) : Nat := clock.clkedWaveformIdx (events eventIdx).time

/-- Toggling records of a cycle from `first` up to and without `eventIdx`. -/
def toggleCount (first eventIdx cycle : Nat) : Nat :=
  Nat.count (fun k => first ≤ k ∧ togglesAt events k ∧ cycleOf events clock k = cycle) eventIdx

/-- Place of a toggling record among those of its cycle; the first record of a range never counts. -/
def toggleRank (range : WaveformRange) (eventIdx : Nat) : Nat :=
  toggleCount events clock (range.start + 1) (eventIdx + 1) (cycleOf events clock eventIdx)

/-- Ratio of a toggle without running counters. -/
def glitchRatioAt (pin : Fin n) (eventIdx : Nat) : ℚ :=
  if gate.pinIsClocks pin then invalidNToggleVal
  else
    match gate.pinWaveforms pin with
    | none => invalidNToggleVal
    | some range => gate.glitchScalingRatio clock pin
        (devicePulseWidth events clock range (short (toggleRank events clock range eventIdx)) eventIdx)

/-- Pin states behind the positions of the frontier. -/
def statesAt (pos : Fin n → Nat) (pin : Fin n) : Int :=
  match gate.pinWaveforms pin with
  | none => gate.getPinDefaultState pin
  | some _ => (events (pos pin - 1)).val

def recordAt (before states : Fin n → Int) (now : Nat) (pin : Fin n) (eventIdx : Nat) : Processed n :=
  ⟨pin, eventIdx, if getNToggle (states pin) (events eventIdx).val = 0 then none
    else some (contributionOf gate events clock before states now pin eventIdx (states pin)
      (glitchRatioAt gate events clock pin eventIdx))⟩

/-- What one round does with its triggered pins, one after the other. -/
def takeRecords (before : Fin n → Int) (now : Nat) (pos : Fin n → Nat) :
    (Fin n → Int) → List (Fin n) → List (Processed n)
  | _, [] => []
  | states, pin :: rest => recordAt gate events clock before states now pin (pos pin) ::
      takeRecords before now pos (Function.update states pin (events (pos pin)).val) rest

def triggeredPins (stops pos : Fin n → Nat) (now : Nat) : List (Fin n) :=
  sortTriggered pos ((List.finRange n).filter (Frontier.due (recordTime events) stops pos now))

def roundProcessed (stops : Fin n → Nat) (entry : Nat × (Fin n → Nat)) : List (Processed n) :=
  takeRecords gate events clock (statesAt gate events entry.2) entry.1 entry.2 (statesAt gate events entry.2)
    (triggeredPins events stops entry.2 entry.1)

def windowsFrom : Nat → List (Nat × (Fin n → Nat)) → List Window
  | _, [] => []
  | prevTime, (now, pos) :: rest =>
    ⟨prevTime, now, gate.findLeakageVal (statesAt gate events pos)⟩ :: windowsFrom now rest

end Closed

def lastTime : Nat → List (Nat × (Fin n → Nat)) → Nat
  | prevTime, [] => prevTime
  | _, (now, _) :: rest => lastTime now rest

section Sorting

theorem shiftGreater_perm (key : Fin n → Nat) (pin : Fin n) (sorted : List (Fin n)) :
    (shiftGreater key pin sorted).Perm (pin :: sorted) := by
  induction sorted with
  | nil => rfl
  | cons other rest ih =>
    simp only [shiftGreater]
    split
    · exact (ih.cons other).trans (List.Perm.swap pin other rest)
    · rfl

theorem sortTriggered_perm (key : Fin n → Nat) (pins : List (Fin n)) : (sortTriggered key pins).Perm pins := by
  have sorting : ∀ sorted : List (Fin n),
      (pins.foldl (fun sorted pin => shiftGreater key pin sorted) sorted).Perm (pins ++ sorted) := by
    induction pins with
    | nil => intro sorted; rfl
    | cons pin rest ih =>
      intro sorted
      refine (ih _).trans ?_
      exact ((shiftGreater_perm key pin sorted).append_left rest).trans List.perm_middle
  exact ((List.reverse_perm _).trans (sorting [])).trans (by simp)

theorem mem_triggeredPins : pin ∈ triggeredPins events stops pos now ↔
    Frontier.due (recordTime events) stops pos now pin := by
  simp [triggeredPins,(sortTriggered_perm _ _).mem_iff]

theorem triggeredPins_nodup : (triggeredPins events stops pos now).Nodup :=
  (sortTriggered_perm _ _).nodup_iff.mpr ((List.nodup_finRange _).filter _)

end Sorting

section Scan
variable {gate : Gate n} {events : Nat → Event} {stops : Fin n → Nat} {st : ThreadState n}

/-- What the scan has found after some of the pins. -/
structure Scanned (gate : Gate n) (events : Nat → Event) (stops : Fin n → Nat) (st : ThreadState n)
    (sentinel : Nat) (pins : List (Fin n)) (acc : Scan n) : Prop where
  least : ∀ pin ∈ pins, st.pinFrontierEventIdxes pin < stops pin →
    acc.curTime ≤ (events (st.pinFrontierEventIdxes pin)).time
  found : acc.curTime = sentinel ∨
    ∃ pin ∈ pins, Frontier.due (recordTime events) stops st.pinFrontierEventIdxes acc.curTime pin
  triggered : acc.triggeredPins =
    pins.filter (Frontier.due (recordTime events) stops st.pinFrontierEventIdxes acc.curTime)
  output : acc.hasOutputToggle = true ↔ ∃ pin ∈ acc.triggeredPins, gate.nInputPin ≤ pin.val ∧
    getNToggle (st.prevPinStates pin) (events (st.pinFrontierEventIdxes pin)).val ≠ 0

theorem scanPin_scanned (silent : ∀ pin, gate.pinWaveforms pin = none → stops pin = 0)
    (scanned : Scanned gate events stops st sentinel pins acc) (pin : Fin n) :
    Scanned gate events stops st sentinel (pins ++ [pin]) (scanPin gate events stops st acc pin) := by
  have skip : (gate.pinWaveforms pin = none ∨ stops pin ≤ st.pinFrontierEventIdxes pin) ↔
      ¬ st.pinFrontierEventIdxes pin < stops pin := by
    constructor
    · rintro (none | reached)
      · rw [silent pin none]; omega
      · omega
    · intro h; exact Or.inr (by omega)
  by_cases pending : st.pinFrontierEventIdxes pin < stops pin
  swap
  · have unchanged : scanPin gate events stops st acc pin = acc := by
      simp only [scanPin,if_pos (skip.mpr pending)]
    have idle : ∀ now, Frontier.due (recordTime events) stops st.pinFrontierEventIdxes now pin = false := by
      intro now; simp [Frontier.due,pending]
    rw [unchanged]
    refine ⟨?_, ?_, ?_, scanned.output⟩
    · intro other mem more
      rcases List.mem_append.mp mem with old | new
      · exact scanned.least other old more
      · exact absurd (List.mem_singleton.mp new ▸ more) pending
    · rcases scanned.found with none | ⟨other, mem, hit⟩
      · exact Or.inl none
      · exact Or.inr ⟨other, List.mem_append_left _ mem, hit⟩
    · rw [List.filter_append,← scanned.triggered]
      simp [idle]
  have same : ∀ now, Frontier.due (recordTime events) stops st.pinFrontierEventIdxes now pin =
      ((events (st.pinFrontierEventIdxes pin)).time == now) := by
    intro now; simp [Frontier.due,pending,recordTime]
  rw [scanPin,if_neg (skip.not.mpr (not_not.mpr pending))]
  generalize time_eq : (events (st.pinFrontierEventIdxes pin)).time = time at same
  rcases Nat.lt_trichotomy time acc.curTime with earlier | equal | later
  · have later : ∀ other ∈ pins,
        ¬ Frontier.due (recordTime events) stops st.pinFrontierEventIdxes time other := by
      intro other mem hit
      obtain ⟨more, hit⟩ := Frontier.due_iff.mp hit
      have := scanned.least other mem more
      simp only [recordTime] at hit
      omega
    have fresh : (pins ++ [pin]).filter
        (Frontier.due (recordTime events) stops st.pinFrontierEventIdxes time) = [pin] := by
      rw [List.filter_append,List.filter_eq_nil_iff.mpr later]
      simp [same]
    simp only [time_eq,if_pos earlier,true_and]
    constructor
    · intro other mem more
      have bound : time ≤ (events (st.pinFrontierEventIdxes other)).time := by
        rcases List.mem_append.mp mem with old | new
        · exact Nat.le_trans (Nat.le_of_lt earlier) (scanned.least other old more)
        · rw [List.mem_singleton.mp new,time_eq]
      split <;> exact bound
    · exact Or.inr ⟨pin, by simp, by split <;> simp [same]⟩
    · split <;> exact fresh.symm
    · split <;> simp_all
  · simp only [time_eq,equal,Nat.lt_irrefl,if_false,if_true,true_and]
    have joined : acc.triggeredPins ++ [pin] = (pins ++ [pin]).filter
        (Frontier.due (recordTime events) stops st.pinFrontierEventIdxes acc.curTime) := by
      rw [List.filter_append,← scanned.triggered]
      simp [same,equal]
    constructor
    · intro other mem more
      have bound : acc.curTime ≤ (events (st.pinFrontierEventIdxes other)).time := by
        rcases List.mem_append.mp mem with old | new
        · exact scanned.least other old more
        · rw [List.mem_singleton.mp new,time_eq,equal]
      split <;> exact bound
    · exact Or.inr ⟨pin, by simp, by split <;> simp [same,equal]⟩
    · split <;> exact joined
    · have old := scanned.output
      split <;> simp_all [or_and_right,exists_or]
  · have miss : Frontier.due (recordTime events) stops st.pinFrontierEventIdxes acc.curTime pin = false := by
      rw [same]; simp; omega
    have differ : time ≠ acc.curTime := by omega
    simp only [time_eq,Nat.not_lt.mpr (Nat.le_of_lt later),differ,if_false,false_and]
    refine ⟨?_, ?_, ?_, scanned.output⟩
    · intro other mem more
      rcases List.mem_append.mp mem with old | new
      · exact scanned.least other old more
      · rw [List.mem_singleton.mp new,time_eq]; exact Nat.le_of_lt later
    · rcases scanned.found with none | ⟨other, mem, hit⟩
      · exact Or.inl none
      · exact Or.inr ⟨other, List.mem_append_left _ mem, hit⟩
    · rw [List.filter_append,← scanned.triggered]
      simp [miss]

theorem scan_scanned (st : ThreadState n) (events : Nat → Event) (clock : Clock)
    (silent : ∀ pin, gate.pinWaveforms pin = none → stops pin = 0) :
    Scanned gate events stops st clock.sentinel (List.finRange n) (scan gate events clock stops st) := by
  have scanning : ∀ pins, Scanned gate events stops st clock.sentinel pins
      (pins.foldl (scanPin gate events stops st) ⟨clock.sentinel, [], false⟩) := by
    intro pins
    induction pins using List.reverseRecOn with
    | nil => exact ⟨by simp, Or.inl rfl, rfl, by simp⟩
    | append_singleton pins pin ih =>
      rw [List.foldl_append]
      exact scanPin_scanned silent ih pin
  exact scanning _

end Scan

section Loop
variable {gate : Gate n} {events : Nat → Event} {clock : Clock}

/-- The counter of a pin holds the toggles so far of its latest cycle. The statement is about every
cycle that no toggle so far is after, so that it says what counting in that cycle will find. -/
def Counted (gate : Gate n) (events : Nat → Event) (clock : Clock) (first pos : Fin n → Nat)
    (counters : Counters n) : Prop :=
  ∀ pin cycle, gate.pinIsClocks pin = false →
    (∀ k, first pin ≤ k → k < pos pin → togglesAt events k → cycleOf events clock k ≤ cycle) →
    if counters.curPeriodIdx pin = (cycle : Nat) then
      counters.nEventInCurPeriod pin = short (toggleCount events clock (first pin) (pos pin) cycle)
    else toggleCount events clock (first pin) (pos pin) cycle = 0

/-- What the loop variables hold when the frontier has moved from `first` to `pos`. -/
structure Reached (gate : Gate n) (events : Nat → Event) (clock : Clock) (first pos : Fin n → Nat)
    (st : ThreadState n) : Prop where
  states : st.prevPinStates = statesAt gate events pos
  frontier : st.pinFrontierEventIdxes = pos
  counters : Counted gate events clock first pos st.counters

/-- The records a thread may take: times do not decrease, and from the first of them on the toggles
of a cycle are all the toggles of that cycle. -/
structure Lanes (gate : Gate n) (events : Nat → Event) (clock : Clock) (first stops : Fin n → Nat) : Prop where
  silent : ∀ pin, gate.pinWaveforms pin = none → stops pin = 0
  sorted : Frontier.Sorted (recordTime events) first stops
  early : ∀ pin k, first pin ≤ k → k < stops pin → (events k).time < clock.sentinel
  whole : ∀ pin range k, gate.pinWaveforms pin = some range → first pin ≤ k → k < stops pin →
    toggleCount events clock (first pin) (k + 1) (cycleOf events clock k) = toggleRank events clock range k

theorem short_add_one (a : Int) : short (short a + 1) = short (a + 1) := Int.bmod_add_bmod

theorem toggleCount_succ (first k cycle : Nat) : toggleCount events clock first (k + 1) cycle =
    toggleCount events clock first k cycle +
      if first ≤ k ∧ togglesAt events k ∧ cycleOf events clock k = cycle then 1 else 0 := Nat.count_succ _ _

theorem toggleCount_eq_zero (none : ∀ k, first ≤ k → k < eventIdx → togglesAt events k →
    cycleOf events clock k ≠ cycle) : toggleCount events clock first eventIdx cycle = 0 :=
  Nat.count_iff_forall_not.mpr fun k less ⟨low, toggles, same⟩ => none k low less toggles same

section Counting
variable {first pos : Fin n → Nat} {counters : Counters n}

theorem count_other (counters : Counters n) {pin other : Fin n} (differ : other ≠ pin) (cycle : Int) :
    (counters.count pin cycle).curPeriodIdx other = counters.curPeriodIdx other ∧
    (counters.count pin cycle).nEventInCurPeriod other = counters.nEventInCurPeriod other := by
  unfold Counters.count
  split <;> simp [differ]

theorem Counted.skip (counted : Counted gate events clock first pos counters)
    (still : gate.pinIsClocks pin = true ∨ ¬ togglesAt events (pos pin)) :
    Counted gate events clock first (Function.update pos pin (pos pin + 1)) counters := by
  intro other cycle notClock bound
  by_cases same : other = pin
  · subst same
    have quiet : ¬ togglesAt events (pos other) := still.resolve_left (by simp [notClock])
    have unchanged : toggleCount events clock (first other) (pos other + 1) cycle =
        toggleCount events clock (first other) (pos other) cycle := by
      rw [toggleCount_succ,if_neg fun h => quiet h.2.1]; rfl
    rw [Function.update_self] at bound ⊢
    rw [unchanged]
    exact counted other cycle notClock fun k low less => bound k low (by omega)
  · rw [Function.update_of_ne same] at bound ⊢
    exact counted other cycle notClock bound

/-- Counting a toggle sets the counter to its rank among the toggles of its cycle. -/
theorem Counted.rank (counted : Counted gate events clock first pos counters)
    (notClock : gate.pinIsClocks pin = false) (low : first pin ≤ pos pin) (toggles : togglesAt events (pos pin))
    (past : ∀ k, first pin ≤ k → k < pos pin → cycleOf events clock k ≤ cycleOf events clock (pos pin)) :
    (counters.count pin (cycleOf events clock (pos pin))).curPeriodIdx pin = cycleOf events clock (pos pin) ∧
    (counters.count pin (cycleOf events clock (pos pin))).nEventInCurPeriod pin =
      short (toggleCount events clock (first pin) (pos pin + 1) (cycleOf events clock (pos pin))) := by
  have grown : toggleCount events clock (first pin) (pos pin + 1) (cycleOf events clock (pos pin)) =
      toggleCount events clock (first pin) (pos pin) (cycleOf events clock (pos pin)) + 1 := by
    rw [toggleCount_succ,if_pos ⟨low, toggles, rfl⟩]
  have held := counted pin _ notClock fun k lowk less _ => past k lowk less
  rw [grown]
  by_cases current : counters.curPeriodIdx pin = cycleOf events clock (pos pin)
  · rw [if_pos current] at held
    simp only [Counters.count,current,if_true,Function.update_self,held,true_and]
    rw [short_add_one]
    push_cast
    rfl
  · rw [if_neg current] at held
    simp only [Counters.count,if_neg (Ne.symm current),Function.update_self,held,true_and]
    rfl

theorem Counted.toggle (counted : Counted gate events clock first pos counters)
    (notClock : gate.pinIsClocks pin = false) (low : first pin ≤ pos pin) (toggles : togglesAt events (pos pin))
    (past : ∀ k, first pin ≤ k → k < pos pin → cycleOf events clock k ≤ cycleOf events clock (pos pin)) :
    Counted gate events clock first (Function.update pos pin (pos pin + 1))
      (counters.count pin (cycleOf events clock (pos pin))) := by
  intro other cycle notClock' bound
  by_cases same : other = pin
  · subst same
    obtain ⟨current, count⟩ := counted.rank notClock low toggles past
    rw [Function.update_self] at bound ⊢
    rw [current,count]
    by_cases here : cycleOf events clock (pos other) = cycle
    · rw [here,if_pos rfl]
    · rw [if_neg (by exact_mod_cast here)]
      have reached := bound (pos other) low (by omega) toggles
      refine toggleCount_eq_zero fun k lowk less _ => ?_
      rcases Nat.lt_succ_iff_lt_or_eq.mp less with before | rfl
      · have := past k lowk before; omega
      · omega
  · obtain ⟨current, count⟩ := count_other counters same (cycleOf events clock (pos pin))
    rw [Function.update_of_ne same] at bound ⊢
    rw [current,count]
    exact counted other cycle notClock' bound

end Counting

theorem takeRecords_congr (same : ∀ pin ∈ pins, pos' pin = pos pin) :
    takeRecords gate events clock before now pos' states pins =
    takeRecords gate events clock before now pos states pins := by
  induction pins generalizing states with
  | nil => rfl
  | cons pin rest ih =>
    simp only [takeRecords,same pin (List.mem_cons_self ..)]
    rw [ih fun other mem => same other (List.mem_cons_of_mem _ mem)]

theorem statesAt_update (waveform : gate.pinWaveforms pin = some range) :
    statesAt gate events (Function.update pos pin (pos pin + 1)) =
      Function.update (statesAt gate events pos) pin (events (pos pin)).val := by
  funext other
  by_cases same : other = pin
  · subst same; simp [statesAt,waveform]
  · simp [statesAt,same]

/-- The device function returns the closed form of the ratio and keeps the counters right. -/
theorem getGlitchScalingRatio_spec (lanes : Lanes gate events clock first stops)
    (counted : Counted gate events clock first pos counters) (waveform : gate.pinWaveforms pin = some range)
    (low : first pin ≤ pos pin) (high : pos pin < stops pin) (toggles : togglesAt events (pos pin)) :
    (getGlitchScalingRatioClockCycleBasedOnDeviceOnly gate events clock counters (pos pin) pin).1 =
      glitchRatioAt gate events clock pin (pos pin) ∧
    Counted gate events clock first (Function.update pos pin (pos pin + 1))
      (getGlitchScalingRatioClockCycleBasedOnDeviceOnly gate events clock counters (pos pin) pin).2 := by
  have past : ∀ k, first pin ≤ k → k < pos pin → cycleOf events clock k ≤ cycleOf events clock (pos pin) :=
    fun k lowk less => clock.clkedWaveformIdx_mono (lanes.sorted pin k (pos pin) lowk (Nat.le_of_lt less) high)
  cases isClock : gate.pinIsClocks pin with
  | true =>
    simp only [getGlitchScalingRatioClockCycleBasedOnDeviceOnly,glitchRatioAt,isClock,if_true,true_and]
    exact counted.skip (Or.inl isClock)
  | false =>
    have count := (counted.rank isClock low toggles past).2
    rw [lanes.whole pin range (pos pin) waveform low high] at count
    simp only [getGlitchScalingRatioClockCycleBasedOnDeviceOnly,glitchRatioAt,isClock,waveform,
      Bool.false_eq_true,if_false]
    exact ⟨by rw [← count]; rfl, counted.toggle isClock low toggles past⟩

/-- One record: the frontier moves past it, and the record is kept with its closed form. -/
theorem processPin_spec (before : Fin n → Int) (now : Nat) (lanes : Lanes gate events clock first stops)
    (reached : Reached gate events clock first pos st) (waveform : gate.pinWaveforms pin = some range)
    (low : first pin ≤ pos pin) (high : pos pin < stops pin) :
    Reached gate events clock first (Function.update pos pin (pos pin + 1))
      (processPin gate events clock before now st pin) ∧
    (processPin gate events clock before now st pin).processed =
      st.processed ++ [recordAt gate events clock before st.prevPinStates now pin (pos pin)] ∧
    (processPin gate events clock before now st pin).windows = st.windows ∧
    (processPin gate events clock before now st pin).prevTime = st.prevTime := by
  have oldVal : st.prevPinStates pin = (events (pos pin - 1)).val := by
    rw [reached.states]; simp [statesAt,waveform]
  have states : Function.update st.prevPinStates pin (events (pos pin)).val =
      statesAt gate events (Function.update pos pin (pos pin + 1)) := by
    rw [statesAt_update waveform,reached.states]
  by_cases toggles : getNToggle (st.prevPinStates pin) (events (pos pin)).val = 0
  · have still : ¬ togglesAt events (pos pin) := by
      rw [togglesAt,← oldVal]; exact not_not.mpr toggles
    simp only [processPin,reached.frontier,toggles,if_true,recordAt]
    exact ⟨⟨states, rfl, reached.counters.skip (Or.inr still)⟩, trivial, trivial, trivial⟩
  · have moves : togglesAt events (pos pin) := by rw [togglesAt,← oldVal]; exact toggles
    have glitch := getGlitchScalingRatio_spec lanes reached.counters waveform low high moves
    simp only [processPin,reached.frontier,toggles,if_false,recordAt]
    exact ⟨⟨states, rfl, glitch.2⟩, by rw [glitch.1], trivial, trivial⟩

theorem processPins_spec (before : Fin n → Int) (now : Nat) (lanes : Lanes gate events clock first stops)
    (pins : List (Fin n)) (distinct : pins.Nodup) (reached : Reached gate events clock first pos st)
    (ready : ∀ pin ∈ pins, first pin ≤ pos pin ∧ pos pin < stops pin) :
    let st' := pins.foldl (processPin gate events clock before now) st
    Reached gate events clock first (fun pin => if pin ∈ pins then pos pin + 1 else pos pin) st' ∧
    st'.processed = st.processed ++ takeRecords gate events clock before now pos st.prevPinStates pins ∧
    st'.windows = st.windows ∧ st'.prevTime = st.prevTime := by
  induction pins generalizing pos st with
  | nil => exact ⟨by simpa using reached, by simp [takeRecords], rfl, rfl⟩
  | cons pin rest ih =>
    obtain ⟨fresh, distinct⟩ := List.nodup_cons.mp distinct
    obtain ⟨low, high⟩ := ready pin (List.mem_cons_self ..)
    obtain ⟨range, waveform⟩ : ∃ range, gate.pinWaveforms pin = some range := by
      cases waveform : gate.pinWaveforms pin with
      | none => have := lanes.silent pin waveform; omega
      | some range => exact ⟨range, rfl⟩
    have kept : ∀ other ∈ rest, Function.update pos pin (pos pin + 1) other = pos other := by
      intro other mem
      have differ : other ≠ pin := fun same => fresh (same ▸ mem)
      rw [Function.update_of_ne differ]
    obtain ⟨reached', processed, windows, prevTime⟩ :=
      processPin_spec before now lanes reached waveform low high
    have step := ih distinct reached' (fun other mem => by
      rw [kept other mem]; exact ready other (List.mem_cons_of_mem _ mem))
    have moved : (fun other => if other ∈ rest then Function.update pos pin (pos pin + 1) other + 1
          else Function.update pos pin (pos pin + 1) other) =
        fun other => if other ∈ pin :: rest then pos other + 1 else pos other := by
      funext other
      by_cases same : other = pin
      · subst same; simp [fresh]
      · simp [same]
    have records : takeRecords gate events clock before now (Function.update pos pin (pos pin + 1))
          (processPin gate events clock before now st pin).prevPinStates rest =
        takeRecords gate events clock before now pos
          (Function.update st.prevPinStates pin (events (pos pin)).val) rest := by
      rw [reached'.states,statesAt_update waveform,← reached.states]
      exact takeRecords_congr kept
    rw [moved,records,processed,windows,prevTime] at step
    refine ⟨step.1, ?_, step.2.2⟩
    rw [List.foldl_cons,step.2.1,takeRecords,List.append_assoc,List.singleton_append]

/-- Only toggles of output pins read the states before the current time. -/
theorem takeRecords_before (distinct : pins.Nodup)
    (quiet : ∀ pin ∈ pins, gate.nInputPin ≤ pin.val → getNToggle (states pin) (events (pos pin)).val = 0) :
    takeRecords gate events clock before now pos states pins =
      takeRecords gate events clock before' now pos states pins := by
  induction pins generalizing states with
  | nil => rfl
  | cons pin rest ih =>
    obtain ⟨fresh, distinct⟩ := List.nodup_cons.mp distinct
    have head : recordAt gate events clock before states now pin (pos pin) =
        recordAt gate events clock before' states now pin (pos pin) := by
      by_cases input : pin.val < gate.nInputPin
      · simp [recordAt,contributionOf,input]
      · simp [recordAt,quiet pin (List.mem_cons_self ..) (by omega)]
    simp only [takeRecords,head]
    rw [ih distinct fun other mem output => ?_]
    have differ : other ≠ pin := fun same => fresh (same ▸ mem)
    rw [Function.update_of_ne differ]
    exact quiet other (List.mem_cons_of_mem _ mem) output

theorem scan_of_next (lanes : Lanes gate events clock first stops) (reached : Reached gate events clock first pos st)
    (low : ∀ pin, first pin ≤ pos pin)
    (next : Frontier.nextTime? (List.finRange n) (recordTime events) stops pos = some now) :
    (scan gate events clock stops st).curTime = now ∧ now < clock.sentinel ∧
    (scan gate events clock stops st).triggeredPins =
      (List.finRange n).filter (Frontier.due (recordTime events) stops pos now) := by
  have scanned := scan_scanned st events clock lanes.silent
  obtain ⟨⟨pin, mem, hit⟩, least⟩ := Frontier.nextTime?_eq_some_iff.mp next
  obtain ⟨more, time⟩ := Frontier.due_iff.mp hit
  have inside : now < clock.sentinel := time ▸ lanes.early pin _ (low pin) more
  have upper : (scan gate events clock stops st).curTime ≤ now := by
    rw [← time]
    simpa [recordTime,reached.frontier] using scanned.least pin mem (by rw [reached.frontier]; exact more)
  have exact_time : (scan gate events clock stops st).curTime = now := by
    rcases scanned.found with none | ⟨other, mem, hit⟩
    · omega
    · rw [reached.frontier] at hit
      obtain ⟨more, same⟩ := Frontier.due_iff.mp hit
      have := least other mem more
      omega
  refine ⟨exact_time, inside, ?_⟩
  rw [scanned.triggered,exact_time,reached.frontier]

theorem scan_of_done (lanes : Lanes gate events clock first stops) (reached : Reached gate events clock first pos st)
    (next : Frontier.nextTime? (List.finRange n) (recordTime events) stops pos = none) :
    (scan gate events clock stops st).curTime = clock.sentinel := by
  rcases (scan_scanned st events clock lanes.silent).found with found | ⟨pin, mem, hit⟩
  · exact found
  · rw [reached.frontier] at hit
    have := Frontier.nextTime?_eq_none_iff.mp next pin mem
    have := (Frontier.due_iff.mp hit).1
    omega

theorem processRound_spec (lanes : Lanes gate events clock first stops)
    (reached : Reached gate events clock first pos st) (low : ∀ pin, first pin ≤ pos pin)
    (next : Frontier.nextTime? (List.finRange n) (recordTime events) stops pos = some now) :
    let st' := processRound gate events clock st (scan gate events clock stops st)
    Reached gate events clock first (Frontier.advance (recordTime events) stops pos now) st' ∧
    st'.processed = st.processed ++ roundProcessed gate events clock stops (now, pos) ∧
    st'.windows = st.windows ++ [⟨st.prevTime, now, gate.findLeakageVal (statesAt gate events pos)⟩] ∧
    st'.prevTime = now := by
  obtain ⟨time, -, triggered⟩ := scan_of_next lanes reached low next
  have scanned := scan_scanned st events clock lanes.silent
  have reached' : Reached gate events clock first pos
      { st with windows := st.windows ++ [⟨st.prevTime, now, gate.findLeakageVal st.prevPinStates⟩] } :=
    ⟨reached.states, reached.frontier, reached.counters⟩
  have sorted : sortTriggered st.pinFrontierEventIdxes (scan gate events clock stops st).triggeredPins =
      triggeredPins events stops pos now := by
    rw [triggered,reached.frontier]; rfl
  have ready : ∀ pin ∈ triggeredPins events stops pos now, first pin ≤ pos pin ∧ pos pin < stops pin :=
    fun pin mem => ⟨low pin, (Frontier.due_iff.mp (mem_triggeredPins.mp mem)).1⟩
  have moved : (fun pin => if pin ∈ triggeredPins events stops pos now then pos pin + 1 else pos pin) =
      Frontier.advance (recordTime events) stops pos now := by
    funext pin
    simp only [mem_triggeredPins,Frontier.advance]
  -- without an output toggle the copied states stay uninitialised, and nothing reads them
  have unread : takeRecords gate events clock
        (if (scan gate events clock stops st).hasOutputToggle then st.prevPinStates else fun _ => 0) now pos
        st.prevPinStates (triggeredPins events stops pos now) =
      roundProcessed gate events clock stops (now, pos) := by
    rw [roundProcessed,← reached.states]
    by_cases flag : (scan gate events clock stops st).hasOutputToggle = true
    · rw [if_pos flag]
    · rw [if_neg flag]
      refine takeRecords_before triggeredPins_nodup fun pin mem output => ?_
      by_contra toggles
      refine flag (scanned.output.mpr ⟨pin, ?_, output, ?_⟩)
      · rw [triggered]; simpa using mem_triggeredPins.mp mem
      · rw [reached.frontier]; exact toggles
  obtain ⟨final, processed, windows, -⟩ := processPins_spec
    (if (scan gate events clock stops st).hasOutputToggle then st.prevPinStates else fun _ => 0) now lanes
      (triggeredPins events stops pos now) triggeredPins_nodup reached' ready
  rw [moved] at final
  rw [unread] at processed
  simp only [processRound,sorted,time]
  refine ⟨⟨final.states, final.frontier, final.counters⟩, processed, ?_, trivial⟩
  rw [windows,reached.states]

/-- The whole loop: its rounds are the schedule of the records, and it ends with every record of the
thread taken. -/
theorem mainLoop_spec (lanes : Lanes gate events clock first stops) (pos : Fin n → Nat) (st : ThreadState n)
    (reached : Reached gate events clock first pos st) (low : ∀ pin, first pin ≤ pos pin) (fuel : Nat)
    (enough : (Frontier.schedule (List.finRange n) (recordTime events) stops pos).length < fuel) :
    ∃ st', mainLoop gate events clock stops fuel st = some st' ∧
      Reached gate events clock first (fun pin => max (pos pin) (stops pin)) st' ∧
      st'.processed = st.processed ++ (Frontier.schedule (List.finRange n) (recordTime events) stops pos).flatMap
        (roundProcessed gate events clock stops) ∧
      st'.windows = st.windows ++ windowsFrom gate events st.prevTime
        (Frontier.schedule (List.finRange n) (recordTime events) stops pos) ∧
      st'.prevTime = lastTime st.prevTime (Frontier.schedule (List.finRange n) (recordTime events) stops pos) := by
  induction pos using Frontier.schedule_induction (List.finRange n) (recordTime events) stops generalizing st fuel with
  | done pos next =>
    obtain ⟨fuel, rfl⟩ : ∃ m, fuel = m + 1 := ⟨fuel - 1, by omega⟩
    rw [Frontier.schedule_of_none next,Frontier.max_stop_of_done List.mem_finRange next]
    refine ⟨st, ?_, reached, by simp, by simp [windowsFrom], rfl⟩
    simp only [mainLoop,scan_of_done lanes reached next,if_true]
  | round pos now next ih =>
    rw [Frontier.schedule_of_some next] at enough ⊢
    obtain ⟨fuel, rfl⟩ : ∃ m, fuel = m + 1 := ⟨fuel - 1, by omega⟩
    obtain ⟨time, inside, -⟩ := scan_of_next lanes reached low next
    obtain ⟨reached', processed, windows, prevTime⟩ := processRound_spec lanes reached low next
    obtain ⟨st', run, final, processed', windows', prevTime'⟩ := ih _ reached'
      (fun pin => Nat.le_trans (low pin) Frontier.le_advance) fuel (by simpa using enough)
    rw [Frontier.max_advance_stop] at final
    refine ⟨st', ?_, final, ?_, ?_, ?_⟩
    · simp only [mainLoop]
      rw [if_neg (by omega)]
      exact run
    · rw [processed',processed,List.append_assoc,List.flatMap_cons]
    · rw [windows',windows,prevTime,List.append_assoc]; rfl
    · rw [prevTime',prevTime]; rfl

end Loop
end GTPower
