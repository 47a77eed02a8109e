import GTPower.Timeline
import GTPower.Gate

/-! The fused kernel of one gate: every thread rebuilds the state at its first cycle and merges the
records of the pins up to its last one. Results are kept as the records processed and the leakage
windows, from which the accumulated powers are sums. -/
namespace GTPower

/-- Toggle counter of the clock cycle each pin is in. -/
structure Counters (n : Nat) where
  curPeriodIdx : Fin n → Int
  nEventInCurPeriod : Fin n → Int

/-- What the kernel adds for one toggling record. -/
structure Contribution (n : Nat) where
  pin : Fin n
  eventIdx : Nat
  oldVal : Int
  newVal : Int
  pinStates : Fin n → Int
  glitchScalingRatio : ℚ
  cycleIdx : Nat
  internalEnergy : ℚ
  switchingEnergy : ℚ
  deriving DecidableEq

/-- A record taken from its pin; it contributes when it toggles. -/
structure Processed (n : Nat) where
  pin : Fin n
  eventIdx : Nat
  contribution : Option (Contribution n)
  deriving DecidableEq

/-- Leakage of constant pin states from `start` to `stop`. -/
abbrev Window := Timeline.Span ℚ

structure ThreadState (n : Nat) where
  prevPinStates : Fin n → Int
  pinFrontierEventIdxes : Fin n → Nat
  counters : Counters n
  prevTime : Nat
  processed : List (Processed n)
  windows : List Window

structure ThreadResult (n : Nat) where
  processed : List (Processed n)
  windows : List Window

def ThreadResult.contributions (result : ThreadResult n) : List (Contribution n) :=
  result.processed.filterMap (·.contribution)

structure Scan (n : Nat) where
  curTime : Nat
  triggeredPins : List (Fin n)
  hasOutputToggle : Bool

section Glitch
variable (events : Nat → Event) (clock : Clock) (range : WaveformRange)

def prevGlitchPulseWidth (eventIdx : Nat) : Int :=
  if range.start + 1 ≤ eventIdx ∧
      clock.clkedWaveformIdx (events eventIdx).time = clock.clkedWaveformIdx (events (eventIdx - 1)).time then
    (events eventIdx).time - (events (eventIdx - 1)).time
  else invalidPulseWidth

/-- Whether the record `distance` places later is in the range and in the same cycle. -/
def sameCycleAhead (eventIdx distance : Nat) : Bool :=
  eventIdx + distance < range.stop &&
    clock.clkedWaveformIdx (events eventIdx).time == clock.clkedWaveformIdx (events (eventIdx + distance)).time

def devicePulseWidth (countSoFar : Int) (eventIdx : Nat) : Int :=
  Gate.selectPulseWidth countSoFar (prevGlitchPulseWidth events clock range eventIdx)
    (if sameCycleAhead events clock range eventIdx 1 then
      some ((events (eventIdx + 1)).time - (events eventIdx).time) else none)
    (sameCycleAhead events clock range eventIdx 2)

end Glitch

def Counters.count (counters : Counters n) (pin : Fin n) (periodIdx : Int) : Counters n :=
  if periodIdx = counters.curPeriodIdx pin then
    { counters with
      nEventInCurPeriod := Function.update counters.nEventInCurPeriod pin (short (counters.nEventInCurPeriod pin + 1)) }
  else
    { curPeriodIdx := Function.update counters.curPeriodIdx pin periodIdx
      nEventInCurPeriod := Function.update counters.nEventInCurPeriod pin 1 }

section Kernel
variable (gate : Gate n) (events : Nat → Event) (clock : Clock)

/-- Ratio of the toggle at `eventIdx`, with the counters advanced past it. -/
def getGlitchScalingRatioClockCycleBasedOnDeviceOnly (counters : Counters n) (eventIdx : Nat) (pin : Fin n) :
    ℚ × Counters n :=
  if gate.pinIsClocks pin then (invalidNToggleVal, counters)
  else
    let counters := counters.count pin (clock.clkedWaveformIdx (events eventIdx).time)
    match gate.pinWaveforms pin with
    | none => (invalidNToggleVal, counters)
    | some range => (gate.glitchScalingRatio clock pin
        (devicePulseWidth events clock range (counters.nEventInCurPeriod pin) eventIdx), counters)

/-- Energies of a toggle. `pinStates` are the states a lookup on an input pin sees, `before` those
before the current time, which a lookup on an output pin sees. -/
def contributionOf (before pinStates : Fin n → Int) (now : Nat) (pin : Fin n) (eventIdx : Nat)
    (oldVal : Int) (ratio : ℚ) : Contribution n :=
  let newVal := (events eventIdx).val
  let isInput := pin.val < gate.nInputPin
  { pin, eventIdx, oldVal, newVal
    pinStates := if isInput then pinStates else before
    glitchScalingRatio := ratio
    cycleIdx := clock.clkedWaveformIdx now
    internalEnergy := getNToggle oldVal newVal *
      if isInput then gate.getInputPinInternalEnergyVal pinStates pin (getRiseFallEdge oldVal newVal)
      else gate.getOutputPinInternalEnergyVal events clock now pin (getRiseFallEdge oldVal newVal) before
    switchingEnergy :=
      if isInput then 0
      else if 0 < getNRise oldVal newVal then getNRise oldVal newVal * gate.getSingleRiseTransitionEnergy pin
      else 0 }

def scanPin (pinEndEventIdxes : Fin n → Nat) (st : ThreadState n) (acc : Scan n) (pin : Fin n) : Scan n :=
  if gate.pinWaveforms pin = none ∨ pinEndEventIdxes pin ≤ st.pinFrontierEventIdxes pin then acc
  else
    let event := events (st.pinFrontierEventIdxes pin)
    let acc : Scan n :=
      if event.time < acc.curTime then ⟨event.time, [pin], false⟩
      else if event.time = acc.curTime then { acc with triggeredPins := acc.triggeredPins ++ [pin] }
      else acc
    if event.time = acc.curTime ∧ gate.nInputPin ≤ pin.val ∧ getNToggle (st.prevPinStates pin) event.val ≠ 0 then
      { acc with hasOutputToggle := true }
    else acc

/-- Sentinel above every record time. -/
def Clock.sentinel (clock : Clock) : Nat := clock.maxTime + 10

def scan (pinEndEventIdxes : Fin n → Nat) (st : ThreadState n) : Scan n :=
  (List.finRange n).foldl (scanPin gate events pinEndEventIdxes st) ⟨clock.sentinel, [], false⟩

/-- The inner loop of the insertion sort, on the sorted part from its right end. -/
def shiftGreater (key : Fin n → Nat) (pin : Fin n) : List (Fin n) → List (Fin n)
  | [] => [pin]
  | other :: rest => if key pin < key other then other :: shiftGreater key pin rest else pin :: other :: rest

def sortTriggered (key : Fin n → Nat) (triggeredPins : List (Fin n)) : List (Fin n) :=
  (triggeredPins.foldl (fun sorted pin => shiftGreater key pin sorted) []).reverse

def processPin (before : Fin n → Int) (now : Nat) (st : ThreadState n) (pin : Fin n) : ThreadState n :=
  let eventIdx := st.pinFrontierEventIdxes pin
  let newVal := (events eventIdx).val
  let oldVal := st.prevPinStates pin
  let st' := { st with
    pinFrontierEventIdxes := Function.update st.pinFrontierEventIdxes pin (eventIdx + 1)
    prevPinStates := Function.update st.prevPinStates pin newVal }
  if getNToggle oldVal newVal = 0 then { st' with processed := st.processed ++ [⟨pin, eventIdx, none⟩] }
  else
    let glitch := getGlitchScalingRatioClockCycleBasedOnDeviceOnly gate events clock st.counters eventIdx pin
    { st' with
      counters := glitch.2
      processed := st.processed ++ [⟨pin, eventIdx,
        some (contributionOf gate events clock before st.prevPinStates now pin eventIdx oldVal glitch.1)⟩] }

/-- One round of the main loop at the time the scan found. The copy of the states before that time
is only made when an output toggles; otherwise it stays uninitialised. -/
def processRound (st : ThreadState n) (found : Scan n) : ThreadState n :=
  let before := if found.hasOutputToggle then st.prevPinStates else fun _ => 0
  let window : Window := ⟨st.prevTime, found.curTime, gate.findLeakageVal st.prevPinStates⟩
  let st' := (sortTriggered st.pinFrontierEventIdxes found.triggeredPins).foldl
    (processPin gate events clock before found.curTime) { st with windows := st.windows ++ [window] }
  { st' with prevTime := found.curTime }

def mainLoop (pinEndEventIdxes : Fin n → Nat) : Nat → ThreadState n → Option (ThreadState n)
  | 0, _ => none
  | fuel + 1, st =>
    let found := scan gate events clock pinEndEventIdxes st
    if found.curTime = clock.sentinel then some st
    else mainLoop pinEndEventIdxes fuel (processRound gate events clock st found)

/-- First record of each pin at or after `time`; a pin without waveform has no records. -/
def pinEventIdxes (time : Nat) (pin : Fin n) : Nat :=
  match gate.pinWaveforms pin with
  | none => 0
  | some range => getEventIdxByTime events range.start range.stop time false

def initPin (startTime : Nat) (pin : Fin n) : Int × Nat :=
  match gate.pinWaveforms pin with
  | none => (gate.getPinDefaultState pin, 0)
  | some range =>
    let prevEventIdx := max range.start (pinEventIdxes gate events startTime pin - 1)
    ((events prevEventIdx).val,
      if prevEventIdx = range.start then range.start + 1 else pinEventIdxes gate events startTime pin)

def initState (startTime : Nat) : ThreadState n where
  prevPinStates pin := (initPin gate events startTime pin).1
  pinFrontierEventIdxes pin := (initPin gate events startTime pin).2
  counters := ⟨fun _ => invalidNPeriodVal, fun _ => 0⟩
  prevTime := startTime
  processed := []
  windows := []

/-- Cycles `[start, stop)` of a thread or of an interval. -/
structure Periods where
  start : Nat
  stop : Nat
  deriving DecidableEq, Repr

def Periods.startTime (periods : Periods) (clock : Clock) : Nat := periods.start * clock.vcdTimeUnitPerCycle

/-- End of a thread; one tick more when it reaches the end of the interval exactly. -/
def Periods.endTime (periods : Periods) (interval : Periods) (clock : Clock) : Nat :=
  periods.stop * clock.vcdTimeUnitPerCycle + if periods.stop = interval.stop then 1 else 0

def loopFuel (pinEndEventIdxes : Fin n → Nat) (st : ThreadState n) : Nat :=
  ((List.finRange n).map fun pin => pinEndEventIdxes pin - st.pinFrontierEventIdxes pin).sum + 1

def kernel1All (interval periods : Periods) : Option (ThreadResult n) :=
  if periods.start = periods.stop then some ⟨[], []⟩
  else
    let stops := pinEventIdxes gate events (periods.endTime interval clock)
    let st := initState gate events (periods.startTime clock)
    (mainLoop gate events clock stops (loopFuel stops st) st).map fun st =>
      { processed := st.processed
        windows := st.windows ++ [⟨st.prevTime, min (periods.endTime interval clock) clock.maxTime,
          gate.findLeakageVal st.prevPinStates⟩] }

end Kernel

section Partition
variable (gate : Gate n) (events : Nat → Event) (clock : Clock) (interval : Periods)

def ceilDiv (a b : Nat) : Nat := (a + b - 1) / b

/-- Cycle basis: the threads take `nCyclePerThread` cycles each. -/
def cycleThreadCount : Nat := ceilDiv (interval.stop - interval.start) gate.nCyclePerThread

def cyclePeriods (thread : Nat) : Periods :=
  ⟨thread * gate.nCyclePerThread + interval.start, (thread + 1) * gate.nCyclePerThread + interval.start⟩

def runCycleBasis : Option (List (ThreadResult n)) :=
  (List.range (cycleThreadCount gate interval)).mapM fun thread =>
    kernel1All gate events clock interval (cyclePeriods gate interval thread)

end Partition

end GTPower
