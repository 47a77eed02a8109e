import GTPower.LookupTable

/-! A gate with its pin data and the energy lookups the kernels share. `n` is the number of pins;
pins below `nInputPin` are inputs. A null pointer of the source is `none`. -/
namespace GTPower

/-- The records `[start, stop)` of the event buffer that belong to a pin. -/
structure WaveformRange where
  start : Nat
  stop : Nat
  deriving DecidableEq, Repr

structure Gate (n : Nat) where
  isLogic : Bool
  leakagePowers : Option (Nat → ℚ)
  defaultLeakageExists : Bool
  defaultLeakagePowerVal : ℚ
  nInputPin : Nat
  pinWaveforms : Fin n → Option WaveformRange
  pinDefaultStates : Option (Fin n → Int)
  nCyclePerThread : Nat
  pinVoltages : Fin n → ℚ
  pinRiseSlews : Fin n → ℚ
  pinFallSlews : Fin n → ℚ
  pinLoadCapacitances : Fin n → ℚ
  pinIsClocks : Fin n → Bool
  cellArcDelays : Nat → ℚ
  inputPinInternalPowerLUTs : Fin n → Option (Nat → Option OneDimensionalLUTPair)
  inputPinInternalPowerLUTsIndexedByOrder : Fin n → List OneDimensionalLUTPair
  outputPinInternalPowerLUTs : Nat → Option (Fin n → Option (Nat → Option TwoDimensionalLUTPair))
  outputPinInternalPowerLUTsIndexedByOrder : Nat → Option (Fin n → List TwoDimensionalLUTPair)

namespace Gate
variable (gate : Gate n)

def inputPins : List (Fin n) := (List.finRange n).filter fun pin => pin.val < gate.nInputPin

def outputPinLocalIdx (pin : Fin n) : Nat := pin.val - gate.nInputPin

def cellArcDelay (outputPinLocalIdx inputPinIdx : Nat) (fromRf toRf : RiseFall) : ℚ :=
  let arcIdx := 2 * (1 - fromRf.toNat) + (1 - toRf.toNat)
  gate.cellArcDelays ((outputPinLocalIdx * gate.nInputPin + inputPinIdx) * 4 + arcIdx)

def getPinSlew (pin : Fin n) : RiseFall → ℚ
  | .rise => gate.pinRiseSlews pin
  | .fall => gate.pinFallSlews pin

def getSingleRiseTransitionEnergy (pin : Fin n) : ℚ :=
  gate.pinLoadCapacitances pin * gate.pinVoltages pin * gate.pinVoltages pin

def getPinDefaultState (pin : Fin n) : Int :=
  match gate.pinDefaultStates with
  | none => 2
  | some defaults => if defaults pin = 0 ∨ defaults pin = 1 then defaults pin else 2

/-- A gate with unit load, voltage and leakage, without arcs and tables. -/
def bare (nInputPin : Nat) (pinWaveforms : Fin n → Option WaveformRange) : Gate n where
  isLogic := true
  leakagePowers := none
  defaultLeakageExists := true
  defaultLeakagePowerVal := 1
  nInputPin := nInputPin
  pinWaveforms := pinWaveforms
  pinDefaultStates := none
  nCyclePerThread := 1
  pinVoltages _ := 1
  pinRiseSlews _ := 1
  pinFallSlews _ := 1
  pinLoadCapacitances _ := 1
  pinIsClocks _ := false
  cellArcDelays _ := -1
  inputPinInternalPowerLUTs _ := none
  inputPinInternalPowerLUTsIndexedByOrder _ := []
  outputPinInternalPowerLUTs _ := none
  outputPinInternalPowerLUTsIndexedByOrder _ := none

end Gate

/-- Binary encoding of the pins at 1. Unknown pins count as 0. -/
def getPinStatesIndex (pinStates : Fin n → Int) : Nat :=
  ((List.finRange n).map fun pin => (if pinStates pin = 1 then 1 else 0) * 2 ^ pin.val).sum

namespace Gate
variable (gate : Gate n)

def findLeakageVal (pinStates : Fin n → Int) : ℚ :=
  match gate.leakagePowers with
  | some powers => powers (getPinStatesIndex pinStates)
  | none => if gate.defaultLeakageExists then gate.defaultLeakagePowerVal else 0

/-- The group a lookup uses: the entry of the state-indexed table, else the first group in order
whose condition matches. -/
def selectLUT (byState : Option (Nat → Option (LUTPair α))) (byOrder : List (LUTPair α))
    (pinStates : Fin n → Int) : Option (LUTPair α) :=
  match byState.bind fun table => table (getPinStatesIndex pinStates) with
  | some pair => some pair
  | none => byOrder.find? fun pair => pair.matchPinStates pinStates

def getInputPinInternalEnergyVal (pinStates : Fin n → Int) (togglePin : Fin n) (riseFall : RiseFall) : ℚ :=
  match selectLUT (gate.inputPinInternalPowerLUTs togglePin)
      (gate.inputPinInternalPowerLUTsIndexedByOrder togglePin) pinStates with
  | some pair => OneDimensionalLUTPair.lookUp pair (gate.getPinSlew togglePin riseFall) riseFall
  | none => 0

/-- Average over every group of every related input pin and both input edges that have a valid arc
delay and slew. -/
def getDefaultOutputPinInternalEnergyVal (togglePin : Fin n) (toRf : RiseFall) : ℚ :=
  let localIdx := gate.outputPinLocalIdx togglePin
  let energies : List ℚ :=
    match gate.outputPinInternalPowerLUTsIndexedByOrder localIdx with
    | none => []
    | some luts => gate.inputPins.flatMap fun related => (luts related).flatMap fun pair =>
        ([.rise, .fall].filter fun fromRf => isValidDelay (gate.cellArcDelay localIdx related fromRf toRf) &&
          isValidSlew (gate.getPinSlew related fromRf)).map fun fromRf =>
            TwoDimensionalLUTPair.lookUp pair (gate.getPinSlew related fromRf)
              (gate.pinLoadCapacitances togglePin) toRf
  if energies.length = 0 then 0 else energies.sum / energies.length

/-- The best candidate of the scan for the related pin so far. -/
structure Related (n : Nat) where
  minDiffTime : Int
  related : Option (Fin n × Nat)

/-- Edge of the record `eventIdx` against the one before it in a range; the first record of a range
is compared with itself. -/
def edgeAt (events : Nat → Event) (range : WaveformRange) (eventIdx : Nat) : RiseFall :=
  getRiseFallEdge (events (max range.start (eventIdx - 1))).val (events eventIdx).val

/-- Latest record of the range before `curTime`, or the first record. -/
def relatedEventIdx (events : Nat → Event) (range : WaveformRange) (curTime : Nat) : Nat :=
  max range.start (getEventIdxByTime events range.start range.stop curTime false - 1)

def arcDelayTicks (clock : Clock) (delay : ℚ) : Int :=
  let inTicks := delay / clock.vcdTimeScale
  truncate (if 0 ≤ inTicks then inTicks + 1 / 2 else inTicks - 1 / 2)

def relateInputPin (events : Nat → Event) (clock : Clock) (curTime : Nat) (togglePin : Fin n) (toRf : RiseFall)
    (best : Related n) (pin : Fin n) : Related n :=
  match gate.pinWaveforms pin with
  | none => best
  | some range =>
    let eventIdx := relatedEventIdx events range curTime
    let delay := gate.cellArcDelay (gate.outputPinLocalIdx togglePin) pin (edgeAt events range eventIdx) toRf
    if !isValidDelay delay then best
    else
      let arrivalTime : Int := (events eventIdx).time + arcDelayTicks clock delay
      let diffTime := |(curTime : Int) - arrivalTime|
      if gate.isLogic ∧ clock.clkedWaveformIdx (events eventIdx).time ≠ clock.clkedWaveformIdx curTime then best
      else
        let nearTieWithSameInputTime : Bool := match best.related with
          | none => false
          | some (_, relatedIdx) => (events eventIdx).time = (events relatedIdx).time &&
              |diffTime - best.minDiffTime| ≤ 1 && relatedIdx < eventIdx
        if diffTime < best.minDiffTime ∨ nearTieWithSameInputTime then ⟨diffTime, some (pin, eventIdx)⟩ else best

def findRelatedPin (events : Nat → Event) (clock : Clock) (curTime : Nat) (togglePin : Fin n) (toRf : RiseFall) :
    Option (Fin n × Nat) :=
  (gate.inputPins.foldl (gate.relateInputPin events clock curTime togglePin toRf) ⟨clock.maxTime, none⟩).related

def getOutputPinInternalEnergyVal (events : Nat → Event) (clock : Clock) (curTime : Nat) (togglePin : Fin n)
    (toRf : RiseFall) (prevPinStates : Fin n → Int) : ℚ :=
  match gate.findRelatedPin events clock curTime togglePin toRf with
  | none => gate.getDefaultOutputPinInternalEnergyVal togglePin toRf
  | some (related, eventIdx) =>
    let localIdx := gate.outputPinLocalIdx togglePin
    let fromRf := match gate.pinWaveforms related with
      | none => .fall
      | some range => edgeAt events range eventIdx
    match selectLUT ((gate.outputPinInternalPowerLUTs localIdx).bind fun luts => luts related)
        (((gate.outputPinInternalPowerLUTsIndexedByOrder localIdx).map fun luts => luts related).getD [])
        prevPinStates with
    | some pair => TwoDimensionalLUTPair.lookUp pair (gate.getPinSlew related fromRf)
        (gate.pinLoadCapacitances togglePin) toRf
    | none => gate.getDefaultOutputPinInternalEnergyVal togglePin toRf

/-- Choice of the pulse a toggle belongs to from its place in its cycle: `countSoFar` toggles of the
cycle up to it, the widths to its neighbours of the same cycle, and whether the next but one record
is still in the cycle. `invalidPulseWidth` when the toggle is no glitch. -/
def selectPulseWidth (countSoFar : Int) (prevWidth : Int) (nextWidth : Option Int) (afterNext : Bool) : Int :=
  match nextWidth with
  | some width =>
    max prevWidth (if afterNext ∨ Int.tmod countSoFar 2 = 1 then width else invalidPulseWidth)
  | none => if Int.tmod countSoFar 2 = 1 then invalidPulseWidth else max prevWidth invalidPulseWidth

def glitchScalingRatio (clock : Clock) (pin : Fin n) (pulseWidth : Int) : ℚ :=
  if pulseWidth = invalidPulseWidth then invalidNToggleVal
  else getTimeBasedGlitchScalingRatio (pulseWidth * clock.vcdTimeScale) (gate.pinRiseSlews pin + gate.pinFallSlews pin)

end Gate
end GTPower
