import GTPower.CpuGlitch
import GTPower.GroupSelection
import GTPower.WaveformLoader

/-! A gate as the engine on the CPU sees it, with its energy lookups. Values of the dump are mapped when they are used;
a missing character throws, which is `none` here, as is the end of the program at an error. -/
namespace GTPower

/-- `α` is the type of the tables and `power` evaluates one at a slew and a load. A slew that is infinite is `none`, as
is the delay of an arc that does not exist. -/
structure HostGate (κ α : Type) (n : Nat) where
  portNameToIdx : κ → Option (Fin n)
  nInputPin : Nat
  vcdValues : Fin n → List VcdValue
  valueBit : Fin n → Nat
  vertexDefaultState : Fin n → Int
  isClock : Fin n → Bool
  slew : Fin n → RiseFall → Option ℚ
  loadCap : Fin n → ℚ
  volt : Fin n → ℚ
  arcDelay : Fin n → RiseFall → Fin n → RiseFall → Option ℚ
  internalPwrs : Fin n → List (InternalPower κ α)
  power : α → ℚ → ℚ → ℚ
  leakagePowerValues : List ℚ
  defaultLeakagePowerVal : ℚ
  defaultLeakageExists : Bool

def hostNRise (prevVal curVal : Int) : ℚ :=
  if prevVal = curVal then 0
  else if curVal = 2 then if prevVal = 0 then 1 / 2 else 0
  else if curVal = 1 then if prevVal = 2 then 1 / 2 else if prevVal = 0 then 1 else 0
  else 0

def hostRiseFallEdge (prevVal curVal : Int) : RiseFall := if 0 < hostNRise prevVal curVal then .rise else .fall

def hostNToggle (prevVal curVal : Int) : ℚ :=
  if prevVal = curVal then 0 else if prevVal = 2 ∨ curVal = 2 then 1 / 2 else 1

theorem hostNRise_eq (prevVal curVal : Int) : hostNRise prevVal curVal = getNRise prevVal curVal := by
  unfold hostNRise getNRise
  grind

theorem hostRiseFallEdge_eq (prevVal curVal : Int) :
    hostRiseFallEdge prevVal curVal = getRiseFallEdge prevVal curVal := by
  rw [hostRiseFallEdge,hostNRise_eq,getRiseFallEdge]

namespace HostGate
variable {κ α : Type} (gate : HostGate κ α n) (clock : Clock)

def nEvent (pin : Fin n) : Nat := (gate.vcdValues pin).length

def eventTime (pin : Fin n) (idx : Nat) : Nat := timeAt (gate.vcdValues pin) idx

def eventVal (pin : Fin n) (idx : Nat) : Option Int :=
  ((gate.vcdValues pin)[idx]?).bind fun entry => vcdValueToInt (entry.valueAt (gate.valueBit pin))

def inputPins : List (Fin n) := (List.finRange n).filter fun pin => pin.val < gate.nInputPin

def powerOf (pwr : InternalPower κ α) : RiseFall → ℚ → ℚ → ℚ
  | .rise => gate.power pwr.riseTable
  | .fall => gate.power pwr.fallTable

/-- Energy of the first group that applies and matches. -/
def matchedPower (pinStates : Fin n → Int) (applies : InternalPower κ α → Bool) (rf : RiseFall) (slew loadCap : ℚ) :
    List (InternalPower κ α) → Option ℚ
  | [] => some 0
  | pwr :: rest =>
    if applies pwr then
      (isInternalPowerMatchPinStates gate.portNameToIdx pinStates pwr.when).bind fun matched =>
        if matched then some (gate.powerOf pwr rf slew loadCap) else matchedPower pinStates applies rf slew loadCap rest
    else matchedPower pinStates applies rf slew loadCap rest

def findInputInternalVal (pinStates : Fin n → Int) (togglePin : Fin n) (riseFall : RiseFall) : Option ℚ :=
  match gate.slew togglePin riseFall with
  | none => some 0
  | some slew => gate.matchedPower pinStates (fun _ => true) riseFall slew 0 (gate.internalPwrs togglePin)

def linked (pin : Fin n) (pwr : InternalPower κ α) : Bool := pwr.relatedPort.bind gate.portNameToIdx = some pin

/-- Average over the groups related to an input, at its finite slews. -/
def getDefaultOutputPinInternalEnergyVal (togglePin : Fin n) (toRf : RiseFall) : ℚ :=
  let energies := gate.inputPins.flatMap fun inputPin => [RiseFall.rise, .fall].flatMap fun fromRf =>
    match gate.slew inputPin fromRf with
    | none => []
    | some inputSlew => ((gate.internalPwrs togglePin).filter (gate.linked inputPin)).map fun pwr =>
        gate.powerOf pwr toRf inputSlew (gate.loadCap togglePin)
  if energies.length = 0 then 0 else energies.sum / energies.length

structure Nearest (n : Nat) where
  minDiffTime : ℚ
  related : Option (Fin n × Nat)

/-- Latest event before a time, or the first one. -/
def relatedEventIdx (pin : Fin n) (curTime : Nat) : Nat := getEventIdxInValues (gate.vcdValues pin) curTime 0 - 1

/-- Edge of an event against the one before it. -/
def edgeAt (pin : Fin n) (eventIdx : Nat) : Option RiseFall :=
  (gate.eventVal pin (eventIdx - 1)).bind fun prevVal =>
    (gate.eventVal pin eventIdx).map fun curVal => hostRiseFallEdge prevVal curVal

def relateInputPin (curTime : Nat) (togglePin : Fin n) (toRf : RiseFall) (best : Nearest n) (pin : Fin n) :
    Option (Nearest n) :=
  if gate.vcdValues pin = [] then some best
  else
    let eventIdx := gate.relatedEventIdx pin curTime
    (gate.edgeAt pin eventIdx).map fun fromRf =>
      match gate.arcDelay pin fromRf togglePin toRf with
      | none => best
      | some cellArcDelay =>
        let diffTime := |curTime * clock.vcdTimeScale - cellArcDelay - gate.eventTime pin eventIdx * clock.vcdTimeScale|
        if diffTime < best.minDiffTime ∧ clock.clkedWaveformIdx (gate.eventTime pin eventIdx) =
          clock.clkedWaveformIdx curTime then
          ⟨diffTime, some (pin, eventIdx)⟩
        else best

def findRelatedPin (curTime : Nat) (togglePin : Fin n) (toRf : RiseFall) : Option (Option (Fin n × Nat)) :=
  (gate.inputPins.foldlM (gate.relateInputPin clock curTime togglePin toRf) ⟨clock.maxTime *
    clock.vcdTimeScale, none⟩).map
    Nearest.related

def findOutputInternalVal (pinStates : Fin n → Int) (curTime : Nat) (togglePin : Fin n) (toRf : RiseFall) : Option ℚ :=
  (gate.findRelatedPin clock curTime togglePin toRf).bind fun
    | none => some (gate.getDefaultOutputPinInternalEnergyVal togglePin toRf)
    | some (related, eventIdx) =>
      (gate.edgeAt related eventIdx).bind fun fromRf =>
        match gate.slew related fromRf with
        | none => some 0
        | some inputSlew => gate.matchedPower pinStates (gate.linked related) toRf inputSlew (gate.loadCap togglePin)
            (gate.internalPwrs togglePin)

/-- Entry of the leakage table at the index of the pin states, else the default leakage. -/
def findLeakageVal (pinStates : Fin n → Int) : ℚ :=
  if gate.leakagePowerValues.length ≠ 0 then (gate.leakagePowerValues[getPinStatesIndex pinStates]?).getD 0
  else if gate.defaultLeakageExists then gate.defaultLeakagePowerVal
  else 0

/-- Flags of the events of a pin; a clock pin has none. -/
def eventGlitchFlags (pin : Fin n) : Nat → Bool :=
  if gate.isClock pin then fun _ => false
  else getEventClockCycleBasedGlitchFlags clock (gate.eventTime pin) 0 (gate.nEvent pin)

def glitchScalingRatio (pin : Fin n) (eventIdx : Nat) : Option ℚ :=
  getGlitchScalingRatioClockCycleBasedH clock (gate.eventTime pin) (gate.slew pin .rise) (gate.slew pin .fall)
    (gate.eventGlitchFlags clock pin) (gate.nEvent pin) eventIdx

def singleSwitchingEnergy (pin : Fin n) : ℚ := gate.loadCap pin * gate.volt pin * gate.volt pin

/-- What the loop adds for one event: all its lookups see the states before the time. -/
def toggle (curTime : Nat) (prevPinStates pinStates : Fin n → Int) (pin : Fin n) (eventIdx : Nat) :
    Option (Contribution n) :=
  (gate.glitchScalingRatio clock pin eventIdx).bind fun ratio =>
    let edge := hostRiseFallEdge (prevPinStates pin) (pinStates pin)
    let nRise := hostNRise (prevPinStates pin) (pinStates pin)
    let energy :=
      if pin.val < gate.nInputPin then gate.findInputInternalVal prevPinStates pin edge
      else gate.findOutputInternalVal clock prevPinStates curTime pin edge
    energy.map fun internalEnergy =>
      { pin, eventIdx
        oldVal := prevPinStates pin
        newVal := pinStates pin
        pinStates := prevPinStates
        glitchScalingRatio := ratio
        cycleIdx := clock.clkedWaveformIdx curTime
        internalEnergy := internalEnergy * hostNToggle (prevPinStates pin) (pinStates pin)
        switchingEnergy := if pin.val < gate.nInputPin then 0
          else if 0 < nRise then nRise * gate.singleSwitchingEnergy pin else 0 }

end HostGate
end GTPower
