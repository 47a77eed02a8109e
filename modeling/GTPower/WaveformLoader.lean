import GTPower.Blocks
import GTPower.Gate
import GTPower.VcdStore

/-! Loading the records of an interval into the event buffer, by the loader that goes over the list of
waveform bits and by the one that goes over the pins. A cursor per bit remembers how far the last
interval got; the last record before an interval is loaded again as the carried one. -/
namespace GTPower

/-- The values a pin shows: a variable of the store and the bit of it. -/
structure Activity where
  vcdValues : Nat
  valueBit : Nat
  deriving DecidableEq, Repr

abbrev Store := Nat → List VcdValue

/-- The value table of the loader over the bit list; other characters get the fill value. -/
def vcdValueToEventVal : VcdChar → Int
  | .zero => 0
  | .one => 1
  | .x => 2
  | .z => 3
  | .u => 255

/-- The value map of the loader over the pins, where a missing character throws. -/
def vcdValueToInt : VcdChar → Option Int
  | .zero => some 0
  | .one => some 1
  | .x => some 2
  | .z => some 3
  | .u => none

structure Loader where
  /-- Variables with a recorded number of events. -/
  registered : List Nat
  vcdValuesBitPairList : List Activity
  prevRightBound : Activity → Option Nat

structure LoadResult where
  loader : Loader
  events : Nat → Event
  pinWaveforms : List (Option WaveformRange)

section Register
variable (store : Store)

/-- The bits of a variable are listed when the variable is seen first, as many as its first value has. -/
def Loader.register (loader : Loader) (ptr : Nat) : Loader :=
  if ptr ∈ loader.registered then loader
  else
    { loader with
      registered := loader.registered ++ [ptr]
      vcdValuesBitPairList := loader.vcdValuesBitPairList ++
        (List.range (((store ptr).head?.map VcdValue.busWidth).getD 0)).map fun valueBit => ⟨ptr, valueBit⟩ }

def Loader.addPin (loader : Loader) : Option Activity → Loader
  | none => loader
  | some activity =>
    let loader := loader.register store activity.vcdValues
    { loader with
      prevRightBound := Function.update loader.prevRightBound activity
        (some ((loader.prevRightBound activity).getD 0)) }

def Loader.init (pins : List (Option Activity)) : Loader := pins.foldl (Loader.addPin store) ⟨[], [], fun _ => none⟩

def timeAt (values : List VcdValue) (pos : Nat) : Nat := (values[pos]?.map VcdValue.time).getD 0

def getEventIdxInValues (values : List VcdValue) (time left : Nat) : Nat :=
  Bisect.lowerBound (fun mid => timeAt values mid < time) left values.length

end Register

section Load
variable (store : Store) (maxEventTime maxEventNum : Nat) (startTime endTime : Nat)

def endIdxInVcd (activity : Activity) (left : Nat) : Nat :=
  if maxEventTime ≤ endTime then (store activity.vcdValues).length
  else getEventIdxInValues (store activity.vcdValues) endTime left

def charAt (activity : Activity) (pos : Nat) : VcdChar :=
  (((store activity.vcdValues)[pos]?).map fun entry => entry.valueAt activity.valueBit).getD .x

def recordsOf (activity : Activity) (startIdx endIdx : Nat) : List Event :=
  (List.range' startIdx (endIdx - startIdx)).map fun pos =>
    ⟨timeAt (store activity.vcdValues) pos, vcdValueToEventVal (charAt store activity pos)⟩

def boundsInVcd (loader : Loader) (activity : Activity) : Nat × Nat :=
  let prevRightBound := (loader.prevRightBound activity).getD 0
  let isTheFirstTimeInterval := startTime = 0
  (if isTheFirstTimeInterval then 0 else if 0 < prevRightBound then prevRightBound - 1 else 0,
    endIdxInVcd store maxEventTime endTime activity (if isTheFirstTimeInterval then 0 else prevRightBound))

def Loader.used (loader : Loader) : List Activity :=
  loader.vcdValuesBitPairList.filter fun activity => (loader.prevRightBound activity).isSome

/-- The loader over the bit list; it exits when the buffer is too small. -/
def getGateWaveformRangeMultiThread (pins : List (Option Activity)) (loader : Loader) (buffer : Nat → Event) :
    Option LoadResult :=
  let bounds := boundsInVcd store maxEventTime startTime endTime loader
  let size := fun activity => (bounds activity).2 - (bounds activity).1
  let placed := Blocks.place size 0 loader.used
  if maxEventNum < Blocks.total size loader.used then none
  else some
    { loader := { loader with
        prevRightBound := fun activity =>
          if activity ∈ loader.used then some (bounds activity).2 else loader.prevRightBound activity }
      events := Blocks.fill (fun activity => recordsOf store activity (bounds activity).1 (bounds activity).2)
        buffer placed
      pinWaveforms := pins.map fun pin => pin.bind fun activity =>
        (placed.find? fun block => block.1 = activity).map fun block => ⟨block.2, block.2 + size activity⟩ }

structure PinLoop where
  loader : Loader
  accuEventCount : Nat
  valueBitToRange : Activity → Option WaveformRange
  events : Nat → Event
  pinWaveforms : List (Option WaveformRange)

/-- First and end index of the values loaded for a bit a pin shows. Without a cursor the lookup throws, and a
cursor at the first value would read before it. -/
def pinBoundsInVcd (loader : Loader) (activity : Activity) : Option (Nat × Nat) :=
  let isTheFirstTimeInterval := startTime = 0
  if isTheFirstTimeInterval then some (0, endIdxInVcd store maxEventTime endTime activity 0)
  else
    match loader.prevRightBound activity with
    | none => none
    | some 0 => none
    | some (prevIdx + 1) => some (prevIdx, endIdxInVcd store maxEventTime endTime activity (prevIdx + 1))

def pinRecordsOf (activity : Activity) (startIdx endIdx : Nat) : Option (List Event) :=
  (List.range' startIdx (endIdx - startIdx)).mapM fun pos =>
    (vcdValueToInt (charAt store activity pos)).map fun val => ⟨timeAt (store activity.vcdValues) pos, val⟩

def getWaveformOfPin (st : PinLoop) : Option Activity → Option PinLoop
  | none => some { st with pinWaveforms := st.pinWaveforms ++ [none] }
  | some activity =>
    let loader := st.loader.register store activity.vcdValues
    match st.valueBitToRange activity with
    | some range => some { st with loader, pinWaveforms := st.pinWaveforms ++ [some range] }
    | none =>
      match pinBoundsInVcd store maxEventTime startTime endTime loader activity with
      | none => none
      | some (startIdx, endIdx) =>
        let range : WaveformRange := ⟨st.accuEventCount, st.accuEventCount + (endIdx - startIdx)⟩
        if maxEventNum < range.stop then none
        else
          match pinRecordsOf store activity startIdx endIdx with
          | none => none
          | some records => some
            { loader := { loader with prevRightBound := Function.update loader.prevRightBound activity (some endIdx) }
              accuEventCount := range.stop
              valueBitToRange := Function.update st.valueBitToRange activity (some range)
              events := Blocks.write st.events range.start records
              pinWaveforms := st.pinWaveforms ++ [some range] }

def getGateWaveformRangeSingleThread (pins : List (Option Activity)) (loader : Loader) (buffer : Nat → Event) :
    Option LoadResult :=
  (pins.foldlM (getWaveformOfPin store maxEventTime maxEventNum startTime endTime)
    ⟨loader, 0, fun _ => none, buffer, []⟩).map fun st => ⟨st.loader, st.events, st.pinWaveforms⟩

end Load

section Run
variable (store : Store) (maxEventTime maxEventNum : Nat) (pins : List (Option Activity))

structure LoadStep where
  startTime : Nat
  endTime : Nat
  loader : Loader
  buffer : Nat → Event
  result : LoadResult

/-- The intervals after the first one. With `overlapping` the loader over the bit list runs besides the kernel. -/
def loadRest (overlapping : Bool) : Loader → (Nat → Event) → List (Nat × Nat) → Option (List LoadStep)
  | _, _, [] => some []
  | loader, buffer, (startTime, endTime) :: rest =>
    let load := if overlapping then getGateWaveformRangeMultiThread else getGateWaveformRangeSingleThread
    match load store maxEventTime maxEventNum startTime endTime pins loader buffer with
    | none => none
    | some result =>
      (loadRest overlapping result.loader result.events rest).map (⟨startTime, endTime, loader, buffer, result⟩ :: ·)

/-- A whole run. The list of bits is shuffled once, after the first interval is loaded. -/
def loadRun (shuffle : List Activity → List Activity) (overlapping : Bool) (buffer : Nat → Event) :
    List (Nat × Nat) → Option (List LoadStep)
  | [] => some []
  | (startTime, endTime) :: rest =>
    let loader := Loader.init store pins
    match getGateWaveformRangeMultiThread store maxEventTime maxEventNum startTime endTime pins loader buffer with
    | none => none
    | some result =>
      let shuffled := { result.loader with vcdValuesBitPairList := shuffle result.loader.vcdValuesBitPairList }
      (loadRest store maxEventTime maxEventNum pins overlapping shuffled result.events rest).map
        (⟨startTime, endTime, loader, buffer, result⟩ :: ·)

end Run
end GTPower
